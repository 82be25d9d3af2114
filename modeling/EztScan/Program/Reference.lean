import EztScan.Library
import EztScan.Program.Declaration
import EztScan.Tree.Walk

/-!
# What statements refer to

Each statement that refers to something has a list of references: which operand it is, what kind of
symbol it stands for, and which link it makes. Names are looked up among the members of the program,
whatever stands first, the use or the declaration; the name of a called program is looked up in the
library.
-/

namespace EztScan

/-- A reference of a statement. -/
structure Reference where
  role : Role
  expects : SymbolKind
  link : LinkKind
  /-- May the statement do without it, and without those behind it? -/
  optional : Bool := false
deriving Repr, DecidableEq

namespace Reference

/-- The references of a kind of statement. -/
def ofStatement? : String → Option (List Reference)
  | "Perform" | "Start" | "Finish" | "Restart" => some [⟨.procedure, .procedure, .call, false⟩]
  | "Put" | "Write" => some [⟨.file, .file, .write, false⟩, ⟨.source, .file, .read, true⟩]
  | "Get" => some [⟨.file, .file, .read, false⟩]
  | "Point" => some [⟨.file, .file, .write, false⟩]
  | "Job" => some [⟨.input, .file, .read, true⟩]
  | "Sort" => some [⟨.sorted, .file, .read, true⟩, ⟨.target, .file, .write, true⟩]
  | "Print" => some [⟨.report, .report, .read, false⟩]
  | "Call" => some [⟨.program, .program, .call, false⟩]
  | _ => none

/-- The operand of a reference. It is a fault if the statement has none of that kind, or if it has
none at all and cannot do without it. -/
def operandIn (r : Reference) (n : Node) : Except Fault (Option Operand) :=
  if (Language.rolesOf n.head.kind.name).contains r.role then
    match n.operand? r.role with
    | some o => .ok (some o)
    | none => if r.optional then .ok none else .error .operandMissing
  else .error .operandMissing

end Reference

namespace Program

/-- What an operand of a statement stands for. -/
def resolvedAs (p : Program) (statement : Nat) (role : Role) : List SymbolRef :=
  (p.resolved.lookup (statement, role)).getD []

/-- Sets what an operand of a statement stands for. -/
def setResolved (p : Program) (statement : Nat) (role : Role) (refs : List SymbolRef) : Program :=
  { p with resolved := ((statement, role), refs) :: p.resolved.filter (·.1 != (statement, role)) }

/-- An operand of a statement, and what it stands for. -/
structure Use where
  statement : Node
  role : Role
  operand : Operand
  targets : List SymbolRef

/-- The operands of a statement, and what they stand for. -/
def usesIn (p : Program) (n : Node) : List Use :=
  (Language.rolesOf n.head.kind.name).filterMap fun role =>
    if role = .query then none
    else (n.operand? role).map fun o => ⟨n, role, o, p.resolvedAs n.head.number role⟩

/-- The operands of all statements, in the order of a walk, and what they stand for. -/
def uses (p : Program) : List Use :=
  match (p.symbols[0]?).bind (·.tree.root?) with
  | none => []
  | some root => root.toElement.walk.flatMap fun v => match v with
    | .entering n => p.usesIn n
    | .leaving _ => []

end Program

namespace Scan

/-- The symbols that an operand stands for. -/
def lookUp (library : Option Library) (r : Reference) (o : Operand) :
    Work Scan (List SymbolRef) := do
  let p ← program?
  if r.expects = .program then
    match library, o.name with
    | none, _ => throw .valueMissing
    | some _, none => throw .pathMissing
    | some l, some name =>
      let entry ← Work.ofExcept (l.find name p.path)
      return (entry.map fun e => (⟨e.program, 0⟩ : SymbolRef)).toList
  else return (p.find 0 o.name [r.expects]).map fun id => ⟨p.id, id⟩

/-- Finds out what the operands of a statement stand for, up to the first one that is left out. -/
def resolveReferences (library : Option Library) (n : Node) : List Reference → Work Scan Unit
  | [] => return ()
  | r :: rs => do
    match ← Work.ofExcept (r.operandIn n) with
    | none => return ()
    | some o =>
      let refs ← lookUp library r o
      modifyProgram fun p => p.setResolved n.head.number r.role refs
      resolveReferences library n rs

/-- Finds out what the operands of a statement stand for, taken for a statement of the kind with
this name. -/
def resolveAs (library : Option Library) (kind : String) (n : Node) : Work Scan Unit :=
  match Reference.ofStatement? kind with
  | some rs => resolveReferences library n rs
  | none => throw .handlerMissing

/-- Finds out what the operands stand for when a walk enters a statement. -/
def resolveVisit (library : Option Library) : Visit → Work Scan Unit
  | .leaving _ => return ()
  | .entering n =>
    match Reference.ofStatement? n.head.kind.name with
    | some rs => resolveReferences library n rs
    | none => return ()

/-- The visits of a walk through the tree of the program, none if it has no root. -/
def visits : Work Scan (List Visit) := do
  match (← symbol 0).tree.root? with
  | some n => return n.toElement.walk
  | none => return []

/-- Finds out what the operands of all statements stand for. A program without a tree is read
first. -/
def resolve (files : SourceFiles) (library : Option Library) : Work Scan Unit := do
  if (← symbol 0).tree.isEmpty then readProgram files
  (← visits).forM (resolveVisit library)

end Scan

end EztScan
