import EztScan.Program.Reference
import EztScan.Program.Store

/-!
# Links of a program

A walk through the tree of a program reports a link for every operand and every symbol that it
stands for. Links start from the procedure that the statement stands in, or else from the program.
For a called program that nobody knows, a symbol is declared where the call stands, once for each
name, and stored at once. Links to symbols without an object are left out.
-/

namespace EztScan

/-- The objects of symbols, for those that have one. -/
abbrev Objects : Type := SymbolRef → Option ObjectId

/-- The symbols that a walk is inside of, the innermost first. A procedure that was never declared
has no symbol. -/
abbrev Enclosing : Type := List (Option Nat)

namespace Scan

/-- The symbol that a walk is inside of. -/
def current (stack : Enclosing) : Except Fault Nat :=
  match stack with
  | some id :: _ => .ok id
  | _ => .error .valueMissing

/-- The object of a symbol of this program, or of another one, whose objects are the known ones. -/
def objectOf (known : Objects) (p : Program) (ref : SymbolRef) : Option ObjectId :=
  if ref.program = p.id then p.objectOf ref.symbol else known ref

/-- The piece of the source file of the program at a place. -/
def bookmark (span : Span) : Work Scan Bookmark := do
  let p ← program?
  let self ← symbol 0
  return ⟨← Work.ofExcept (p.fileOf self), span⟩

/-- Reports the link from an object to one of the symbols that an operand stands for. -/
def linkTarget (known : Objects) (kind : LinkKind) (caller : Option ObjectId) (o : Operand)
    (ref : SymbolRef) : Work Scan Unit := do
  match objectOf known (← program?) ref with
  | some callee => emit (.link kind caller (some callee) (← bookmark o.span))
  | none => return ()

/-- The kind of a node that holds a single word. -/
def wordKind : NodeKind := ⟨"Identifier", .plain, ["Node"]⟩

/-- The tree of an operand. -/
def operandTree : Operand → SyntaxTree
  | .word t => .root ⟨{ kind := wordKind }, [.token t]⟩
  | .group _ => .root ⟨{ kind := wordKind }, []⟩

/-- The symbol for a program that is called from another symbol and not known. It is declared and
stored if it is not there yet. -/
def unknownProgram (owner : Nat) (o : Operand) : Work Scan Nat := do
  match (← program?).findOne owner o.name [.unknownProgram] none with
  | some id => return id
  | none =>
    match o.name with
    | none => throw .textMissing
    | some name =>
      let id ← declare owner
        { kind := .unknownProgram, name, parent := some owner, tree := operandTree o }
      let p ← program?
      discard (save id (← Work.ofExcept (p.fileOf (← symbol 0))))
      return id

/-- What an operand stands for. A called program that was not found is now a symbol of its own. -/
def targetsOf (owner : Nat) (n : Node) (r : Reference) (o : Operand) :
    Work Scan (List SymbolRef) := do
  let p ← program?
  let refs := p.resolvedAs n.head.number r.role
  if r.expects = .program && refs.isEmpty then
    let id ← unknownProgram owner o
    modifyProgram fun p => p.setResolved n.head.number r.role [⟨p.id, id⟩]
    return [⟨p.id, id⟩]
  else return refs

/-- Reports the links of a statement, up to the first operand that is left out. -/
def linkReferences (known : Objects) (owner : Nat) (caller : Option ObjectId) (n : Node) :
    List Reference → Work Scan Unit
  | [] => return ()
  | r :: rs => do
    match ← Work.ofExcept (r.operandIn n) with
    | none => return ()
    | some o =>
      (← targetsOf owner n r o).forM (linkTarget known r.link caller o)
      linkReferences known owner caller n rs

/-- Has the statement nothing to link, wherever it stands? So it is with a job without input. -/
def isIdle (n : Node) (rs : List Reference) : Except Fault Bool :=
  match rs with
  | ⟨.input, expects, link, optional⟩ :: _ =>
    Option.isNone <$> Reference.operandIn ⟨.input, expects, link, optional⟩ n
  | _ => .ok false

/-- Reports the links of a statement inside some symbols. -/
def linkStatement (known : Objects) (stack : Enclosing) (n : Node) (rs : List Reference) :
    Work Scan Unit := do
  if ← Work.ofExcept (isIdle n rs) then return ()
  let owner ← Work.ofExcept (current stack)
  linkReferences known owner (← symbol owner).stored n rs

/-- The references of a kind of statement that is linked. -/
def linked? (kind : String) : Option (List Reference) :=
  if kind = "Restart" then none else Reference.ofStatement? kind

/-- Reports the links of a statement, taken for a statement of the kind with this name. -/
def linkAs (known : Objects) (kind : String) (n : Node) : Work Scan Unit :=
  match linked? kind with
  | some rs => linkStatement known [some 0] n rs
  | none => throw .handlerMissing

/-- Follows a walk: enters and leaves procedures, and reports the links of statements. -/
def linkVisit (known : Objects) (stack : Enclosing) : Visit → Work Scan Enclosing
  | .leaving n => return if n.head.kind.name = "Procedure" then stack.tail else stack
  | .entering n =>
    if n.head.kind.name = "Procedure" then do
      let outer ← Work.ofExcept (current stack)
      let name ← Work.ofExcept (Language.declaredName n)
      return (← program?).findOne outer name [.procedure] n.span.beginLine :: stack
    else match linked? n.head.kind.name with
      | some rs => do
        linkStatement known stack n rs
        return stack
      | none => return stack

/-- Follows a walk from the inside of some symbols, and gives those that it ends in. -/
def linkVisits (known : Objects) (stack : Enclosing) : List Visit → Work Scan Enclosing
  | [] => return stack
  | v :: vs => do linkVisits known (← linkVisit known stack v) vs

/-- Reports the links of the program. -/
def saveLinks (known : Objects) : Work Scan Unit := do
  discard (linkVisits known [some 0] (← visits))

/-! ### Bookmarks of a tree -/

/-- The column where a bookmark of a single line ends. -/
def lineEnd : Int := 80

/-- Bookmarks of a tree: of all of it, of its first line, and of its first line of code. -/
def treeBookmarks : Work Scan (List Bookmark) := do
  let root ← Work.ofExcept (← symbol 0).tree.requireRoot
  let place := root.span
  let whole ← bookmark place
  let firstLine ← bookmark ⟨place.beginLine, place.beginColumn, place.beginLine, some lineEnd⟩
  let code := (← Work.ofExcept root.firstCode).span
  let codeLine ← bookmark ⟨code.beginLine, code.beginColumn, code.beginLine, some lineEnd⟩
  return [whole, firstLine, codeLine]

end Scan

end EztScan
