import EztScan.Symbol.Basic
import EztScan.Text.Path

/-!
# Programs

A program or macro: where its source is, and its symbols. The program itself is the symbol with
number zero, and a symbol is always declared after the one that it is a member of. So the way from a
symbol to the program that holds it (`lineage`) goes through smaller and smaller numbers.
-/

namespace EztScan

/-- A symbol, by its program and its number there. -/
structure SymbolRef where
  program : ProgramId
  symbol : Nat
deriving Repr, DecidableEq

/-- A program or macro. -/
structure Program where
  id : ProgramId
  /-- The text of the source, where it is given and need not be read from a file. -/
  text : Option String := none
  symbols : List Symbol
  /-- What the operands of statements stand for, by the number of the statement and the role of the
  operand. -/
  resolved : List ((Nat × Role) × List SymbolRef) := []
  /-- How many objects have been made for the program. -/
  made : Nat := 0

namespace Program

/-- The name of the program at a path: the last name of the path without its extension. -/
def nameAt (path : String) : String :=
  (Text.Path.splitExtension (Text.Path.basename path)).1

/-- A program before its source is read. -/
def unread (id : ProgramId) (origin : Origin) (text : Option String) : Program where
  id
  text
  symbols := [{ kind := .program, name := nameAt id.path, origin }]

variable (p : Program)

/-- The path of the source. -/
def path : String :=
  p.id.path

/-- The name of a program. -/
def name : String :=
  nameAt p.path

/-- The symbol with a number. -/
def symbol (id : Nat) : Except Fault Symbol :=
  match p.symbols[id]? with
  | some s => .ok s
  | none => .error .noSuchSymbol

/-- The object of the symbol with a number. -/
def objectOf (id : Nat) : Option ObjectId :=
  (p.symbols[id]?).bind (·.stored)

/-- Changes the symbol with a number. -/
def modifySymbol (id : Nat) (f : Symbol → Symbol) : Program :=
  { p with symbols := p.symbols.modify id f }

/-- Makes the next object for a symbol. -/
def allot (id : Nat) : Program :=
  { p with made := p.made + 1 }.modifySymbol id fun s => { s with stored := some ⟨p.id, p.made⟩ }

/-- Declares a symbol as a member of another one, under a name that need not be its own. -/
def declare (parent : Nat) (key : String) (s : Symbol) : Program × Nat :=
  let id := p.symbols.length
  let withSymbol := { p with symbols := p.symbols ++ [s] }
  (withSymbol.modifySymbol parent fun owner =>
    { owner with members := owner.members.insert (Text.upper key) id }, id)

/-! ### Members -/

/-- The members of a symbol. -/
def membersOf (id : Nat) : Members :=
  match p.symbols[id]? with
  | some s => s.members
  | none => []

/-- Is the symbol of one of these kinds? -/
def isOneOf (kinds : List SymbolKind) (id : Nat) : Bool :=
  match p.symbols[id]? with
  | some s => kinds.contains s.kind
  | none => false

/-- The members of a symbol that have this name, case put aside, and one of these kinds. No kinds
stand for all kinds. There are no members without a name. -/
def find (id : Nat) (name : Option String) (kinds : List SymbolKind) : List Nat :=
  match name with
  | none => []
  | some "" => []
  | some name =>
    let found := (p.membersOf id).get (Text.upper name)
    if kinds.isEmpty then found else found.filter (p.isOneOf kinds)

/-- Does the symbol begin at this line? -/
def beginsAt (line : Int) (id : Nat) : Bool :=
  match p.symbols[id]? with
  | some s => s.line == some line
  | none => false

/-- The only member of this name and kinds, or, where there are several, the first one that begins
at the given line. -/
def findOne (id : Nat) (name : Option String) (kinds : List SymbolKind) (line : Option Int) :
    Option Nat :=
  match p.find id name kinds with
  | [only] => some only
  | found => if isKnown line then found.find? (p.beginsAt (line.getD 0)) else none

/-- Follows names and places among the symbols of one name. -/
def select (id : Nat) : List (String × Nat) → Except Fault Nat
  | [] => .ok id
  | (key, i) :: rest =>
    match ((p.membersOf id).get key)[i]? with
    | some member => select member rest
    | none => .error .noSuchSymbol

/-! ### The way up -/

/-- The symbols from the one with this number up, at most `fuel` of them. -/
def lineageWithin : Nat → Nat → List Symbol
  | 0, _ => []
  | fuel + 1, id =>
    match p.symbols[id]? with
    | none => []
    | some s => s :: match s.parent with
      | some parent => lineageWithin fuel parent
      | none => []

/-- The symbols from the one with this number up to the one that is no member. As members are
declared after their owners, there are no more of them than the number says. -/
def lineage (id : Nat) : List Symbol :=
  p.lineageWithin (id + 1) id

/-- The symbol itself or the nearest symbol above it that is of one of these kinds. -/
def ancestor (id : Nat) (kinds : List SymbolKind) : Option Symbol :=
  (p.lineage id).find? fun s => kinds.contains s.kind

/-- The number of the nearest symbol of one of these kinds, from a symbol on up, in at most `fuel`
steps. -/
def ancestorIdWithin (kinds : List SymbolKind) : Nat → Nat → Option Nat
  | 0, _ => none
  | fuel + 1, id =>
    match p.symbols[id]? with
    | none => none
    | some s =>
      if kinds.contains s.kind then some id
      else match s.parent with
        | some parent => ancestorIdWithin kinds fuel parent
        | none => none

/-- The number of the nearest symbol of one of these kinds, from a symbol on up. -/
def ancestorId (id : Nat) (kinds : List SymbolKind) : Option Nat :=
  p.ancestorIdWithin kinds (id + 1) id

/-- The symbol at the top of the way up. -/
def topOf (id : Nat) : Except Fault Symbol :=
  match (p.lineage id).getLast? with
  | some s => .ok s
  | none => .error .noSuchSymbol

/-! ### Names and files -/

/-- The path of the source of a symbol, which programs only can tell, in at most `fuel` steps. -/
def pathWithin : Nat → Nat → Except Fault String
  | 0, _ => .error .valueMissing
  | fuel + 1, id =>
    match p.symbols[id]? with
    | some { kind := .program, origin := .file path, .. } => .ok path
    | some { kind := .program, origin := .nowhere, .. } => .ok p.path
    | some { kind := .program, origin := .beside other, .. } => pathWithin fuel other
    | _ => .error .valueMissing

/-- The source file of a symbol, which programs only can tell. -/
def fileOf (s : Symbol) : Except Fault (Option String) :=
  if s.kind ≠ .program then .error .valueMissing
  else match s.origin with
    | .nowhere => .ok none
    | .file path => .ok (some path)
    | .beside id => some <$> p.pathWithin (id + 1) id

/-- The name of a symbol with those of all symbols above it. The topmost name goes without its
extension. -/
def qualifiedName (id : Nat) : String :=
  match (p.lineage id).reverse with
  | [] => ""
  | top :: below =>
    ".".intercalate ((Text.Path.splitExtension top.name).1 :: below.map (·.name))

/-- What a symbol adds to a global name. -/
def guidPart (s : Symbol) : Except Fault String := do
  let type ← s.kind.objectType
  return "." ++ type ++ "." ++ Text.upper s.name

/-- The global name of a symbol: the path of its source, and the types and names on the way down to
it. -/
def guid (id : Nat) : Except Fault String := do
  let top ← p.topOf id
  match ← p.fileOf top with
  | none => .error .valueMissing
  | some path =>
    let parts ← (p.lineage id).reverse.mapM guidPart
    return path ++ String.join parts

/-! ### The way down -/

/-- The symbols under one with this number, as a text with one line for each of them, at most `fuel`
deep. -/
def outlineWithin : Nat → Int → Nat → String
  | 0, _, _ => ""
  | fuel + 1, depth, id =>
    match p.symbols[id]? with
    | none => ""
    | some s =>
      String.ofList (List.replicate depth.toNat ' ') ++ s.kind.name ++ " " ++ s.name ++ "\n"
        ++ String.join (s.members.all.map (outlineWithin fuel (depth + 1)))

/-- A symbol and those under it, as a text with one line for each of them. -/
def outline (depth : Int) (id : Nat) : String :=
  p.outlineWithin p.symbols.length depth id

end Program

/-- The name that a symbol takes for a new member, so that members of one global name can be told
apart. -/
def Symbol.freshGuid (s : Symbol) (guid : String) : String × Symbol :=
  let (fresh, guids) := s.guids.freshName guid
  (fresh, { s with guids })

/-- The name that a symbol takes for a new member, so that members of one name can be told apart. -/
def Symbol.freshName (s : Symbol) (name : String) : String × Symbol :=
  let (fresh, names) := s.names.freshName name
  (fresh, { s with names })

end EztScan
