import EztScan.Program.Link

/-!
# Projects

A project holds programs, the library of those that can be called, and the source files. The work on
a program is done within the project: the program that comes out takes the place of the old one, and
what was reported is added to the events of the project. Objects are numbered from one on in the
order in which they were made.
-/

namespace EztScan

/-- Programs, the library and the source files, with all that was reported. -/
structure Project where
  programs : List Program := []
  library : Library := {}
  files : SourceFiles := []
  /-- The objects of each type that programs have declared to be shared. -/
  shared : Counts := []
  events : Array Event := #[]

namespace Project

variable (p : Project)

/-- What the next program at a path will be known by. -/
def nextId (path : String) : ProgramId :=
  ⟨path, p.programs.countP (·.path == path)⟩

/-- Adds a program, which is not in the library yet. -/
def insert (path : String) (origin : Origin) (text : Option String) : Project :=
  { p with programs := p.programs ++ [.unread (p.nextId path) origin text] }

/-- The objects that were made, in the order of their numbers. -/
def objects : List ObjectId :=
  p.events.toList.filterMap Event.made?

/-- The number of an object. -/
def number (id : ObjectId) : Option Nat :=
  (p.objects.idxOf? id).map (· + 1)

/-- The library as a program sees it that has been put into it. -/
def libraryFor (i : ProgramId) : Option Library :=
  if p.library.entries.any (·.program == i) then some p.library else none

/-- The program that is known by `i`. -/
def program? (i : ProgramId) : Option Program :=
  p.programs.find? (·.id == i)

/-- The program that is known by `i`, which has to be there. -/
def program (i : ProgramId) : Except Fault Program :=
  match p.program? i with
  | some prog => .ok prog
  | none => .error .noSuchSymbol

/-- A program as the library keeps it. -/
def entry (i : ProgramId) : Except Fault Entry := do
  let prog ← p.program i
  return ⟨i, prog.name⟩

/-- The label of a symbol. -/
def label (ref : SymbolRef) : Option Label :=
  ((p.program? ref.program).bind (·.symbols[ref.symbol]?)).map Symbol.label

/-- The object of a symbol. -/
def objectOf (ref : SymbolRef) : Option ObjectId :=
  (p.program? ref.program).bind (·.objectOf ref.symbol)

/-- Puts the outcome of the work on a program in the place of the program. -/
def absorb (i : ProgramId) (s : Scan) : Project :=
  { p with
    programs := p.programs.map fun prog => if prog.id = i then s.program else prog
    events := p.events ++ s.events }

/-- Does work on a program. -/
def scan {α : Type} (i : ProgramId) (w : Work Scan α) : Work Project α := do
  let prog ← Work.ofExcept ((← get).program i)
  Work.of fun p =>
    let (outcome, s) := w.runOn ⟨prog, #[]⟩
    (outcome, p.absorb i s)

/-! ### Operations on programs -/

/-- Puts a program into the library. -/
def enlist (i : ProgramId) : Work Project Unit := do
  let e ← Work.ofExcept ((← get).entry i)
  modify fun p => { p with library := p.library.insert e }

/-- Those of some programs that are fewest steps away from a place. -/
def closest (ids : List ProgramId) (start : String) : Except Fault (List Entry) := do
  Library.closest (← ids.mapM p.entry) start

/-- Adds to the counts of the library. -/
def addCounts (counts : Counts) : Work Project Counts := do
  modify fun p => { p with library := { p.library with counts := p.library.counts.addAll counts } }
  return (← get).library.counts

/-- The text of a program. -/
def sourceText (i : ProgramId) : Work Project String := do
  scan i (Scan.sourceText (← get).files)

/-- Reads the source of a program. -/
def refreshTree (i : ProgramId) : Work Project Unit := do
  scan i (Scan.refreshTree (← get).files)

/-- Reads the source of a program and declares what it declares. -/
def readProgram (i : ProgramId) : Work Project Unit := do
  scan i (Scan.readProgram (← get).files)

/-- Finds out what the operands of the statements of a program stand for. -/
def resolve (i : ProgramId) : Work Project Unit := do
  let p ← get
  scan i (Scan.resolve p.files (p.libraryFor i))

/-- Stores a symbol of a program and its members. -/
def save (i : ProgramId) (id : Nat) : Work Project (Option ObjectId) :=
  scan i (Scan.save id none)

/-- Reports the links of a program. -/
def saveLinks (i : ProgramId) : Work Project Unit := do
  scan i (Scan.saveLinks (← get).objectOf)

/-- Forgets the trees of a symbol and of those under it. -/
def clean (i : ProgramId) (id : Nat) : Work Project Unit :=
  scan i (Scan.clean id)

/-- Handles one statement that stands in no tree, as a statement of the kind with this name: finds
out what its operands stand for and, if asked to, reports its links. Gives what each operand stands
for. -/
def handle (i : ProgramId) (linking : Bool) (kind : String) (n : Node) :
    Work Project (Role → List SymbolRef) := do
  let p ← get
  let before := (← Work.ofExcept (p.program i)).resolved
  let outcome ← (scan i do
    Scan.modifyProgram fun prog => { prog with resolved := [] }
    Scan.resolveAs (some p.library) kind n
    if linking then Scan.linkAs p.objectOf kind n
    return (← Scan.program?).resolvedAs n.head.number).attempt
  scan i (Scan.modifyProgram fun prog => { prog with resolved := before })
  Work.ofExcept outcome

/-- Adds the objects made on behalf of a program to the shared counts, and gives both. -/
def shareCounts (i : ProgramId) : Work Project (Counts × Counts) := do
  let prog ← Work.ofExcept ((← get).program i)
  let own := (← Work.ofExcept (prog.symbol 0)).made
  modify fun p => { p with shared := p.shared.addAll own }
  return (own, (← get).shared)

/-! ### Operations on symbols -/

/-- Declares a symbol by hand as a member of another one. A program that is declared so has its
source with its owner. -/
def declare (i : ProgramId) (owner : Nat) (kind : SymbolKind) (name : String) : Work Project Unit :=
  scan i do
    let s : Symbol := match kind with
      | .program => { kind, name := Program.nameAt name, origin := .beside owner }
      | _ => { kind, name, parent := some owner }
    Scan.modifyProgram fun prog => (prog.declare owner name s).1

/-- Takes the object of one symbol for another one. -/
def shareObject (i : ProgramId) (id : Nat) (j : ProgramId) (other : Nat) : Work Project Unit := do
  let prog ← Work.ofExcept ((← get).program j)
  let source ← Work.ofExcept (prog.symbol other)
  scan i (Scan.modifySymbol id fun s => { s with stored := source.stored })

/-- A global name for a member of a symbol. -/
def freshGuid (i : ProgramId) (id : Nat) (guid : String) : Work Project String :=
  scan i do
    let (fresh, s) := (← Scan.symbol id).freshGuid guid
    Scan.modifySymbol id fun _ => s
    return fresh

/-- A name for a member of a symbol. -/
def freshName (i : ProgramId) (id : Nat) (name : String) : Work Project String :=
  scan i do
    let (fresh, s) := (← Scan.symbol id).freshName name
    Scan.modifySymbol id fun _ => s
    return fresh

end Project

/-- Looks names up through what a symbol includes. Nothing is found through a symbol that was seen
before, and there is no kind of symbol that could be gone through. -/
def Program.findThrough (seen : Bool) : Except Fault (List Nat) :=
  if seen then .ok [] else .error .scopeUnknown

/-- A symbol does not know the file of its program, so it can make no bookmark. -/
def Symbol.bookmark (_ : Symbol) : Except Fault Bookmark :=
  .error .valueMissing

end EztScan
