import EztScan.Language.Source
import EztScan.Program.Scan

/-!
# Reading a program

The source of a program is read into its syntax tree, and its declarations become symbols: files,
procedures and reports are members of what they stand in, and queries are members of the nearest
procedure, or else of the program. A source that cannot be read leaves the tree as it was, which the
log tells.
-/

namespace EztScan

/-- A source file: its text, if there is one, and whether its encoding is named in a way that nobody
knows. -/
structure SourceFile where
  text : Option String := none
  encodingUnknown : Bool := false

/-- Source files by their paths. -/
abbrev SourceFiles : Type := List (String × SourceFile)

namespace SourceFiles

/-- The file at a path. -/
def file (fs : SourceFiles) (path : String) : SourceFile :=
  (fs.lookup path).getD {}

/-- Keeps a text at a path, unless none is given, and whether its encoding is known. -/
def store (fs : SourceFiles) (path : String) (text : Option String) (encodingUnknown : Bool) :
    SourceFiles :=
  let old := fs.file path
  (path, ⟨text.or old.text, encodingUnknown || old.encodingUnknown⟩) :: fs.filter (·.1 != path)

end SourceFiles

namespace Scan

/-! ### Source and tree -/

/-- The text of the program: the one given with it, or that of its file. A file whose encoding is
not known is read once more with the usual one. -/
def sourceText (files : SourceFiles) : Work Scan String := do
  let p ← program?
  match p.text with
  | some text => return text
  | none =>
    let file := files.file p.path
    if file.encodingUnknown then
      log .info "Lookup error with wrong unknown encoding, try by forcing UTF-8 encoding" none
    match file.text with
    | some text => return text
    | none => throw .fileMissing

/-- The tree that a source is read into: its first root, or else all of it. -/
def treeOf (source : String) : Except Fault SyntaxTree :=
  let reading := Language.parse source
  match reading.fault with
  | some f => .error f
  | none => match (Element.nodes reading.elements).find? Language.isRoot with
    | some n => .ok (.root n)
    | none => .ok (.forest reading.elements)

/-- Reads the source of the program. Nothing is known yet about the operands in the new tree. -/
def readTree (files : SourceFiles) : Work Scan Unit := do
  let tree ← Work.ofExcept (treeOf (← sourceText files))
  modifySymbol 0 fun s => { s with tree }
  modifyProgram fun p => { p with resolved := [] }

/-- Reads the source of the program. If that fails, the log says so and the tree stays as it was. -/
def refreshTree (files : SourceFiles) : Work Scan Unit := do
  match ← (readTree files).attempt with
  | .ok () => return ()
  | .error f => log .info "Issue during parsing: " (some f)

/-! ### Declarations -/

/-- The kind of symbol that a node declares. -/
def declaredKind (n : Node) : Option SymbolKind :=
  if n.head.kind.isA "File" then some .file
  else if n.head.kind.isA "Procedure" then some .procedure
  else if n.head.kind.isA "Report" then some .report
  else if n.head.kind.isA "SQL" then some .query
  else none

/-- The symbol that a declaration of a kind, standing in `owner`, is a member of. -/
def ownerFor (kind : SymbolKind) (owner : Nat) : Work Scan Nat := do
  if kind = .query then
    match (← program?).ancestorId owner [.program, .procedure] with
    | some id => return id
    | none => throw .valueMissing
  else return owner

/-- Declares what a node declares, and gives the symbol that the nodes in it belong to. -/
def declareNode (owner : Nat) (n : Node) : Work Scan Nat := do
  match declaredKind n with
  | none => return owner
  | some kind =>
    let name ← Work.ofExcept (Language.declaredName n)
    let parent ← ownerFor kind owner
    match name with
    | none => throw .textMissing
    | some name =>
      declare parent
        { kind, name, parent := some parent, line := n.span.beginLine, tree := .root n }

mutual

/-- Declares what an element and the nodes in it declare. -/
def declareIn (owner : Nat) : Element → Work Scan Unit
  | .token _ => pure ()
  | .node h cs => do
    let id ← declareNode owner ⟨h, cs⟩
    declareAll id cs

/-- Declares what some elements and the nodes in them declare. -/
def declareAll (owner : Nat) : List Element → Work Scan Unit
  | [] => pure ()
  | e :: es => do
    declareIn owner e
    declareAll owner es

end

/-- Reads the source of the program and declares what it declares. -/
def readProgram (files : SourceFiles) : Work Scan Unit := do
  refreshTree files
  let self ← symbol 0
  if self.tree.isEmpty then return ()
  let root ← Work.ofExcept self.tree.requireRoot
  declareAll 0 root.children

/-! ### Forgetting -/

/-- Forgets the trees of a symbol and of those under it, at most `fuel` deep. -/
def cleanWithin : Nat → Nat → Work Scan Unit
  | 0, _ => return ()
  | fuel + 1, id => do
    modifySymbol id fun s => { s with tree := .absent }
    ((← program?).membersOf id).all.forM (cleanWithin fuel)

/-- Forgets the trees of a symbol and of those under it. -/
def clean (id : Nat) : Work Scan Unit := do
  cleanWithin (← program?).symbols.length id

end Scan

end EztScan
