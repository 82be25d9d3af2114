import EztScan.Program.Declaration
import EztScan.Symbol.Metric

/-!
# Storing symbols

For each symbol that has a syntax tree an object is made and reported, with its check sum, its line
counts, its comments and its position, and then for its members. The object of a member stands under
that of its owner, so owners are reported first. A symbol for which there is an object already is
not reported again, and storing it stops, though after its members.
-/

namespace EztScan.Scan

/-- Reports a number as a property. -/
def numberProperty (owner : Ref) (name : String) (n : Int) : Work Scan Unit :=
  emit (.property owner name (.number n))

/-- Reports a text as a property. -/
def textProperty (owner : Ref) (name : String) (s : String) : Work Scan Unit :=
  emit (.property owner name (.text s))

/-- Comments one below the other. -/
def commentText (texts : List (Option String)) : String :=
  Element.joinLines (texts.map (·.getD ""))

/-- The global name of a symbol, told apart from those of other members of its owner, and what its
object stands under. -/
def placeObject (id : Nat) (file : Option String) : Work Scan (String × Option Ref) := do
  let guid ← Work.ofExcept ((← program?).guid id)
  match (← symbol id).parent with
  | none => return (guid, file.map .file)
  | some parent =>
    let owner ← symbol parent
    modifySymbol parent fun s => (s.freshGuid guid).2
    return ((owner.freshGuid guid).1, owner.stored.map .object)

/-- Reports how much code and which comments a source file holds. -/
def reportFile (file : Option String) (tree : SyntaxTree) : Work Scan Unit := do
  match file with
  | none => throw .valueMissing
  | some path =>
    let body ← Work.ofExcept tree.bodyComments
    numberProperty (.file path) "metric.CodeLinesCount" (← Work.ofExcept tree.codeLines)
    numberProperty (.file path) "metric.BodyCommentLinesCount" body.length
    numberProperty (.file path) "metric.LeadingCommentLinesCount"
      (← Work.ofExcept tree.headerComments).length
    textProperty (.file path) "comment.sourceCodeComment" (commentText (body.map (·.text)))
    textProperty (.file path) "comment.commentBeforeObject" ""

/-- Reports the comments of a symbol, if it has any. -/
def reportComments (object : ObjectId) (tree : SyntaxTree) : Work Scan Unit := do
  let header ← Work.ofExcept tree.headerComments
  unless header.isEmpty do
    numberProperty (.object object) "metric.LeadingCommentLinesCount" header.length
    textProperty (.object object) "comment.commentBeforeObject" (commentText (header.map (·.text)))
  let body ← Work.ofExcept tree.bodyComments
  unless body.isEmpty do
    numberProperty (.object object) "metric.BodyCommentLinesCount" body.length
    textProperty (.object object) "comment.sourceCodeComment" (commentText (body.map (·.text)))

/-- Reports where a symbol stands: from its beginning to the line after its end. -/
def reportPosition (object : ObjectId) (file : Option String) (tree : SyntaxTree) :
    Work Scan Unit := do
  let place := (← Work.ofExcept tree.requireRoot).span
  match place.endLine with
  | none => throw .positionMissing
  | some last =>
    emit (.position object ⟨file, { place with endLine := some (last + 1), endColumn := some 1 }⟩)

/-- Makes the object of a symbol and reports it. Gives the object, its type and the symbol. -/
def makeObject (id : Nat) (guid : String) (parent : Option Ref) :
    Work Scan (ObjectId × String × Symbol) := do
  let object ← allot id
  let s ← symbol id
  if s.name.isEmpty then log .debug s.tree.render none
  let type ← Work.ofExcept s.kind.objectType
  emit (.object object ⟨s.name, type, parent, guid, (← program?).qualifiedName id⟩)
  return (object, type, s)

/-- Reports the check sum of a symbol and how much code it holds. Queries have neither. -/
def reportCode (object : ObjectId) (s : Symbol) : Work Scan Unit := do
  if s.kind ≠ .query then
    numberProperty (.object object) "checksum.CodeOnlyChecksum" (← Work.ofExcept s.tree.codeCrc)
    numberProperty (.object object) "metric.CodeLinesCount" (← Work.ofExcept s.tree.codeLines)

/-- Makes and reports the object of a symbol, which counts for the symbol `counter`. -/
def store (id : Nat) (file : Option String) (counter : Nat) : Work Scan ObjectId := do
  let (guid, parent) ← placeObject id file
  let (object, type, s) ← makeObject id guid parent
  modifySymbol counter fun s => { s with made := s.made.add type 1 }
  reportCode object s
  if s.kind = .program then reportFile file s.tree
  reportComments object s.tree
  reportPosition object file s.tree
  return object

/-- The symbol that a symbol is a member of. -/
def ownerOf (s : Symbol) : Work Scan Symbol :=
  match s.parent with
  | some parent => symbol parent
  | none => throw .valueMissing

/-- Reports that the owner of a query runs it. -/
def linkQuery (id : Nat) (s : Symbol) (object : Option ObjectId) : Work Scan Unit := do
  let owner ← ownerOf s
  let p ← program?
  let file ← Work.ofExcept (p.topOf id >>= p.fileOf)
  match s.line with
  | none => throw .positionMissing
  | some line =>
    emit (.link .call owner.stored object ⟨file, ⟨some line, some 1, some (line + 1), some 1⟩⟩)

/-- Reports the text of a query. -/
def reportQueryText (s : Symbol) (object : Option ObjectId) : Work Scan Unit := do
  match object with
  | none => throw .valueMissing
  | some object =>
    let root ← Work.ofExcept s.tree.requireRoot
    match ← Work.ofExcept (Language.queryText root) with
    | some text => textProperty (.object object) "CAST_SQL_MetricableQuery.sqlQuery" text
    | none => throw .textMissing

/-- Reports that the owner of a query runs it, and the text of the query. -/
def reportQuery (id : Nat) (object : Option ObjectId) : Work Scan Unit := do
  let s ← symbol id
  linkQuery id s object
  reportQueryText s object

/-- Reports the name of a program that is called and not known. -/
def reportUnknownProgram (id : Nat) (object : Option ObjectId) : Work Scan Unit := do
  match object with
  | none => throw .valueMissing
  | some object => textProperty (.object object) "CAST_CallToProgram.programName" (← symbol id).name

/-- The file that a symbol is stored for: the one given, or else its own. -/
def fileFor (s : Symbol) (file : Option String) : Work Scan (Option String) := do
  match file with
  | some path => return some path
  | none => Work.ofExcept ((← program?).fileOf s)

/-- Stores a symbol for which there is no object yet. -/
def storeOnce (id : Nat) (s : Symbol) (file : Option String) (counter : Nat) :
    Work Scan (Option ObjectId) := do
  if s.stored.isNone then return some (← store id file counter) else return none

/-- Stores a symbol if it has a tree, and then its members by `saveMember`, which is given the file
and the symbol that the objects count for. -/
def saveTree (saveMember : Nat → Option String → Option Nat → Work Scan Unit) (id : Nat)
    (s : Symbol) (file : Option String) (counter : Nat) : Work Scan (Option ObjectId) := do
  if s.tree.isEmpty then return none
  let file ← fileFor s file
  let object ← storeOnce id s file counter
  ((← program?).membersOf id).all.forM fun member => saveMember member file (some counter)
  match object with
  | some object => return some object
  | none => throw .alreadyStored

/-- Reports what only queries and unknown programs have. These give no object to who stores them. -/
def reportParticulars (id : Nat) (kind : SymbolKind) (object : Option ObjectId) :
    Work Scan (Option ObjectId) := do
  match kind with
  | .query =>
    reportQuery id object
    return none
  | .unknownProgram =>
    reportUnknownProgram id object
    return none
  | _ => return object

/-- Stores a symbol and its members, at most `fuel` deep. -/
def saveWithin : Nat → Nat → Option String → Option Nat → Work Scan (Option ObjectId)
  | 0, _, _, _ => return none
  | fuel + 1, id, file, counter => do
    let s ← symbol id
    let saveMember (member : Nat) (file : Option String) (counter : Option Nat) : Work Scan Unit :=
      discard (saveWithin fuel member file counter)
    let object ← saveTree saveMember id s file (counter.getD id)
    reportParticulars id s.kind object

/-- Stores a symbol and its members. The file is that of the program if none is given, and the
objects count for the symbol itself if no other one is given. -/
def save (id : Nat) (file : Option String) : Work Scan (Option ObjectId) := do
  saveWithin (← program?).symbols.length id file none

end EztScan.Scan
