import EztScan.Project

/-!
# Analyses

An analysis takes the source files of a project one by one and puts those with an accepted extension
into the library. At its end, each program of the library is read, resolved, stored and linked. A
program that stops with a fault does not keep the others from being scanned: the log tells which one
it was.
-/

namespace EztScan

/-- A run over source files. -/
structure Analysis where
  /-- Does the analysis do anything at all? -/
  active : Bool := true
  /-- The extensions of the files that are taken, in small letters. -/
  extensions : List String := [".esy", ".mac", ".ezt"]
  project : Project := {}

namespace Scan

/-- Reads the source of the program once and forgets it again. -/
def glance (files : SourceFiles) : Work Scan Unit := do
  refreshTree files
  clean 0

/-- Reads, resolves, stores and links the program, and forgets its trees. -/
def examineAll (files : SourceFiles) (library : Option Library) (known : Objects) :
    Work Scan Unit := do
  readProgram files
  resolve files library
  discard (save 0 none)
  saveLinks known
  clean 0

/-- Scans the program. If that stops with a fault, the log says so. -/
def examine (files : SourceFiles) (library : Option Library) (known : Objects) :
    Work Scan Unit := do
  let path := (← program?).path
  log .info ("Scanning " ++ path) none
  match ← (examineAll files library known).attempt with
  | .ok () => return ()
  | .error f => log .warning ("Issue during scan of " ++ path) (some f)

end Scan

namespace Analysis

/-- Is the file at this path one that the analysis takes? -/
def accepts (a : Analysis) (path : String) : Bool :=
  a.active && a.extensions.contains (Text.Path.splitExtension (Text.lower path)).2

/-- The work on a project when a file is taken: its program is put into the library, and its source
is read once. -/
def takeFile (path : String) : Work Project Unit := do
  let p ← get
  let i := p.nextId path
  modify fun p => p.insert path (.file path) none
  Project.enlist i
  Project.scan i (Scan.glance p.files)

/-- Takes a file, if it is one that the analysis takes. -/
def startFile (path : String) : Work Analysis Unit := do
  if (← get).accepts path then
    Work.within (·.project) (fun p a => { a with project := p }) (takeFile path)

/-- Scans a program of the library. -/
def scanEntry (e : Entry) : Work Project Unit := do
  let p ← get
  Project.scan e.program (Scan.examine p.files (p.libraryFor e.program) p.objectOf)

/-- Scans all programs of the library. -/
def finish : Work Analysis Unit := do
  if (← get).active then
    Work.within (·.project) (fun p a => { a with project := p }) do
      (← get).library.entries.forM scanEntry

end Analysis

end EztScan
