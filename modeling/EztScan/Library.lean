import EztScan.Symbol.Basic
import EztScan.Text.Path

/-!
# The library of programs

All programs that calls can refer to, in the order in which they were put in. A call names a program
by a path with or without directory and extension. Of several programs with the name asked for,
those in a directory of the same name come first, then those that are fewest steps away, and then
the one that was put in first.
-/

namespace EztScan

/-- A program in the library. -/
structure Entry where
  program : ProgramId
  name : String
deriving Repr, DecidableEq

/-- The path of a program in the library. -/
def Entry.path (e : Entry) : String :=
  e.program.path

/-- The library of programs, with counts that are kept for all of them. -/
structure Library where
  entries : List Entry := []
  counts : Counts := []

namespace Library

/-- Puts a program in. -/
def insert (l : Library) (e : Entry) : Library :=
  { l with entries := l.entries ++ [e] }

/-- Is the library entry called by this name, case put aside? -/
def isNamed (name : String) (e : Entry) : Bool :=
  Text.upper e.name == Text.upper name

/-- The programs with a name, case put aside. -/
def named (l : Library) (name : String) : List Entry :=
  l.entries.filter (isNamed name)

/-- The last name of the directory that a path leads through, in capital letters. -/
def directoryName (path : String) : String :=
  Text.upper (Text.Path.basename (Text.Path.dirname path))

/-- The candidates that are in a directory of the same name as the one asked for, if a directory is
asked for and there are such candidates. Otherwise, all of them. -/
def inDirectory (path : String) (candidates : List Entry) : List Entry :=
  if (Text.Path.dirname path).isEmpty then candidates
  else match candidates.filter fun e => directoryName path == directoryName e.path with
    | [] => candidates
    | found => found

/-- The number of steps from a place to a program. -/
def distance (start : String) (e : Entry) : Except Fault Nat :=
  if e.path.isEmpty then .error .pathEmpty else .ok (Text.Path.distance e.path start)

/-- The candidates that are fewest steps away from a place. Without a place to start from, all of
them. -/
def closest (candidates : List Entry) (start : String) : Except Fault (List Entry) := do
  if start.isEmpty then return candidates
  let measured ← candidates.mapM fun e => return (← distance start e, e)
  match (measured.map (·.1)).min? with
  | none => return candidates
  | some least => return (measured.filter (·.1 == least)).map (·.2)

/-- Keeps the best candidates by a rule, which is asked only if there are several. -/
def narrow (rule : List Entry → Except Fault (List Entry)) (candidates : List Entry) :
    Except Fault (List Entry) :=
  if candidates.length > 1 then rule candidates else .ok candidates

/-- The program that a path stands for, seen from a place. -/
def find (l : Library) (path start : String) : Except Fault (Option Entry) := do
  let stem := (Text.Path.splitExtension (Text.Path.basename path)).1
  let near ← narrow (fun es => .ok (inDirectory path es)) (l.named stem)
  let best ← narrow (closest · start) near
  return best.head?

/-- The programs with the last name of a path, blanks around it put aside. -/
def findProgram (l : Library) (path : String) : List Entry :=
  l.entries.filter fun e =>
    Text.upper e.name == String.ofList (Text.strip (Text.Path.basename (Text.upper path)).toList)

end Library

end EztScan
