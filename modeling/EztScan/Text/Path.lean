/-!
# File paths

Paths of a file system with `/` between the names, as texts: the last name of a path and the
directory it stands in, the extension of a name, and how far one path is from another. Relative
paths start at the root.
-/

namespace EztScan.Text.Path

/-- What stands after the last slash. -/
def basenameChars (cs : List Char) : List Char :=
  (cs.reverse.takeWhile (· != '/')).reverse

/-- What stands up to the last slash, that slash included. -/
def dirChars (cs : List Char) : List Char :=
  (cs.reverse.dropWhile (· != '/')).reverse

/-- The last name of a path. -/
def basename (p : String) : String :=
  String.ofList (basenameChars p.toList)

/-- The directory of a path: what stands before its last name, without the slashes at the end,
unless it is made of slashes only. -/
def dirname (p : String) : String :=
  let dir := dirChars p.toList
  if dir.all (· == '/') then String.ofList dir
  else String.ofList (dir.reverse.dropWhile (· == '/')).reverse

/-- A name cut before its last dot. Dots that the name starts with do not count, and without any
other one the second part is empty. -/
def splitName (name : List Char) : List Char × List Char :=
  let ext := (name.reverse.takeWhile (· != '.')).reverse
  let stem := name.take (name.length - ext.length - 1)
  if ext.length < name.length && stem.any (· != '.') then (stem, '.' :: ext) else (name, [])

/-- A path cut before the extension of its last name. -/
def splitExtension (p : String) : String × String :=
  let (stem, ext) := splitName (basenameChars p.toList)
  (String.ofList (dirChars p.toList ++ stem), String.ofList ext)

/-- Follows one name from a place in the file tree, given as the names that lead there. -/
def enter (place : List String) (name : String) : List String :=
  if name = "" || name = "." then place
  else if name = ".." then place.dropLast
  else place ++ [name]

/-- The names that lead from the root to a path. -/
def fromRoot (p : String) : List String :=
  ((p.toList.splitOn '/').map String.ofList).foldl enter []

/-- The number of names that two places have in common at their start. -/
def commonLength : List String → List String → Nat
  | a :: as, b :: bs => if a = b then commonLength as bs + 1 else 0
  | _, _ => 0

/-- The number of steps, up and down, from the place `start` to the path `p`. -/
def distance (p start : String) : Nat :=
  let goal := fromRoot p
  let place := fromRoot start
  let common := commonLength place goal
  (place.length - common) + (goal.length - common)

end EztScan.Text.Path
