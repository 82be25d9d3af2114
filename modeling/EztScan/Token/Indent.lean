import EztScan.Token.Basic

/-!
# Indentation marks

Where the indentation of a source has a meaning, marks stand for it between the tokens: one for each
step that a line is indented further than the line before, and one for each step that it is indented
less. The size of a step is taken from the first line that is indented at all. Lines that start with
a comment or a string count for neither.

`Indent.step` gives the marks and the token one by one, each with the state in which it is handed
on, so that a reader who stops between two of them finds the state there. `Indent.plainStep` is a
simpler form: it gives one mark for every change, whatever its size, and tells what it does.
-/

namespace EztScan

/-- What is known between two tokens: the column of the current line's first token, whether a line
has just ended, and the size of an indentation step (zero as long as it is not known). -/
structure Indent where
  column : Int := 1
  newLine : Bool := false
  unit : Int := 0
deriving Repr, DecidableEq

namespace Indent

/-- A mark: a token with nothing but a kind. -/
def mark (kind : Kind) : Token :=
  { text := none, kind := some kind }

/-- Does the text hold the end of a line? -/
def endsLine (t : Token) : Bool :=
  match t.text with
  | some s => s.toList.contains '\n'
  | none => false

/-- The kinds at the start of a line that do not count for its indentation: those that a comment or
a string is a special case of. -/
def isAside (kind : Kind) : Bool :=
  Kind.comment.isA kind || Kind.string.isA kind

/-- How many times `unit` fits into the distance from `low` to `high`. -/
def stepsBetween (unit low high : Int) : Except Fault Nat :=
  if unit = 0 then .error .divisionByZero else .ok (Int.fdiv (high - low) unit).toNat

/-- The marks for a line that starts at `column`, as long as the current column is behind it: one,
and then those for the current column moved back by a step. If a step does not lead back, the marks
have no end and there is no value. -/
def decreases (s : Indent) (column : Int) : Option (List (Token × Indent)) :=
  if column < s.column then
    if 0 < s.unit then
      (decreases { s with column := s.column - s.unit } column).map ((mark .decreaseIndent, s) :: ·)
    else none
  else some []
termination_by (s.column - column).toNat

/-- The marks for a line whose first token begins at `column` and counts for the indentation. -/
def marks (s : Indent) (column : Int) : Except Fault (List (Token × Indent)) :=
  if s.column < column then do
    let count ← stepsBetween s.unit s.column column
    return List.replicate count (mark .increaseIndent, s)
  else match s.decreases column with
    | some marks => .ok marks
    | none => .error .endless

/-- Notes the size of a step at the first line that is indented. -/
def calibrate (s : Indent) (column : Int) : Indent :=
  if s.column < column && s.unit = 0 then { s with unit := column - 1 } else s

/-- Hands on the first token of a line. -/
def lineStart (s : Indent) (t : Token) : List (Token × Indent) × Indent × Option Fault :=
  match t.span.beginColumn with
  | none => ([], s, some .positionMissing)
  | some column =>
    let s := s.calibrate column
    match t.kind with
    | none => ([], s, some .kindMissing)
    | some kind =>
      if isAside kind then
        let s := { s with newLine := false }
        ([(t, s)], s, none)
      else match s.marks column with
        | .error fault => ([], s, some fault)
        | .ok before =>
          let s := { s with newLine := false, column := column }
          (before ++ [(t, s)], s, none)

/-- Hands on a token, after the marks that it needs. -/
def step (s : Indent) (t : Token) : List (Token × Indent) × Indent × Option Fault :=
  if t.isBlank then
    let s := if endsLine t then { s with newLine := true } else s
    ([(t, s)], s, none)
  else if s.newLine then s.lineStart t
  else ([(t, s)], s, none)

/-- Hands on tokens, with marks where the indentation changes. -/
def run (s : Indent) : List Token → List (Token × Indent) × Indent × Option Fault
  | [] => ([], s, none)
  | t :: ts =>
    match s.step t with
    | (out, s, some fault) => (out, s, some fault)
    | (out, s, none) =>
      let (rest, s, fault) := run s ts
      (out ++ rest, s, fault)

/-! ### One mark for every change -/

/-- The mark, if any, for a move of the indentation to `column`, and what is told about it. -/
def change (s : Indent) (column : Int) : List Token × List String :=
  if s.column < column then ([mark .increaseIndent], ["increase"])
  else if column < s.column then ([mark .decreaseIndent], ["decrease"])
  else ([], [])

/-- The lines told about every token. -/
def report (s : Indent) (t : Token) : List String :=
  ["current token " ++ t.render, "previous is new line " ++ renderTruth s.newLine,
    "current_indent " ++ toString s.column]

/-- Hands on a token after the mark that it needs, with what is told about it. -/
def plainStep (s : Indent) (t : Token) : Except Fault (List Token × List String × Indent) :=
  if t.isBlank then
    let settled (s : Indent) : Indent := if endsLine t then s else { s with newLine := false }
    if t.text = some "\n" then .ok ([t], s.report t, { s with newLine := true })
    else if endsLine t || s.newLine then
      match t.span.endColumn with
      | none => .error .positionMissing
      | some last =>
        let (marks, told) := s.change (last - 1)
        .ok (marks ++ [t], s.report t ++ told, settled { s with column := last - 1 })
    else .ok ([t], s.report t, settled s)
  else if s.newLine then
    match t.span.beginColumn with
    | none => .error .positionMissing
    | some column =>
      let (marks, told) := s.change column
      .ok (marks ++ [t], s.report t ++ ("indent " ++ toString column) :: told,
        { s with newLine := false, column := column })
  else .ok ([t], s.report t, { s with newLine := false })

/-- Hands on tokens, with one mark for every change of the indentation. -/
def plainRun (s : Indent) : List Token → Except Fault (List Token × List String × Indent)
  | [] => .ok ([], [], s)
  | t :: ts => do
    let (out, told, s) ← s.plainStep t
    let (rest, more, s) ← plainRun s ts
    return (out ++ rest, told ++ more, s)

end Indent

end EztScan
