import EztScan.Token.Basic

/-!
# Positions of tokens

Tokens that come without a place get one from the texts before them: a line feed starts a new line,
and any other character moves one column on. The counter lives on from one source to the next.
-/

namespace EztScan

/-- A line and a column, both counted from one. -/
structure Place where
  line : Int := 1
  column : Int := 1
deriving Repr, DecidableEq

namespace Place

/-- The place after a character. -/
def after (p : Place) (c : Char) : Place :=
  if c = '\n' then ⟨p.line + 1, 1⟩ else ⟨p.line, p.column + 1⟩

/-- The place after a text. -/
def afterText (p : Place) (s : String) : Place :=
  s.toList.foldl after p

/-- A token over a text that begins at a place. -/
def place (p : Place) (caseSensitive : Bool) (kind : Option Kind) (text : String) : Token where
  text := some text
  kind := kind
  caseSensitive := caseSensitive
  span :=
    let q := p.afterText text
    ⟨some p.line, some p.column, some q.line, some q.column⟩

/-- Places tokens one after the other, from `p` on. Each token comes with the place after it, and
the first one without a text stops the work. -/
def placeAll (p : Place) (caseSensitive : Bool) :
    List (Option Kind × Option String) → List (Token × Place) × Option Fault
  | [] => ([], none)
  | (kind, some text) :: rest =>
    let q := p.afterText text
    let (tokens, fault) := placeAll q caseSensitive rest
    ((p.place caseSensitive kind text, q) :: tokens, fault)
  | (_, none) :: _ => ([], some .lengthMissing)

end Place

end EztScan
