/-!
# Blank characters

The blank characters of the Unicode standard, and what a text is without them: stripping them from
its ends (`stripLeft`, `stripRight`, `strip`), and the words between them (`words`). Texts are lists
of characters here, so that the operations are the list operations `dropWhile` and `span`.
-/

namespace EztScan.Text

/-- Does one of the ranges hold the code point? -/
def inRanges (ranges : List (Nat × Nat)) (n : Nat) : Bool :=
  ranges.any fun r => decide (r.1 ≤ n) && decide (n ≤ r.2)

/-- The ranges of a set of code points that is given by the lengths of its runs: how many code
points from `start` on it leaves out and how many it holds, in turn. -/
def rangesFrom (start : Nat) : List Nat → List (Nat × Nat)
  | gap :: count :: runs =>
    (start + gap, start + gap + count - 1) :: rangesFrom (start + gap + count) runs
  | _ => []

/-- The blank characters: tabulation to carriage return, the four information separators, the space,
and the blanks beyond ASCII. The zero width space and the byte order mark are none of them. -/
def blankRanges : List (Nat × Nat) := [
  (0x9, 0xD), (0x1C, 0x20), (0x85, 0x85), (0xA0, 0xA0), (0x1680, 0x1680), (0x2000, 0x200A),
  (0x2028, 0x2029), (0x202F, 0x202F), (0x205F, 0x205F), (0x3000, 0x3000)]

/-- A blank character. -/
def isBlank (c : Char) : Bool :=
  inRanges blankRanges c.toNat

/-- A text that is not empty and holds blanks only. -/
def isBlankText (s : String) : Bool :=
  !s.isEmpty && s.toList.all isBlank

/-- The text without the blanks it starts with. -/
def stripLeft (cs : List Char) : List Char :=
  cs.dropWhile isBlank

/-- The text without the blanks it ends with. -/
def stripRight (cs : List Char) : List Char :=
  (cs.reverse.dropWhile isBlank).reverse

/-- The text without the blanks at its two ends. -/
def strip (cs : List Char) : List Char :=
  stripRight (stripLeft cs)

/-- Adds a character in front of the words that follow it: a blank starts a new word, and any other
character joins the first one. -/
def pushChar (c : Char) : List (List Char) → List (List Char)
  | [] => if isBlank c then [[]] else [[c]]
  | w :: ws => if isBlank c then [] :: w :: ws else (c :: w) :: ws

/-- The maximal runs of characters that are not blank, in order. -/
def words (cs : List Char) : List (List Char) :=
  (cs.foldr pushChar []).filter fun w => !w.isEmpty

/-- The lines of a text: what stands before, between and after its line feeds. -/
def lines (cs : List Char) : List (List Char) :=
  cs.splitOn '\n'

theorem length_stripLeft_le (cs : List Char) : (stripLeft cs).length ≤ cs.length :=
  (List.dropWhile_sublist isBlank).length_le

end EztScan.Text
