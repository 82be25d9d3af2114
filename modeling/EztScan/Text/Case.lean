import EztScan.Text.CaseTable

/-!
# Change of case

Capital and small forms of a whole text, for all scripts. A character may become several ones, and
the Greek capital sigma has two small forms: the one for the end of a word stands where a letter
comes before it and none after it, passing over characters such as apostrophes on both sides.
-/

namespace EztScan.Text

/-- The characters with these code points. -/
def ofCodes (codes : List Nat) : List Char :=
  codes.map Char.ofNat

/-- Does the run hold the code point? -/
def CaseShift.holds (r : CaseShift) (n : Nat) : Bool :=
  decide (r.first ≤ n) && decide (n ≤ r.last) && (n - r.first) % r.step == 0

/-- The other form of a character beyond ASCII, looked up in a table of single entries and one of
runs. -/
def otherCase (shifts : List CaseShift) (expansions : List (Nat × List Nat)) (c : Char) :
    List Char :=
  match expansions.find? (·.1 == c.toNat) with
  | some e => ofCodes e.2
  | none =>
    match shifts.find? (·.holds c.toNat) with
    | some r => [Char.ofNat (c.toNat + r.delta).toNat]
    | none => [c]

/-- The capital form of a character. -/
def upperChar (c : Char) : List Char :=
  if c.toNat < 128 then [c.toUpper] else otherCase capitalShifts capitalExpansions c

/-- The small form of a character, away from the end of a word. -/
def lowerChar (c : Char) : List Char :=
  if c.toNat < 128 then [c.toLower] else otherCase smallShifts smallExpansions c

/-- A character that the search for a neighbouring letter passes over. -/
def isIgnored (c : Char) : Bool :=
  if c.toNat < 128 then c == '\'' || c == '.' || c == ':' || c == '^' || c.toNat == 0x60
  else inRanges ignoredRanges c.toNat

/-- A letter with a case. -/
def isCased (c : Char) : Bool :=
  if c.toNat < 128 then c.isAlpha else inRanges casedRanges c.toNat

/-- Does a letter with a case come first, passing over ignored characters? -/
def startsCased (cs : List Char) : Bool :=
  match cs.dropWhile isIgnored with
  | [] => false
  | c :: _ => isCased c

/-- The small form of a text, where `cased` says whether a letter stands before it. -/
def lowerFrom (cased : Bool) : List Char → List Char
  | [] => []
  | c :: cs =>
    let small := if c.toNat = 0x3A3 then
        [Char.ofNat (if cased && !startsCased cs then 0x3C2 else 0x3C3)]
      else lowerChar c
    small ++ lowerFrom (if isIgnored c then cased else isCased c) cs

/-- The capital form of a text. -/
def upper (s : String) : String :=
  String.ofList (s.toList.flatMap upperChar)

/-- The small form of a text. -/
def lower (s : String) : String :=
  String.ofList (lowerFrom false s.toList)

end EztScan.Text
