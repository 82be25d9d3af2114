import EztScan.Fault
import EztScan.Text.Blank

/-!
# Pieces of a text

A text is cut into pieces of three sorts: runs of blanks, separators, and the words between them. A
separator never starts with a blank, the longest separator that fits is taken, and one of a single
character only if no longer one fits. The pieces one after the other are the text again
(`flatten_cut`).

A text can also be cut character by character, with the piece that is being read kept aside
(`Cutting`). This is `split`; that it cuts a text like `cut` is shown with the other laws of
cutting.
-/

namespace EztScan.Text

/-- The separators of a cut: those of several characters, in their order, and those of one. -/
structure Separators where
  long : List (List Char)
  single : List Char
  one_lt_length : ∀ s ∈ long, 1 < s.length

/-- The separators among some texts. An empty text is none. -/
def Separators.ofTexts (texts : List String) : Separators where
  long := (texts.map String.toList).filter fun s => decide (1 < s.length)
  single := texts.filterMap fun s => match s.toList with
    | [c] => some c
    | _ => none
  one_lt_length := fun _ hs => of_decide_eq_true (List.mem_filter.1 hs).2

/-- The longer of two separators, the first one if they are equally long. -/
def longer (best : Option (List Char)) (s : List Char) : Option (List Char) :=
  match best with
  | none => some s
  | some b => if b.length < s.length then some s else some b

/-- The longest of the long separators that the text starts with, the first one of those. -/
def Separators.longest (seps : Separators) (cs : List Char) : Option (List Char) :=
  (seps.long.filter (·.isPrefixOf cs)).foldl longer none

/-- The separator that a text starts with. -/
def Separators.at? (seps : Separators) : List Char → Option (List Char)
  | [] => none
  | c :: cs =>
    match seps.longest (c :: cs) with
    | some s => some s
    | none => if seps.single.contains c then some [c] else none

theorem mem_of_foldl_longer (ss : List (List Char)) (best : Option (List Char)) {s : List Char}
    (h : ss.foldl longer best = some s) : best = some s ∨ s ∈ ss := by
  induction ss generalizing best with
  | nil => exact .inl h
  | cons t ts ih =>
    rcases ih (longer best t) h with hb | hm
    · cases best with
      | none => exact .inr (by simp [longer] at hb; simp [hb])
      | some b =>
        by_cases hlt : b.length < t.length
        · exact .inr (by simp [longer, hlt] at hb; simp [hb])
        · exact .inl (by simpa [longer, hlt] using hb)
    · exact .inr (List.mem_cons_of_mem _ hm)

/-- A separator is not empty, and the text starts with it. -/
theorem Separators.isPrefix_of_at? (seps : Separators) {cs s : List Char}
    (h : seps.at? cs = some s) : 0 < s.length ∧ s <+: cs := by
  unfold Separators.at? at h
  split at h
  · simp at h
  · rename_i c cs
    split at h
    · rename_i t ht
      obtain rfl : t = s := by simpa using h
      rcases mem_of_foldl_longer _ _ ht with hn | hm
      · simp at hn
      · obtain ⟨hl, hp⟩ := List.mem_filter.1 hm
        exact ⟨Nat.lt_of_succ_lt (seps.one_lt_length _ hl), List.isPrefixOf_iff_prefix.1 hp⟩
    · split at h
      · obtain rfl : [c] = s := by simpa using h
        exact ⟨Nat.one_pos, cs, rfl⟩
      · simp at h

/-- The characters before the next blank or separator, and the rest. -/
def spanWord (seps : Separators) : List Char → List Char × List Char
  | [] => ([], [])
  | c :: cs =>
    if isBlank c || (seps.at? (c :: cs)).isSome then ([], c :: cs)
    else
      let (word, rest) := spanWord seps cs
      (c :: word, rest)

theorem spanWord_append (seps : Separators) (cs : List Char) :
    (spanWord seps cs).1 ++ (spanWord seps cs).2 = cs := by
  induction cs with
  | nil => rfl
  | cons c cs ih =>
    unfold spanWord
    split
    · rfl
    · simpa using ih

theorem length_spanWord_le (seps : Separators) (cs : List Char) :
    (spanWord seps cs).2.length ≤ cs.length := by
  have h := congrArg List.length (spanWord_append seps cs)
  rw [List.length_append] at h
  omega

/-- The pieces of a text. -/
def cut (seps : Separators) : List Char → List (List Char)
  | [] => []
  | c :: cs =>
    if isBlank c then (c :: cs.takeWhile isBlank) :: cut seps (cs.dropWhile isBlank)
    else
      match seps.at? (c :: cs) with
      | some s => s :: cut seps (cs.drop (s.length - 1))
      | none => (c :: (spanWord seps cs).1) :: cut seps (spanWord seps cs).2
termination_by cs => cs.length
decreasing_by
  · exact Nat.lt_succ_of_le (List.dropWhile_sublist isBlank).length_le
  · simp only [List.length_drop, List.length_cons]
    omega
  · exact Nat.lt_succ_of_le (length_spanWord_le seps cs)

/-- Nothing is lost: the pieces one after the other are the text. -/
theorem flatten_cut (seps : Separators) (cs : List Char) : (cut seps cs).flatten = cs := by
  fun_induction cut seps cs with
  | case1 => rfl
  | case2 c cs _ ih => simp [ih, List.takeWhile_append_dropWhile]
  | case3 c cs _ s hs ih =>
    obtain ⟨hpos, rest, hrest⟩ := seps.isPrefix_of_at? hs
    have hdrop : cs.drop (s.length - 1) = rest := by
      have h := congrArg (List.drop s.length) hrest
      rw [List.drop_left] at h
      obtain ⟨k, hk⟩ : ∃ k, s.length = k + 1 := ⟨s.length - 1, by omega⟩
      rw [hk, List.drop_succ_cons] at h
      simpa [hk] using h.symm
    rw [List.flatten_cons, ih, hdrop, hrest]
  | case4 c cs _ _ ih => simp [ih, spanWord_append]

/-! ### Character by character -/

/-- A cut under way: the pieces that are complete, whether one is being read, its text, and whether
it is made of blanks. A text that has been handed over may stay behind; it is not being read any
more. -/
structure Cutting where
  pieces : List (List Char) := []
  reading : Bool := false
  text : Option (List Char) := none
  blanks : Bool := false

namespace Cutting

/-- Hands over the piece that is being read, if there is one. -/
def handOver (s : Cutting) : Except Fault Cutting :=
  if s.reading then
    match s.text with
    | some text => .ok { s with pieces := s.pieces ++ [text], reading := false }
    | none => .error .textMissing
  else .ok s

/-- Takes a separator, which is a piece of its own. -/
def separator (s : Cutting) (p : List Char) : Except Fault Cutting := do
  let s ← s.handOver
  return { s with pieces := s.pieces ++ [p] }

/-- Takes a separator of one character. What has been handed over is forgotten. -/
def single (s : Cutting) (c : Char) : Except Fault Cutting := do
  let text := if s.reading then some [] else s.text
  return { ← s.separator [c] with text, blanks := false }

/-- Takes a character of a run of blanks or of a word: it goes on with the piece that is being read
if that is of the same sort, and begins a new one otherwise. -/
def character (s : Cutting) (blank : Bool) (c : Char) : Except Fault Cutting := do
  if s.reading && s.blanks == blank then
    match s.text with
    | some text => return { s with text := some (text ++ [c]) }
    | none => throw .textMissing
  else
    let s ← s.handOver
    return { s with reading := true, text := some [c], blanks := blank }

/-- Cuts the rest of a text. -/
def run (seps : Separators) (s : Cutting) : List Char → Except Fault (List (List Char))
  | [] => return (← s.handOver).pieces
  | c :: cs => do
    if isBlank c then run seps (← s.character true c) cs
    else
      match seps.longest (c :: cs) with
      | some p => run seps (← s.separator p) (cs.drop (p.length - 1))
      | none =>
        if seps.single.contains c then run seps (← s.single c) cs
        else run seps (← s.character false c) cs
termination_by cs => cs.length
decreasing_by all_goals simp only [List.length_drop, List.length_cons]; omega

end Cutting

/-- The pieces of a text, read character by character. -/
def split (seps : Separators) (cs : List Char) : Except Fault (List (List Char)) :=
  Cutting.run seps {} cs

end EztScan.Text
