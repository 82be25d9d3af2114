import EztScan.Text.Case

/-!
# Small and capital forms of single characters

A change to small letters turns neither blanks nor asterisks into anything else, so that a text with
one of these never becomes a word of the language. A change to capital letters makes nothing but
capital letters of ASCII out of characters beyond it (`code_of_mem_upperChar`).
-/

namespace EztScan.Text

/-- A character that a word can hold: neither a blank nor the asterisk of a comment. -/
def isWordChar (c : Char) : Bool :=
  !isBlank c && c != '*'

/-- The code points of some ranges. -/
def codesOf (ranges : List (Nat × Nat)) : List Nat :=
  ranges.flatMap fun r => List.range' r.1 (r.2 + 1 - r.1)

theorem mem_codesOf {ranges : List (Nat × Nat)} {n : Nat} (h : inRanges ranges n = true) :
    n ∈ codesOf ranges := by
  obtain ⟨r, hr, hn⟩ := List.any_eq_true.mp h
  rw [Bool.and_eq_true, decide_eq_true_eq, decide_eq_true_eq] at hn
  refine List.mem_flatMap.mpr ⟨r, hr, List.mem_range'_1.mpr ?_⟩
  omega

/-- Is the character its own small form, and none that looks at its neighbours? -/
def isFixed (c : Char) : Bool :=
  c.toNat != 0x3A3 && lowerChar c == [c]

theorem isFixed_of_blankCodes : ∀ n ∈ codesOf blankRanges, isFixed (Char.ofNat n) = true := by
  decide +kernel

theorem isFixed_of_not_isWordChar {c : Char} (h : isWordChar c = false) : isFixed c = true := by
  unfold isWordChar at h
  cases hblank : isBlank c with
  | true =>
    have hfixed := isFixed_of_blankCodes c.toNat (mem_codesOf hblank)
    rwa [Char.ofNat_toNat] at hfixed
  | false =>
    rw [hblank] at h
    obtain rfl : c = '*' := by simpa using h
    decide +kernel

theorem mem_lowerFrom {c : Char} (hc : isFixed c = true) :
    ∀ {cs : List Char} {cased : Bool}, c ∈ cs → c ∈ lowerFrom cased cs := by
  unfold isFixed at hc
  rw [Bool.and_eq_true, bne_iff_ne, beq_iff_eq] at hc
  intro cs
  induction cs with
  | nil => exact fun h => nomatch h
  | cons d ds ih =>
    intro cased h
    unfold lowerFrom
    rcases List.mem_cons.mp h with rfl | h
    · rw [if_neg hc.1, hc.2]
      exact List.mem_append_left _ List.mem_cons_self
    · exact List.mem_append_right _ (ih h)

/-- **What cannot stand in a word is still there in small letters.** -/
theorem mem_lower {s : String} {c : Char} (hc : isWordChar c = false) (h : c ∈ s.toList) :
    c ∈ (lower s).toList := by
  unfold lower
  rw [String.toList_ofList]
  exact mem_lowerFrom (isFixed_of_not_isWordChar hc) h

/-! ### Capital forms -/

/-- A code point beyond ASCII, or the one of a capital letter, or zero, which stands for what is no
character. -/
def isCapitalCode (n : Nat) : Bool :=
  n == 0 || decide (65 ≤ n) && decide (n ≤ 90) || decide (128 ≤ n)

theorem isCapitalCode_ofNat {n : Nat} (h : isCapitalCode n = true) :
    isCapitalCode (Char.ofNat n).toNat = true := by
  by_cases hvalid : n.isValidChar
  · rw [Char.ofNat, dif_pos hvalid]
    exact h
  · rw [Char.ofNat, dif_neg hvalid]
    rfl

theorem lt_of_mem_capitalShifts : ∀ r ∈ capitalShifts, (127 : Int) < r.first + r.delta := by
  decide +kernel

theorem isCapitalCode_of_mem_capitalExpansions :
    ∀ e ∈ capitalExpansions, ∀ n ∈ e.2, isCapitalCode n = true := by
  decide +kernel

/-- The capital forms of a character beyond ASCII are beyond it as well, or capital letters. -/
theorem code_of_mem_upperChar {c d : Char} (hc : 128 ≤ c.toNat) (hd : d ∈ upperChar c) :
    isCapitalCode d.toNat = true := by
  have hbeyond {n : Nat} (h : 128 ≤ n) : isCapitalCode n = true := by simp [isCapitalCode, h]
  unfold upperChar otherCase at hd
  rw [if_neg (Nat.not_lt.mpr hc)] at hd
  split at hd
  case h_1 e he =>
    obtain ⟨n, hn, rfl⟩ := List.mem_map.mp hd
    exact isCapitalCode_ofNat (isCapitalCode_of_mem_capitalExpansions e
      (List.mem_of_find?_eq_some he) n hn)
  case h_2 =>
    split at hd
    case h_1 r hr =>
      rw [List.mem_singleton.mp hd]
      have hlt := lt_of_mem_capitalShifts r (List.mem_of_find?_eq_some hr)
      have hholds := List.find?_some hr
      simp only [CaseShift.holds, Bool.and_eq_true, decide_eq_true_eq] at hholds
      exact isCapitalCode_ofNat (hbeyond (by omega))
    case h_2 =>
      rw [List.mem_singleton.mp hd]
      exact hbeyond hc

end EztScan.Text
