import EztScan.Text.Pieces

/-!
# The one way to cut a text

`Text.cut` looks for separators by a search of its own: it keeps the longer ones apart from those of
one character, folds over them in their order, and walks along a word until a separator stops it.
Here is said without any search what the first piece of a text is (`FirstPiece`): all the blanks
that there are, or the longest separator that starts there, or all characters up to the next blank
or separator. No text has two first pieces (`FirstPiece.unique`), so that there is one way to cut
it, and `cut` goes that way (`scanned_cut`). Since `FirstPiece` only asks which texts are
separators, neither their order nor how often they are given can matter.

The loop that reads a text character by character (`split`) gives the pieces of `cut` and never
stops (`split_eq_cut`). What it has to come to depends on what it has kept aside (`Cutting.Meets`):
nothing, blanks, or a word.
-/

namespace EztScan.Text

open List

variable {cs p rest : List Char} {c : Char} {ps : List (List Char)}

/-! ### Pieces without a search -/

/-- One of the texts stands at the start of these characters. The empty text stands nowhere. -/
def StartsWithAny (texts : List String) (cs : List Char) : Prop :=
  ∃ t ∈ texts, t.toList ≠ [] ∧ t.toList <+: cs

/-- With some texts as separators, the first piece of `p ++ rest` is `p`. -/
inductive FirstPiece (texts : List String) : List Char → List Char → Prop
  /-- Blanks, and no blank behind them. -/
  | blanks {p rest : List Char} (ne : p ≠ []) (blank : ∀ c ∈ p, isBlank c = true)
      (ends : ∀ c tail, rest = c :: tail → isBlank c = false) : FirstPiece texts p rest
  /-- A separator that does not start with a blank, and no other one that starts here is longer. -/
  | separator {c : Char} {s rest : List Char} (solid : isBlank c = false)
      (mem : String.ofList (c :: s) ∈ texts)
      (longest : ∀ t ∈ texts, t.toList <+: c :: s ++ rest → t.toList.length ≤ (c :: s).length) :
      FirstPiece texts (c :: s) rest
  /-- Characters that are not blank and at which no separator starts, and behind them a blank, a
  separator or nothing. -/
  | word {p rest : List Char} (ne : p ≠ [])
      (inside : ∀ before c after, p = before ++ c :: after →
        isBlank c = false ∧ ¬ StartsWithAny texts (c :: after ++ rest))
      (ends : ∀ c tail, rest = c :: tail → isBlank c = true ∨ StartsWithAny texts (c :: tail)) :
      FirstPiece texts p rest

/-- The pieces of a text, from the left to the right. -/
inductive Scanned (texts : List String) : List Char → List (List Char) → Prop
  | nil : Scanned texts [] []
  | cons {p rest : List Char} {ps : List (List Char)} (first : FirstPiece texts p rest)
      (others : Scanned texts rest ps) :
    Scanned texts (p ++ rest) (p :: ps)

section

variable {texts texts' : List String}

theorem FirstPiece.ne_nil (h : FirstPiece texts p rest) : p ≠ [] := by
  cases h with
  | blanks ne => exact ne
  | separator => exact cons_ne_nil _ _
  | word ne => exact ne

/-- What the first piece starts with decides what it is: a word starts neither with a blank nor with
a separator. -/
theorem FirstPiece.not_extended {q rest' : List Char} (hp : FirstPiece texts p rest)
    (hq : FirstPiece texts q rest') {more : List Char} (hqp : q = p ++ c :: more)
    (hrest : rest = c :: more ++ rest') : False := by
  obtain ⟨d, s, rfl⟩ := exists_cons_of_ne_nil hp.ne_nil
  have hmem : d ∈ q := hqp ▸ mem_cons_self
  -- both pieces start where the text starts
  have hstart : q = [] ++ d :: (s ++ c :: more) := hqp
  have htext : d :: (s ++ c :: more) ++ rest' = d :: s ++ rest := by
    rw [hrest]
    simp
  cases hp with
  | blanks _ blank ends =>
    have hblank := blank d mem_cons_self
    cases hq with
    | blanks _ blank' =>
      have hc := blank' c (hqp ▸ mem_append_right _ mem_cons_self)
      exact absurd (ends c _ hrest) (by simp [hc])
    | separator solid =>
      obtain ⟨rfl, -⟩ := List.cons.inj hstart
      exact absurd hblank (by simp [solid])
    | word _ inside => exact absurd hblank (by simp [(inside _ _ _ hstart).1])
  | separator solid mem longest =>
    cases hq with
    | blanks _ blank' => exact absurd (blank' d hmem) (by simp [solid])
    | separator _ mem' =>
      -- the second one would be a separator that is longer
      have hle := longest _ mem' (by rw [String.toList_ofList, hqp, ← htext]; simp)
      rw [String.toList_ofList, hqp, length_append, length_cons (a := c)] at hle
      omega
    | word _ inside =>
      refine (inside _ _ _ hstart).2 ⟨_, mem, ?_, ?_⟩
      · simp
      · rw [String.toList_ofList, htext]
        exact prefix_append _ _
  | word _ inside ends =>
    obtain ⟨solid, hfree⟩ := inside [] d s rfl
    cases hq with
    | blanks _ blank' => exact absurd (blank' d hmem) (by simp [solid])
    | separator _ mem' =>
      refine hfree ⟨_, mem', ?_, ?_⟩
      · simp
      · rw [String.toList_ofList, hqp, ← htext]
        simp
    | word _ inside' =>
      -- the first word ends where the second one goes on
      obtain ⟨hsolid, hnone⟩ := inside' _ c more hqp
      rcases ends c _ hrest with hblank | hstarts
      · exact absurd hblank (by simp [hsolid])
      · exact hnone hstarts

/-- **A text has one first piece.** -/
theorem FirstPiece.unique {q rest' : List Char} (hp : FirstPiece texts p rest)
    (hq : FirstPiece texts q rest') (h : p ++ rest = q ++ rest') : p = q ∧ rest = rest' := by
  rcases append_eq_append_iff.mp h with ⟨more, hqp, hrest⟩ | ⟨more, hpq, hrest⟩
  · cases more with
    | nil => exact ⟨by simp [hqp], by simpa using hrest⟩
    | cons => exact (hp.not_extended hq hqp hrest).elim
  · cases more with
    | nil => exact ⟨by simp [hpq], by simpa using hrest.symm⟩
    | cons => exact (hq.not_extended hp hpq hrest).elim

/-- **There is one way to cut a text.** -/
theorem Scanned.unique {qs : List (List Char)} (hp : Scanned texts cs ps)
    (hq : Scanned texts cs qs) : ps = qs := by
  induction hp generalizing qs with
  | nil =>
    generalize hcs : ([] : List Char) = cs at hq
    cases hq with
    | nil => rfl
    | cons first => exact absurd (append_eq_nil_iff.mp hcs.symm).1 first.ne_nil
  | @cons p rest ps first _ ih =>
    generalize hcs : p ++ rest = cs at hq
    cases hq with
    | nil => exact absurd (append_eq_nil_iff.mp hcs).1 first.ne_nil
    | cons first' others' =>
      obtain ⟨rfl, rfl⟩ := first.unique first' hcs
      rw [ih others']

/-- Only which texts there are counts. -/
theorem FirstPiece.congr (h : ∀ t, t ∈ texts ↔ t ∈ texts') (hp : FirstPiece texts p rest) :
    FirstPiece texts' p rest := by
  have hstarts : ∀ cs, StartsWithAny texts cs ↔ StartsWithAny texts' cs := by
    intro cs
    unfold StartsWithAny
    simp only [h]
  cases hp with
  | blanks ne blank ends => exact .blanks ne blank ends
  | separator solid mem longest =>
    exact .separator solid ((h _).mp mem) fun t ht => longest t ((h t).mpr ht)
  | word ne inside ends =>
    refine .word ne (fun before c after hp => ?_) fun c tail hrest => ?_
    · rw [← hstarts]
      exact inside before c after hp
    · rw [← hstarts]
      exact ends c tail hrest

theorem Scanned.congr (h : ∀ t, t ∈ texts ↔ t ∈ texts') (hp : Scanned texts cs ps) :
    Scanned texts' cs ps := by
  induction hp with
  | nil => exact .nil
  | cons first _ ih => exact .cons (first.congr h) ih

theorem Scanned.flatten (h : Scanned texts cs ps) : ps.flatten = cs := by
  induction h with
  | nil => rfl
  | cons _ _ ih => rw [flatten_cons, ih]

theorem Scanned.ne_nil (h : Scanned texts cs ps) : ∀ p ∈ ps, p ≠ [] := by
  induction h with
  | nil => exact forall_mem_nil _
  | cons first _ ih => exact forall_mem_cons.mpr ⟨first.ne_nil, ih⟩

end

/-! ### The search for a separator -/

namespace Separators

variable {texts : List String}

theorem mem_long {s : List Char} :
    s ∈ (ofTexts texts).long ↔ String.ofList s ∈ texts ∧ 1 < s.length := by
  unfold ofTexts
  simp only [mem_filter, mem_map, decide_eq_true_eq]
  constructor
  · rintro ⟨⟨t, ht, rfl⟩, hlength⟩
    exact ⟨by rwa [String.ofList_toList], hlength⟩
  · rintro ⟨hs, hlength⟩
    exact ⟨⟨_, hs, String.toList_ofList⟩, hlength⟩

theorem mem_single : c ∈ (ofTexts texts).single ↔ String.ofList [c] ∈ texts := by
  unfold ofTexts
  rw [mem_filterMap]
  constructor
  · rintro ⟨t, ht, hc⟩
    split at hc
    next d hd =>
      obtain rfl := Option.some.inj hc
      rwa [← hd, String.ofList_toList]
    next => cases hc
  · intro hc
    refine ⟨_, hc, ?_⟩
    rw [String.toList_ofList]

/-- The longest of some separators is at least as long as each of them. -/
theorem exists_foldl_longer (ss : List (List Char)) (best : Option (List Char)) {t : List Char}
    (ht : best = some t ∨ t ∈ ss) : ∃ s, ss.foldl longer best = some s ∧ t.length ≤ s.length := by
  induction ss generalizing best t with
  | nil =>
    rcases ht with hbest | hmem
    · exact ⟨t, hbest, Nat.le_refl _⟩
    · cases hmem
  | cons u us ih =>
    -- the better one of two is as long as both of them
    have hbetter : ∃ b, longer best u = some b ∧ u.length ≤ b.length ∧ ∀ a, best = some a →
        a.length ≤ b.length := by
      cases best with
      | none => exact ⟨u, rfl, Nat.le_refl _, by simp⟩
      | some a =>
        unfold longer
        dsimp only
        split
        next hlt => exact ⟨u, rfl, Nat.le_refl _, fun _ h => Option.some.inj h ▸ Nat.le_of_lt hlt⟩
        next hlt =>
          exact ⟨a, rfl, Nat.le_of_not_lt hlt, fun _ h => Option.some.inj h ▸ Nat.le_refl _⟩
    obtain ⟨b, hb, hub, hab⟩ := hbetter
    have hrest := ih (longer best u) (.inl hb)
    obtain ⟨s, hs, hbs⟩ := hrest
    rcases ht with hbest | hmem
    · exact ⟨s, hs, Nat.le_trans (hab t hbest) hbs⟩
    · rcases mem_cons.mp hmem with rfl | hmem
      · exact ⟨s, hs, Nat.le_trans hub hbs⟩
      · exact ih (longer best u) (.inr hmem)

/-- What is found is a separator. -/
theorem mem_of_at? {s : List Char} (h : (ofTexts texts).at? cs = some s) :
    String.ofList s ∈ texts := by
  unfold at? at h
  split at h
  next => cases h
  next c cs =>
    split at h
    next t ht =>
      obtain rfl := Option.some.inj h
      rcases mem_of_foldl_longer _ _ ht with hnone | hmem
      · cases hnone
      · exact (mem_long.mp (mem_filter.mp hmem).1).1
    next =>
      split at h
      next hc =>
        obtain rfl := Option.some.inj h
        exact mem_single.mp (contains_iff_mem.mp hc)
      next => cases h

/-- Where a separator starts, one is found that is as long as it or longer. -/
theorem exists_at? {t : String} (ht : t ∈ texts) (hne : t.toList ≠ []) (hstart : t.toList <+: cs) :
    ∃ s, (ofTexts texts).at? cs = some s ∧ t.toList.length ≤ s.length := by
  obtain ⟨c, rest, hcs⟩ := exists_cons_of_ne_nil fun hnil => hne (prefix_nil.mp (hnil ▸ hstart))
  subst hcs
  unfold at?
  dsimp only
  by_cases hlong : 1 < t.toList.length
  · have hmem : t.toList ∈ (ofTexts texts).long.filter (·.isPrefixOf (c :: rest)) := by
      refine mem_filter.mpr ⟨mem_long.mpr ⟨by rwa [String.ofList_toList], hlong⟩, ?_⟩
      exact List.isPrefixOf_iff_prefix.mpr hstart
    obtain ⟨s, hs, hle⟩ := exists_foldl_longer _ none (.inr hmem)
    have hlongest : (ofTexts texts).longest (c :: rest) = some s := hs
    rw [hlongest]
    exact ⟨s, rfl, hle⟩
  · -- a separator of one character gives way to a longer one
    obtain ⟨d, hd⟩ : ∃ d, t.toList = [d] := by
      rw [← length_eq_one_iff]
      have := length_pos_iff.mpr hne
      omega
    rw [hd] at hstart ⊢
    obtain ⟨rfl, -⟩ := cons_prefix_cons.mp hstart
    cases hlongest : (ofTexts texts).longest (d :: rest) with
    | some s =>
      refine ⟨s, rfl, ?_⟩
      rcases mem_of_foldl_longer _ _ hlongest with hnone | hmem
      · cases hnone
      · exact Nat.le_of_lt (mem_long.mp (mem_filter.mp hmem).1).2
    | none =>
      have hsingle : d ∈ (ofTexts texts).single :=
        mem_single.mpr (by rwa [← hd, String.ofList_toList])
      refine ⟨[d], ?_, Nat.le_refl _⟩
      rw [if_pos (contains_iff_mem.mpr hsingle)]

theorem isSome_at? : ((ofTexts texts).at? cs).isSome = true ↔ StartsWithAny texts cs := by
  constructor
  · intro h
    obtain ⟨s, hs⟩ := Option.isSome_iff_exists.mp h
    obtain ⟨hpos, hstart⟩ := (ofTexts texts).isPrefix_of_at? hs
    refine ⟨_, mem_of_at? hs, ?_, ?_⟩
    · rw [String.toList_ofList]
      exact length_pos_iff.mp hpos
    · rwa [String.toList_ofList]
  · rintro ⟨t, ht, hne, hstart⟩
    obtain ⟨s, hs, -⟩ := exists_at? ht hne hstart
    rw [hs]
    rfl

end Separators

/-! ### The search for the pieces -/

section

variable {texts : List String}

open Separators

theorem spanWord_inside (cs : List Char) {before after : List Char} {c : Char}
    (h : (spanWord (ofTexts texts) cs).1 = before ++ c :: after) :
    isBlank c = false ∧ ¬ StartsWithAny texts (c :: after ++ (spanWord (ofTexts texts) cs).2) := by
  induction cs generalizing before with
  | nil => exact absurd h (by simp [spanWord])
  | cons d ds ih =>
    unfold spanWord at h ⊢
    split at h
    next => exact absurd h (by simp)
    next hd =>
      rw [if_neg hd]
      rw [Bool.or_eq_true, not_or, Bool.not_eq_true, isSome_at?] at hd
      change d :: (spanWord (ofTexts texts) ds).1 = _ at h
      cases before with
      | nil =>
        obtain ⟨rfl, rfl⟩ := List.cons.inj h
        refine ⟨hd.1, ?_⟩
        have happend := spanWord_append (ofTexts texts) ds
        change ¬ StartsWithAny texts
          (d :: ((spanWord (ofTexts texts) ds).1 ++ (spanWord (ofTexts texts) ds).2))
        rw [happend]
        exact hd.2
      | cons => exact ih (List.cons.inj h).2

theorem spanWord_ends (cs : List Char) {tail : List Char}
    (h : (spanWord (ofTexts texts) cs).2 = c :: tail) :
    isBlank c = true ∨ StartsWithAny texts (c :: tail) := by
  induction cs with
  | nil => exact absurd h (by simp [spanWord])
  | cons d ds ih =>
    unfold spanWord at h
    split at h
    next hd =>
      obtain ⟨rfl, rfl⟩ := List.cons.inj h
      rwa [Bool.or_eq_true, isSome_at?] at hd
    next => exact ih h

/-- **The text is cut the one way that there is.** -/
theorem scanned_cut (texts : List String) (cs : List Char) :
    Scanned texts cs (cut (ofTexts texts) cs) := by
  fun_induction cut (ofTexts texts) cs with
  | case1 => exact .nil
  | case2 c cs hc ih =>
    have hsplit : (c :: cs.takeWhile isBlank) ++ cs.dropWhile isBlank = c :: cs := by
      rw [cons_append, takeWhile_append_dropWhile]
    rw [← hsplit]
    refine .cons (.blanks (cons_ne_nil _ _) ?_ fun d tail hd => ?_) ih
    · exact forall_mem_cons.mpr ⟨hc, all_eq_true.mp all_takeWhile⟩
    · have hhead := head?_dropWhile_not isBlank cs
      rw [hd] at hhead
      simpa using hhead
  | case3 c cs hc s hs ih =>
    obtain ⟨hpos, rest, hrest⟩ := (ofTexts texts).isPrefix_of_at? hs
    obtain ⟨d, s, rfl⟩ := exists_cons_of_ne_nil (length_pos_iff.mp hpos)
    obtain ⟨rfl, hcs⟩ : d = c ∧ s ++ rest = cs := List.cons.inj hrest
    subst hcs
    have hdrop : (s ++ rest).drop ((d :: s).length - 1) = rest := by simp
    rw [hdrop] at ih ⊢
    refine .cons (.separator (Bool.not_eq_true _ ▸ hc) (mem_of_at? hs) fun t ht hstart => ?_) ih
    by_cases hne : t.toList = []
    · simp [hne]
    · -- what was found is as long as any separator that starts here
      obtain ⟨u, hu, hle⟩ := exists_at? ht hne hstart
      rw [cons_append, hs] at hu
      obtain rfl := Option.some.inj hu
      exact hle
  | case4 c cs hc hs ih =>
    -- the word and what follows it are what a walk along the whole text gives
    have hspan : spanWord (ofTexts texts) (c :: cs) =
        (c :: (spanWord (ofTexts texts) cs).1, (spanWord (ofTexts texts) cs).2) := by
      rw [spanWord, if_neg (by simp [hc, hs])]
    have hsplit := spanWord_append (ofTexts texts) (c :: cs)
    rw [hspan] at hsplit
    rw [← hsplit]
    refine .cons (.word (cons_ne_nil _ _) (fun before d after hword => ?_) fun d tail hrest => ?_)
      ih
    · have hinside := @spanWord_inside texts (c :: cs) before after d
      rw [hspan] at hinside
      exact hinside hword
    · exact spanWord_ends cs hrest

end

/-! ### Character by character -/

namespace Cutting

variable {seps : Separators} {s : Cutting} {cs p : List Char} {ps : List (List Char)} {c : Char}

/-- What a cut under way has to come to, with these characters left: blanks that are being read go
on to the last of them, a word goes on to the next blank or separator, and all else is cut as if
from the start. -/
inductive Meets (seps : Separators) (s : Cutting) (cs : List Char) : List (List Char) → Prop
  | nothing (hs : s.reading = false) : Meets seps s cs (s.pieces ++ cut seps cs)
  | blanks {p : List Char} (hs : s.reading = true) (hsort : s.blanks = true)
      (htext : s.text = some p) :
    Meets seps s cs (s.pieces ++ (p ++ cs.takeWhile isBlank) :: cut seps (cs.dropWhile isBlank))
  | word {p : List Char} (hs : s.reading = true) (hsort : s.blanks = false)
      (htext : s.text = some p) :
    Meets seps s cs (s.pieces ++ (p ++ (spanWord seps cs).1) :: cut seps (spanWord seps cs).2)

/-- What is being read, if anything is, ends in front of these characters. -/
def EndsAt (seps : Separators) (s : Cutting) (cs : List Char) : Prop :=
  s.reading = true → if s.blanks then cs.takeWhile isBlank = [] else (spanWord seps cs).1 = []

/-- Where a piece ends it is handed over, and the rest is cut as if from the start. -/
theorem Meets.handOver (h : Meets seps s cs ps) (hends : s.EndsAt seps cs) :
    ∃ s', s.handOver = .ok s' ∧ ps = s'.pieces ++ cut seps cs ∧ s'.reading = false := by
  unfold Cutting.handOver
  cases h with
  | nothing hs => exact ⟨s, by rw [hs]; rfl, rfl, hs⟩
  | @blanks p hs hsort htext =>
    refine ⟨{ s with pieces := s.pieces ++ [p], reading := false }, by rw [hs, htext]; rfl, ?_, rfl⟩
    have hnil := hends hs
    rw [hsort, if_pos rfl] at hnil
    have hdrop : cs.dropWhile isBlank = cs := by
      rw [← nil_append (cs.dropWhile _), ← hnil, takeWhile_append_dropWhile]
    rw [hnil, hdrop, append_nil, append_assoc, singleton_append]
  | @word p hs hsort htext =>
    refine ⟨{ s with pieces := s.pieces ++ [p], reading := false }, by rw [hs, htext]; rfl, ?_, rfl⟩
    have hnil := hends hs
    rw [hsort, if_neg Bool.false_ne_true] at hnil
    have hdrop := spanWord_append seps cs
    rw [hnil, nil_append] at hdrop
    rw [hnil, hdrop, append_nil, append_assoc, singleton_append]

/-- A separator ends both blanks and words, and what follows it is cut as if from the start. -/
theorem Meets.separator (h : Meets seps s (c :: cs) ps) (hc : isBlank c = false)
    (hp : seps.at? (c :: cs) = some p) :
    ∃ s', s.separator p = .ok s' ∧ ps = s'.pieces ++ cut seps (cs.drop (p.length - 1)) ∧
      s'.reading = false := by
  have hends : s.EndsAt seps (c :: cs) := by
    intro _
    split
    · rw [takeWhile_cons_of_neg (Bool.eq_false_iff.mp hc)]
    · rw [spanWord, hp, Option.isSome_some, Bool.or_true, if_pos rfl]
  obtain ⟨s', hs', rfl, hreading⟩ := h.handOver hends
  refine ⟨{ s' with pieces := s'.pieces ++ [p] }, by rw [Cutting.separator, hs']; rfl, ?_, hreading⟩
  rw [cut, hc, if_neg Bool.false_ne_true, hp, append_assoc, singleton_append]

/-- Any other character goes on with what is being read, or ends it and begins a piece of the other
sort. -/
theorem Meets.character (h : Meets seps s (c :: cs) ps)
    (hp : isBlank c = false → seps.at? (c :: cs) = none) :
    ∃ s', s.character (isBlank c) c = .ok s' ∧ Meets seps s' cs ps := by
  -- a new piece, as far as it goes, is the first one of what is left
  have hbegin : ∀ t : Cutting,
      Meets seps { t with reading := true, text := some [c], blanks := isBlank c } cs
        (t.pieces ++ cut seps (c :: cs)) := by
    intro t
    rw [cut]
    cases hc : isBlank c with
    | true => exact .blanks (p := [c]) rfl rfl rfl
    | false =>
      rw [hp hc]
      exact .word (p := [c]) rfl rfl rfl
  have hother (hends : s.EndsAt seps (c :: cs))
    (hsort : (s.reading && s.blanks == isBlank c) = false) :
      ∃ s', s.character (isBlank c) c = .ok s' ∧ Meets seps s' cs ps := by
    obtain ⟨s', hs', rfl, -⟩ := h.handOver hends
    refine ⟨_, ?_, hbegin s'⟩
    rw [Cutting.character, hsort, if_neg Bool.false_ne_true, hs']
    rfl
  cases h with
  | nothing hs =>
    exact hother (fun h => Bool.noConfusion (hs.symm.trans h)) (by rw [hs, Bool.false_and])
  | @blanks p hs hsort htext =>
    cases hc : isBlank c with
    | true =>
      refine ⟨{ s with text := some (p ++ [c]) }, by
        rw [Cutting.character, hs, hsort, htext]; rfl, ?_⟩
      rw [takeWhile_cons_of_pos hc, dropWhile_cons_of_pos hc, append_cons p c (cs.takeWhile _)]
      exact .blanks (s := { s with text := some (p ++ [c]) }) hs hsort rfl
    | false =>
      rw [← hc]
      refine hother (fun _ => ?_) (by rw [hs, hsort, hc]; rfl)
      rw [hsort, if_pos rfl, takeWhile_cons_of_neg (Bool.eq_false_iff.mp hc)]
  | @word p hs hsort htext =>
    cases hc : isBlank c with
    | true =>
      rw [← hc]
      refine hother (fun _ => ?_) (by rw [hs, hsort, hc]; rfl)
      rw [hsort, if_neg Bool.false_ne_true, spanWord, hc, Bool.true_or, if_pos rfl]
    | false =>
      refine ⟨{ s with text := some (p ++ [c]) }, by
        rw [Cutting.character, hs, hsort, htext]; rfl, ?_⟩
      rw [spanWord, hc, hp hc, if_neg (by simp)]
      rw [append_cons p c (spanWord seps cs).1]
      exact .word (s := { s with text := some (p ++ [c]) }) hs hsort rfl

theorem run_of_meets (h : Meets seps s cs ps) : run seps s cs = .ok ps := by
  -- a separator may take several characters, so the induction is on the length
  induction hn : cs.length using Nat.strongRecOn generalizing s cs ps with
  | ind n ih =>
    subst hn
    cases cs with
    | nil =>
      obtain ⟨s', hs', rfl, -⟩ := h.handOver fun _ => by split <;> rfl
      rw [run, hs', cut, append_nil]
      rfl
    | cons c cs =>
      have hlt (k : Nat) : (cs.drop k).length < (c :: cs).length := by
        rw [length_drop, length_cons]
        omega
      -- a character that is no separator goes to what is pending, or ends it
      have hgoOn (hp : isBlank c = false → seps.at? (c :: cs) = none) :
          (s.character (isBlank c) c >>= fun s' => run seps s' cs) = .ok ps := by
        obtain ⟨s', hs', hmeets⟩ := h.character hp
        rw [hs']
        exact ih _ (hlt 0) hmeets rfl
      rw [run]
      cases hc : isBlank c with
      | true =>
        rw [hc] at hgoOn
        exact hgoOn Bool.noConfusion
      | false =>
        rw [hc] at hgoOn
        rw [if_neg Bool.false_ne_true]
        cases hlong : seps.longest (c :: cs) with
        | some =>
          obtain ⟨s', hs', rfl, hs⟩ := h.separator hc (by rw [Separators.at?, hlong])
          dsimp only
          rw [hs']
          exact ih _ (hlt _) (.nothing hs) rfl
        | none =>
          dsimp only
          split
          next hsingle =>
            obtain ⟨s', hs', rfl, hs⟩ :=
              h.separator hc (by rw [Separators.at?, hlong, if_pos hsingle])
            rw [single, hs']
            exact ih _ (hlt 0) (.nothing hs) rfl
          next hsingle => exact hgoOn fun _ => by rw [Separators.at?, hlong, if_neg hsingle]

end Cutting

/-- **Cutting character by character never stops, and gives the same pieces.** -/
theorem split_eq_cut (seps : Separators) (cs : List Char) : split seps cs = .ok (cut seps cs) :=
  Cutting.run_of_meets (.nothing rfl)

/-! ### The one way -/

/-- **Cutting is cutting at the longest separators.** The pieces are not empty, and one after the
other they are the text. They are the only ones that come from taking, again and again from the
left, all blanks that there are, or the longest separator that starts there, or all characters up to
the next blank or separator. So the order of the separators does not matter, nor does it matter
whether one of them is given twice. -/
theorem cut_at_longest (texts : List String) (cs : List Char) :
    (∀ p ∈ cut (.ofTexts texts) cs, p ≠ []) ∧ (cut (.ofTexts texts) cs).flatten = cs ∧
      (∀ ps, Scanned texts cs ps ↔ ps = cut (.ofTexts texts) cs) ∧
      ∀ texts' : List String, (∀ t, t ∈ texts ↔ t ∈ texts') →
        cut (.ofTexts texts') cs = cut (.ofTexts texts) cs := by
  have hcut := scanned_cut texts cs
  refine ⟨hcut.ne_nil, hcut.flatten, fun ps => ⟨fun h => h.unique hcut, fun h => h ▸ hcut⟩,
    fun texts' h => ?_⟩
  exact (scanned_cut texts' cs).unique (hcut.congr h)

/-- An arrow is longer than the sign that it starts with, a separator may hold a blank, and the
empty text is none. -/
theorem cut_at_longest_arrow :
    (∀ t, t ∈ ["=>", "=", "a b", ""] ↔ t ∈ ["", "=", "a b", "=", "=>"]) ∧
      cut (.ofTexts ["", "=", "a b", "=", "=>"]) "x =>=a b".toList =
        cut (.ofTexts ["=>", "=", "a b", ""]) "x =>=a b".toList ∧
      cut (.ofTexts ["=>", "=", "a b", ""]) "x =>=a b".toList =
        [['x'], [' '], ['=', '>'], ['='], ['a', ' ', 'b']] := by
  have hsame : ∀ t, t ∈ ["=>", "=", "a b", ""] ↔ t ∈ ["", "=", "a b", "=", "=>"] := by
    intro t
    simp only [mem_cons, not_mem_nil, or_false]
    grind
  exact ⟨hsame, (cut_at_longest _ _).2.2.2 _ hsame, by decide +kernel⟩

end EztScan.Text
