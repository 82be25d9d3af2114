import EztScan.Proofs.IndentMarks
import Mathlib.Algebra.Order.Ring.Int
import Mathlib.Data.Int.ModEq
import Mathlib.Data.List.DropRight

/-!
# Levels of indentation

Marks open and close levels of indentation. Where each line begins a whole number of steps behind
the first column, no level is lost: the marks that are still open (`Indent.net`) are the steps that
the current line of code is indented (`Indent.level`). Marks for a deeper line are counted by a
division and marks for an outer one by a loop, so one equation is kept for both, without a division:
`n` open marks, each as wide as a step, reach from the first column to the current one
(`Indent.AtLevel`). A step may be measured on any line, also on one that does not count for the
indentation; the equation then holds for `n = 0`, because the current line still begins in the first
column.

A line that starts with a comment or a string is to leave the level alone. It does so for the two
kinds themselves, but a special case of them counts like code (`Indent.leaves_level_iff`): the kinds
that `Indent.isAside` accepts are those above the two, not those below.
-/

namespace EztScan

open List

namespace Kind

variable {k l m : Kind}

theorem isA_iff : k.isA l = true ↔ l.path <+: k.path :=
  List.isPrefixOf_iff_prefix

theorem isA_trans (h : k.isA l = true) (h' : l.isA m = true) : k.isA m = true :=
  isA_iff.mpr ((isA_iff.mp h').trans (isA_iff.mp h))

theorem isA_antisymm (h : k.isA l = true) (h' : l.isA k = true) : k = l := by
  obtain ⟨path⟩ := k
  obtain ⟨path'⟩ := l
  exact congrArg Kind.mk ((isA_iff.mp h').eq_of_length_le (isA_iff.mp h).length_le)

end Kind

namespace Indent

variable {s s' : Indent} {n column : Int} {t : Token} {ts : List Token}
  {marks : List (Token × Indent)}

/-! ### Runs token by token -/

/-- What handing on a token can come to, if nothing stops it: marks, the token behind them, and the
next state. -/
inductive HandsOn (s : Indent) (t : Token) : List (Token × Indent) → Indent → Prop
  | blank (hblank : t.isBlank = true) : HandsOn s t [] { s with newLine := endsLine t || s.newLine }
  | within (hblank : t.isBlank = false) (hline : s.newLine = false) : HandsOn s t [] s
  | aside {column : Int} {kind : Kind} (hblank : t.isBlank = false) (hline : s.newLine = true)
      (hbegin : t.span.beginColumn = some column) (hkind : t.kind = some kind)
      (haside : isAside kind = true) :
      HandsOn s t [] { s.calibrate column with newLine := false }
  | code {column : Int} {kind : Kind} {marks : List (Token × Indent)} (hblank : t.isBlank = false)
      (hline : s.newLine = true)
      (hbegin : t.span.beginColumn = some column) (hkind : t.kind = some kind)
      (haside : isAside kind = false)
      (hmarks : (s.calibrate column).marks column = .ok marks) :
      HandsOn s t marks { s.calibrate column with newLine := false, column }

theorem exists_handsOn (h : (s.step t).2.2 = none) :
    ∃ marks, HandsOn s t marks (s.step t).2.1 ∧ (s.step t).1 = marks ++ [(t, (s.step t).2.1)] := by
  revert h
  unfold step lineStart
  cases hblank : t.isBlank with
  | true =>
    have hblanks : HandsOn s t [] _ := .blank hblank
    revert hblanks
    cases endsLine t with
    | true | false => exact fun hblanks _ => ⟨[], hblanks, rfl⟩
  | false =>
    cases hline : s.newLine with
    | false => exact fun _ => ⟨[], .within hblank hline, rfl⟩
    | true =>
      cases hbegin : t.span.beginColumn with
      | none => exact fun h => by cases h
      | some column =>
        cases hkind : t.kind with
        | none => exact fun h => by cases h
        | some kind =>
          dsimp only
          cases haside : isAside kind with
          | true => exact fun _ => ⟨[], .aside hblank hline hbegin hkind haside, rfl⟩
          | false =>
            cases hmarks : (s.calibrate column).marks column with
            | error => exact fun h => by cases h
            | ok marks => exact fun _ => ⟨marks, .code hblank hline hbegin hkind haside hmarks, rfl⟩

/-- The state after some tokens. -/
def after (s : Indent) (ts : List Token) : Indent :=
  (s.run ts).2.1

theorem run_cons (h : (s.step t).2.2 = none) (ts : List Token) :
    s.run (t :: ts) = ((s.step t).1 ++ ((s.step t).2.1.run ts).1, ((s.step t).2.1.run ts).2) := by
  rw [run]
  generalize s.step t = outcome at h
  obtain ⟨out, s', fault⟩ := outcome
  obtain rfl : fault = none := h
  rfl

theorem run_cons_of_fault {fault : Fault} (h : (s.step t).2.2 = some fault) (ts : List Token) :
    s.run (t :: ts) = s.step t := by
  rw [run]
  generalize s.step t = outcome at h
  obtain ⟨out, s', fault'⟩ := outcome
  obtain rfl : fault' = some fault := h
  rfl

/-- One more token is handed on from the state that the tokens before it have left. -/
theorem run_concat (h : (s.run ts).2.2 = none) (t : Token) :
    s.run (ts ++ [t]) = ((s.run ts).1 ++ ((s.after ts).step t).1, ((s.after ts).step t).2) := by
  induction ts generalizing s with
  | nil =>
    change s.run [t] = s.step t
    cases hstep : (s.step t).2.2 with
    | none =>
      rw [run_cons hstep, run]
      exact Prod.ext (append_nil _) (Prod.ext rfl hstep.symm)
    | some => exact run_cons_of_fault hstep []
  | cons u ts ih =>
    cases hstep : (s.step u).2.2 with
    | none =>
      have hafter : s.after (u :: ts) = (s.step u).2.1.after ts := by
        unfold after
        rw [run_cons hstep]
      rw [run_cons hstep] at h
      rw [cons_append, run_cons hstep, run_cons hstep, ih h, hafter, append_assoc]
    | some =>
      rw [run_cons_of_fault hstep, hstep] at h
      cases h

theorem fault_of_append {us : List Token} (h : (s.run (ts ++ us)).2.2 = none) :
    (s.run ts).2.2 = none := by
  induction ts generalizing s with
  | nil => rfl
  | cons t ts ih =>
    rw [cons_append] at h
    cases hstep : (s.step t).2.2 with
    | none =>
      rw [run_cons hstep] at h ⊢
      exact ih h
    | some =>
      rw [run_cons_of_fault hstep, hstep] at h
      cases h

/-- Has a line ended since the last of these tokens that is not blank? If all of them are blank, it
also counts that one had ended before them. -/
def lineBegun (before : Bool) (seen : List Token) : Bool :=
  (seen.rtakeWhile Token.isBlank).any endsLine || (before && seen.all Token.isBlank)

theorem HandsOn.newLine_eq (h : HandsOn s t marks s') :
    s'.newLine = (t.isBlank && (endsLine t || s.newLine)) := by
  cases h with
  | blank hblank => rw [hblank, Bool.true_and]
  | within hblank hline => rw [hblank, hline, Bool.false_and]
  | aside hblank | code hblank => rw [hblank, Bool.false_and]

/-- The state tells whether the next token that is not blank is the first one of a line. -/
theorem newLine_after (h : (s.run ts).2.2 = none) :
    (s.after ts).newLine = lineBegun s.newLine ts := by
  induction ts using List.reverseRecOn with
  | nil => simp [after, run, lineBegun]
  | append_singleton ts t ih =>
    have hts := fault_of_append h
    have hrun := run_concat hts t
    rw [hrun] at h
    obtain ⟨marks, hstep, -⟩ := exists_handsOn h
    have hnext : s.after (ts ++ [t]) = ((s.after ts).step t).2.1 := congrArg (·.2.1) hrun
    rw [hnext, hstep.newLine_eq, ih hts]
    unfold lineBegun
    cases hblank : t.isBlank with
    | true => simp [hblank, Bool.or_assoc, Bool.or_comm]
    | false => simp [hblank]

/-! ### Levels -/

/-- How many more of the tokens are marks that open a level than marks that close one. -/
def net (ts : List Token) : Int :=
  (ts.countP (· = mark .increaseIndent) : Int) - ts.countP (· = mark .decreaseIndent)

/-- How many steps the current line of code is indented. Before the size of a step is known, no line
of code is. -/
def level (s : Indent) : Int :=
  if s.unit = 0 then 0 else (s.column - 1) / s.unit

@[simp] theorem net_nil : net [] = 0 := rfl

@[simp] theorem net_append (ts us : List Token) : net (ts ++ us) = net ts + net us := by
  unfold net
  rw [countP_append, countP_append]
  omega

theorem net_replicate (count : Nat) :
    net (List.replicate count (mark .increaseIndent)) = count := by
  unfold net
  rw [countP_replicate, countP_replicate, if_pos (by decide), if_neg (by decide)]
  omega

theorem net_singleton (h : t.isIndentMark = false) : net [t] = 0 := by
  unfold Token.isIndentMark at h
  obtain ⟨hup, hdown⟩ := Bool.or_eq_false_iff.mp h
  unfold net
  rw [countP_singleton, countP_singleton, hup, hdown]
  rfl

/-- The loop closes one level for each step from the new column to the current one, if these lie a
whole number of steps apart. -/
theorem Lowers.net_mul (h : Lowers column s marks) (hunit : 0 < s.unit)
    (hdvd : s.unit ∣ s.column - column) (hle : column ≤ s.column) :
    net (marks.map (·.1)) * s.unit = column - s.column := by
  induction h with
  | done =>
    rw [map_nil, net_nil]
    omega
  | @step s rest hlt hrest ih =>
    -- a whole step is left, so the loop does not go past the new column
    have hstep : s.unit ≤ s.column - column := Int.le_of_dvd (by omega) hdvd
    have hnext : s.column - s.unit - column = s.column - column - s.unit := by omega
    have hrest := ih hunit (hnext ▸ Int.dvd_sub hdvd (Int.dvd_refl _)) (by dsimp only; omega)
    dsimp only at hrest
    have hmark : net [mark .decreaseIndent] = -1 := by decide
    rw [map_cons, ← singleton_append, net_append, hmark, Int.add_mul, hrest]
    omega

/-- Marks for a line reach from the current column to the new one. -/
theorem net_mul_of_marks (h : s.marks column = .ok marks) (hunit : 0 < s.unit)
    (hdvd : s.unit ∣ s.column - column) : net (marks.map (·.1)) * s.unit = column - s.column := by
  unfold Indent.marks at h
  by_cases hlt : s.column < column
  · rw [if_pos hlt] at h
    unfold stepsBetween at h
    rw [if_neg (Int.ne_of_gt hunit)] at h
    obtain rfl := Except.ok.inj h
    obtain ⟨count, hcount⟩ := hdvd
    have hforward : column - s.column = s.unit * -count := by
      rw [Int.mul_neg, ← hcount]
      omega
    have hpos : 0 < -count := pos_of_mul_pos_right (by omega) hunit.le
    rw [map_replicate, net_replicate, hforward, Int.mul_fdiv_cancel_left _ (Int.ne_of_gt hunit),
      Int.toNat_of_nonneg hpos.le, Int.mul_comm]
  · rw [if_neg hlt] at h
    cases hloop : s.decreases column with
    | none => rw [hloop] at h; cases h
    | some =>
      rw [hloop] at h
      obtain rfl := Except.ok.inj h
      exact (decreases_eq_some_iff.mp hloop).net_mul hunit hdvd (Int.not_lt.mp hlt)

theorem marks_self (s : Indent) : s.marks s.column = .ok [] := by
  unfold Indent.marks
  rw [if_neg (Int.lt_irrefl _), decreases, if_neg (Int.lt_irrefl _)]

@[simp] theorem column_calibrate (s : Indent) (column : Int) :
    (s.calibrate column).column = s.column := by
  unfold calibrate
  split
  · rfl
  · rfl

/-- The size of a step is noted once. -/
theorem unit_calibrate (s : Indent) (column : Int) :
    s.calibrate column = s ∨ s.unit = 0 ∧ (s.calibrate column).unit = column - 1 := by
  unfold calibrate
  split
  next hnew => exact .inr ⟨of_decide_eq_true (Bool.and_eq_true_iff.mp hnew).2, rfl⟩
  next => exact .inl rfl

/-- `n` steps lead from the first column to the current one, and none as long as the size of a step
is not known. -/
structure AtLevel (s : Indent) (n : Int) : Prop where
  steady : s.Steady
  column : n * s.unit = s.column - 1
  unknown : s.unit = 0 → n = 0

namespace AtLevel

variable (h : s.AtLevel n)

include h

theorem level_eq : s.level = n := by
  unfold level
  split
  next hunit => exact (h.unknown hunit).symm
  next hunit => rw [← h.column, Int.mul_ediv_cancel _ hunit]

theorem nonneg : 0 ≤ n := by
  by_contra hneg
  have hunit : 0 < s.unit := lt_of_le_of_ne h.steady.unit fun hzero =>
    hneg (h.unknown hzero.symm).ge
  have hcolumn := h.column
  have hfirst := h.steady.column
  have hlt : n * s.unit < 0 := Int.mul_neg_of_neg_of_pos (Int.not_le.mp hneg) hunit
  omega

theorem eq_zero (hcolumn : s.column = 1) : n = 0 := by
  have hzero : n * s.unit = 0 := by rw [h.column, hcolumn, Int.sub_self]
  rcases Int.mul_eq_zero.mp hzero with hn | hunit
  · exact hn
  · exact h.unknown hunit

theorem withLine (newLine : Bool) : AtLevel { s with newLine } n :=
  ⟨h.steady.withLine newLine, h.column, h.unknown⟩

/-- The size of a step is measured while the current line begins in the first column. -/
theorem calibrate (column : Int) : (s.calibrate column).AtLevel n := by
  have hsteady := (h.steady.calibrate column).1
  rcases unit_calibrate s column with heq | ⟨hunit, -⟩
  · rw [heq]
    exact h
  · have hn := h.unknown hunit
    refine ⟨hsteady, ?_, fun _ => hn⟩
    rw [hn, column_calibrate, h.steady.calibrated hunit, Int.zero_mul, Int.sub_self]

/-- A line of code that begins a whole number of steps behind the first column is as deep as its
marks say. -/
theorem move (hcolumn : 1 ≤ column) (hunit : s.column < column → 0 < s.unit)
    (hmarks : s.marks column = .ok marks) (hregular : s.unit ≠ 0 → s.unit ∣ column - 1) :
    (n + net (marks.map (·.1))) * s.unit = column - 1 ∧
      (s.unit = 0 → n + net (marks.map (·.1)) = 0) := by
  by_cases hzero : s.unit = 0
  · -- nothing has been indented yet, and this line is not either
    have hfirst := h.steady.calibrated hzero
    obtain rfl : column = s.column := by omega
    rw [marks_self] at hmarks
    obtain rfl := Except.ok.inj hmarks
    rw [map_nil, net_nil, Int.add_zero]
    exact ⟨h.column, h.unknown⟩
  · have hpos : 0 < s.unit := lt_of_le_of_ne h.steady.unit (Ne.symm hzero)
    have hdvd : s.unit ∣ s.column - column := by
      have hdiff : s.column - column = s.column - 1 - (column - 1) := by omega
      rw [hdiff, ← h.column]
      exact Int.dvd_sub (Int.dvd_mul_left n s.unit) (hregular hzero)
    refine ⟨?_, fun hunknown => absurd hunknown hzero⟩
    rw [Int.add_mul, h.column, net_mul_of_marks hmarks hpos hdvd]
    omega

/-- Each token leaves as many levels open as the line of code that it stands in is indented. -/
theorem handsOn (hs' : s'.Steady) (hstep : HandsOn s t marks s')
    (hregular : s.newLine = true → t.isBlank = false → s.unit ≠ 0 → ∀ column ∈ t.span.beginColumn,
      s.unit ∣ column - 1) :
    s'.AtLevel (n + net (marks.map (·.1))) := by
  cases hstep with
  | blank => simpa using h.withLine _
  | within => simpa using h
  | @aside column =>
    simpa using (h.calibrate column).withLine false
  | @code column kind marks hblank hline hbegin hkind haside hmarks =>
    have hknown := (h.steady.calibrate column).2
    have hdvd : (s.calibrate column).unit ≠ 0 → (s.calibrate column).unit ∣ column - 1 := by
      intro hunit
      rcases unit_calibrate s column with heq | ⟨-, hnew⟩
      · rw [heq] at hunit ⊢
        exact hregular hline hblank hunit column hbegin
      · rw [hnew]
    obtain ⟨hcolumn, hunknown⟩ := (h.calibrate column).move hs'.column hknown hmarks hdvd
    exact ⟨hs', hcolumn, hunknown⟩

end AtLevel

theorem atLevel_initial : AtLevel {} 0 :=
  ⟨steady_initial, rfl, fun _ => rfl⟩

/-! ### Regular sources -/

/-- Once the size of a step is known, the first token of each line begins a whole number of steps
behind the first column. -/
def IsRegular (ts : List Token) : Prop :=
  ∀ i < ts.length, ∀ t ∈ ts[i]?, lineBegun false (ts.take i) = true → t.isBlank = false →
    (after {} (ts.take i)).unit ≠ 0 → ∀ column ∈ t.span.beginColumn,
      column ≡ 1 [ZMOD (after {} (ts.take i)).unit]

instance (ts : List Token) : Decidable (IsRegular ts) := by
  unfold IsRegular
  infer_instance

/-- After any part of a regular source, as many levels are open as the current line of code is
indented. -/
theorem atLevel_after (hplaced : ∀ t ∈ ts, t.IsPlaced ∧ t.kind.isSome = true) (h : IsRegular ts)
    {i : Nat} (hi : i ≤ ts.length) :
    (run {} (ts.take i)).2.2 = none ∧
      (after {} (ts.take i)).AtLevel (net ((run {} (ts.take i)).1.map (·.1))) := by
  induction i with
  | zero => exact ⟨rfl, atLevel_initial⟩
  | succ i ih =>
    obtain ⟨hfault, hlevel⟩ := ih (by omega)
    have hget : ts[i]? = some ts[i] := getElem?_eq_getElem hi
    obtain ⟨ht, hkind⟩ := hplaced _ (getElem_mem hi)
    have hsafe := hlevel.steady.step ht
    have hnone := (hsafe.typed hkind).1
    obtain ⟨marks, hstep, hout⟩ := exists_handsOn hnone
    have hnext := hlevel.handsOn hsafe.after hstep fun hline hblank hunit column hcolumn =>
      (h i hi _ hget (newLine_after hfault ▸ hline) hblank hunit column hcolumn).symm.dvd
    have htake : ts.take (i + 1) = ts.take i ++ [ts[i]] := by
      rw [take_add_one, hget]
      rfl
    have hsum : net (((run {} (ts.take i)).1 ++ (step (after {} (ts.take i)) ts[i]).1).map (·.1)) =
        net ((run {} (ts.take i)).1.map (·.1)) + net (marks.map (·.1)) := by
      rw [hout, map_append, map_append, net_append, net_append, map_singleton,
        net_singleton ht.isIndentMark_eq, Int.add_zero]
    unfold after
    rw [htake, run_concat hfault, hsum]
    exact ⟨hnone, hnext⟩

/-- **Levels are balanced.** On a source of tokens that have kinds, with regular indentation, the
marks given so far have opened as many levels as the current line of code is indented, whenever a
token of the source has been handed on. So never are more levels closed than opened, and all are
closed again where the code is back in the first column. -/
theorem net_eq_level (caseSensitive : Bool) (pairs : List (Kind × Option String)) :
    let placed := (({} : Place).placeAll caseSensitive (pairs.map (Prod.map some id))).1.map (·.1)
    IsRegular placed → ∀ i ≤ placed.length,
      let outcome := run {} (placed.take i)
      let open_ := net (outcome.1.map (·.1))
      outcome.2.2 = none ∧ open_ = outcome.2.1.level ∧ 0 ≤ open_ ∧
        (outcome.2.1.column = 1 → open_ = 0) := by
  intro placed hregular i hi
  have hplaced : ∀ t ∈ placed, t.IsPlaced ∧ t.kind.isSome = true := by
    intro t ht
    obtain ⟨o, ho, rfl⟩ := mem_map.mp ht
    exact ⟨(Place.isPlaced_of_mem_placeAll caseSensitive _ (Int.le_refl 1) o ho).1,
      (Place.placeAll_typed {} caseSensitive pairs).2 o ho⟩
  obtain ⟨hfault, hlevel⟩ := atLevel_after hplaced hregular hi
  exact ⟨hfault, hlevel.level_eq.symm, hlevel.nonneg, hlevel.eq_zero⟩

/-- A source whose lines go two levels deeper at once, past a comment, and then back to the first
column. -/
def terracedPairs : List (Kind × Option String) :=
  [(.generic, some "A"), (.whitespace, some "\n  "), (.comment, some "*"),
    (.whitespace, some "\n    "), (.generic, some "B"),
    (.whitespace, some "\n"), (.generic, some "C")]

theorem net_eq_level_terraced :
    let placed := (({} : Place).placeAll false (terracedPairs.map (Prod.map some id))).1.map (·.1)
    IsRegular placed ∧ net ((run {} (placed.take 5)).1.map (·.1)) = 2 ∧
      net ((run {} (placed.take 5)).1.map (·.1)) = (after {} (placed.take 5)).level := by
  intro placed
  have hregular : IsRegular placed := by decide +kernel
  exact ⟨hregular, by decide +kernel, (net_eq_level false terracedPairs hregular 5 (by decide)).2.1⟩

/-! ### Lines that start with a comment or a string -/

theorem isAside_iff {k : Kind} (hk : k.isA .comment = true ∨ k.isA .string = true) :
    isAside k = true ↔ k = .comment ∨ k = .string := by
  unfold isAside
  rw [Bool.or_eq_true]
  constructor
  · -- a kind between the two would make one of them a special case of the other
    rintro (habove | habove)
    · rcases hk with hk | hk
      · exact .inl (Kind.isA_antisymm hk habove)
      · cases show Kind.comment.isA .string = true from Kind.isA_trans habove hk
    · rcases hk with hk | hk
      · cases show Kind.string.isA .comment = true from Kind.isA_trans habove hk
      · exact .inr (Kind.isA_antisymm hk habove)
  · rintro (rfl | rfl)
    · exact .inl (Kind.isA_self _)
    · exact .inr (Kind.isA_self _)

/-- Of the first tokens of lines, those at the current column and those whose kind is left aside
change nothing. -/
theorem HandsOn.quiet_iff {k : Kind} (h : HandsOn s t marks s') (hline : s.newLine = true)
    (hblank : t.isBlank = false) (hkind : t.kind = some k) :
    (marks = [] ∧ s'.column = s.column ↔ isAside k = true ∨ t.span.beginColumn = some s.column) ∧
      (isAside k = false → t.span.beginColumn = some s'.column) := by
  cases h with
  | blank hblank' => rw [hblank] at hblank'; cases hblank'
  | within _ hline' => rw [hline] at hline'; cases hline'
  | aside _ _ hbegin hkind' haside =>
    obtain rfl := Option.some.inj (hkind.symm.trans hkind')
    refine ⟨iff_of_true ⟨rfl, column_calibrate s _⟩ (.inl haside), fun hcode => ?_⟩
    rw [haside] at hcode
    cases hcode
  | @code column _ _ _ _ hbegin hkind' haside hmarks =>
    obtain rfl := Option.some.inj (hkind.symm.trans hkind')
    refine ⟨⟨fun hquiet => .inr (hquiet.2 ▸ hbegin), ?_⟩, fun _ => hbegin⟩
    rintro (haside' | hsame)
    · rw [haside] at haside'
      cases haside'
    · obtain rfl := Option.some.inj (hbegin.symm.trans hsame)
      have hself := marks_self (s.calibrate s.column)
      rw [column_calibrate, hmarks] at hself
      exact ⟨Except.ok.inj hself, rfl⟩

theorem Steady.after (h : s.Steady) (hts : ∀ t ∈ ts, t.IsPlaced) : (s.after ts).Steady := by
  induction ts generalizing s with
  | nil => exact h
  | cons t ts ih =>
    obtain ⟨ht, hts⟩ := forall_mem_cons.mp hts
    have hsafe := h.step ht
    unfold Indent.after
    cases hstep : (s.step t).2.2 with
    | none =>
      rw [run_cons hstep]
      exact ih hsafe.after hts
    | some =>
      rw [run_cons_of_fault hstep]
      exact hsafe.after

/-- **Which comments and strings leave the indentation alone.** If the first token of a line is a
comment or a string, no mark is given for it and the current column stays, exactly if it is of one
of these two kinds itself or begins at the current column. If its kind is a closer one, then the
line counts as a line of code. -/
theorem leaves_level_iff (scopes : List Scope) (caseSensitive : Bool) (before : List Source)
    (pairs : List (Option Kind × Option String)) (seen : List Token) (t : Token) (rest : List Token)
    (k : Kind) : let p := (Parser.new scopes caseSensitive true).after before
    let earlier := p.indent.run seen
    let now := p.indent.run (seen ++ [t])
    (p.place.placeAll p.caseSensitive pairs).1.map (·.1) = seen ++ t :: rest → earlier.2.2 = none →
      lineBegun p.indent.newLine seen = true → t.isBlank = false → t.kind = some k →
      (k.isA .comment = true ∨ k.isA .string = true) →
      ((now.1.map (·.1) = earlier.1.map (·.1) ++ [t] ∧ now.2.1.column = earlier.2.1.column) ↔
        k = .comment ∨ k = .string ∨ t.span.beginColumn = some earlier.2.1.column) ∧
      (k ≠ .comment → k ≠ .string → t.span.beginColumn = some now.2.1.column) := by
  intro p earlier now hplaced hfault hline hblank hkind hk
  obtain ⟨⟨hcolumn, hindent⟩, -⟩ := Parser.areSteady_after (p := .new scopes caseSensitive true)
    ⟨Int.le_refl 1, steady_initial⟩ before
  -- the tokens come from a parser, so that they have places
  have hall : ∀ u ∈ seen ++ t :: rest, u.IsPlaced := by
    rw [← hplaced]
    intro u hu
    obtain ⟨o, ho, rfl⟩ := mem_map.mp hu
    exact (Place.isPlaced_of_mem_placeAll _ pairs hcolumn o ho).1
  have hs := hindent.after fun u hu => hall u (mem_append_left _ hu)
  have hnone := ((hs.step (hall t (by simp))).typed (by rw [hkind]; rfl)).1
  obtain ⟨marks, hstep, hout⟩ := exists_handsOn hnone
  obtain ⟨hquiet, hcode⟩ := hstep.quiet_iff ((newLine_after hfault).trans hline) hblank hkind
  have hnow : now = _ := run_concat hfault t
  -- nothing is handed on but the token exactly if there are no marks
  have hmarks : now.1.map (·.1) = earlier.1.map (·.1) ++ [t] ↔ marks = [] := by
    rw [hnow, hout]
    simp [earlier]
  rw [isAside_iff hk, or_assoc] at hquiet
  rw [hmarks, hnow]
  refine ⟨hquiet, fun hcomment hstring => hcode ?_⟩
  rw [← Bool.not_eq_true, isAside_iff hk]
  exact fun h => h.elim hcomment hstring

/-- A line that starts two columns further in, with a special kind of comment. -/
def closerCommentPairs : List (Option Kind × Option String) :=
  [(some .generic, some "A"), (some .whitespace, some "\n  "),
    (some ⟨["Comment", "Single"]⟩, some "*")]

theorem leaves_level_iff_closer_comment :
    let placed := (({} : Place).placeAll false closerCommentPairs).1.map (·.1)
    lineBegun false (placed.take 2) = true ∧
      ∀ t ∈ placed.drop 2, t.isComment = true ∧
        t.span.beginColumn = some (after {} placed).column := by
  intro placed
  have hline : lineBegun false (placed.take 2) = true := by decide +kernel
  refine ⟨hline, forall_mem_singleton.mpr ⟨by decide +kernel, ?_⟩⟩
  exact (leaves_level_iff [] false [] closerCommentPairs (placed.take 2) _
    [] _ rfl (by decide +kernel) hline
    (by decide +kernel) rfl (.inl rfl)).2 (by decide) (by decide)

/-- A mark is given for it, and the current column moves. -/
theorem mark_before_closer_comment :
    let placed := (({} : Place).placeAll false closerCommentPairs).1.map (·.1)
    (run {} placed).1.map (·.1) = placed.take 2 ++ mark .increaseIndent :: placed.drop 2 ∧
      (after {} (placed.take 2)).column = 1 ∧ (after {} placed).column = 3 := by
  decide +kernel

end Indent

end EztScan
