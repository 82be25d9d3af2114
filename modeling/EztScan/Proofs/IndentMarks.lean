import EztScan.Parser
import Mathlib.Order.Basic

/-!
# Indentation marks between tokens

Marks are put between tokens by two computations that can go wrong: a division by the size of an
indentation step, and a loop that goes back by such steps (`Indent.Lowers`, which has no end exactly
where `Indent.decreases` has no value). Both need a step that has a size, but the size is not known
before the first line that is indented.

What makes them safe is a property of the counter (`Indent.Steady`): as long as the size of a step
is not known, the current line begins in the first column. So another line can only begin further
right, and then the size is noted before it is used. Each token keeps the property (`Steady.step`),
whatever its kind, and it also holds between the marks before a token, where a reader may stop
asking. It therefore holds of a parser after any sources (`Parser.areSteady_after`), whether it read
them to their ends or not.
-/

namespace EztScan

open List

/-- Is the token a mark for a change of the indentation? -/
def Token.isIndentMark (t : Token) : Bool :=
  t = Indent.mark .increaseIndent || t = Indent.mark .decreaseIndent

/-- The token has a text, and a column that is counted from one. -/
structure Token.IsPlaced (t : Token) : Prop where
  text : t.text.isSome = true
  column : ∃ column, t.span.beginColumn = some column ∧ 1 ≤ column

theorem Token.IsPlaced.isIndentMark_eq {t : Token} (h : t.IsPlaced) : t.isIndentMark = false := by
  have hne : ∀ kind, t ≠ Indent.mark kind := by
    rintro kind rfl
    cases h.text
  unfold isIndentMark
  rw [decide_eq_false (hne _), decide_eq_false (hne _)]
  rfl

/-! ### Places -/

namespace Place

variable {p : Place}

theorem column_afterText (h : 1 ≤ p.column) (s : String) : 1 ≤ (p.afterText s).column := by
  unfold afterText
  generalize s.toList = cs
  induction cs generalizing p with
  | nil => exact h
  | cons c cs ih =>
    refine ih ?_
    unfold after
    split
    · exact Int.le_refl 1
    · dsimp only
      omega

/-- Placed tokens are in columns from one on, and so are the places after them. -/
theorem isPlaced_of_mem_placeAll (caseSensitive : Bool) (pairs : List (Option Kind × Option String))
    (h : 1 ≤ p.column) :
    ∀ o ∈ (p.placeAll caseSensitive pairs).1, o.1.IsPlaced ∧ 1 ≤ o.2.column := by
  induction pairs generalizing p with
  | nil => exact forall_mem_nil _
  | cons pair pairs ih =>
    obtain ⟨kind, text⟩ := pair
    cases text with
    | none => exact forall_mem_nil _
    | some text =>
      have hafter := column_afterText h text
      exact forall_mem_cons.mpr ⟨⟨⟨rfl, p.column, rfl, h⟩, hafter⟩, ih hafter⟩

/-- Of tokens that have kinds, those in front of the first one without a text are placed, and all of
these have kinds. -/
theorem placeAll_typed (p : Place) (caseSensitive : Bool) (pairs : List (Kind × Option String)) :
    (p.placeAll caseSensitive (pairs.map (Prod.map some id))).2 =
        (if pairs.all (·.2.isSome) then none else some .lengthMissing) ∧
      ∀ o ∈ (p.placeAll caseSensitive (pairs.map (Prod.map some id))).1,
        o.1.kind.isSome = true := by
  induction pairs generalizing p with
  | nil => exact ⟨rfl, forall_mem_nil _⟩
  | cons pair pairs ih =>
    obtain ⟨kind, text⟩ := pair
    cases text with
    | none => exact ⟨rfl, forall_mem_nil _⟩
    | some text =>
      obtain ⟨hfault, hkinds⟩ := ih (p.afterText text)
      exact ⟨hfault, forall_mem_cons.mpr ⟨rfl, hkinds⟩⟩

end Place

/-! ### The loop -/

namespace Indent

variable {s : Indent} {column : Int}

/-- What a loop hands on that goes back by steps as long as the current column is behind the new
one, whatever the size of a step is. -/
inductive Lowers (column : Int) : Indent → List (Token × Indent) → Prop
  | done {s : Indent} (h : ¬ column < s.column) : Lowers column s []
  | step {s : Indent} {rest : List (Token × Indent)} (h : column < s.column)
      (hrest : Lowers column { s with column := s.column - s.unit } rest) :
      Lowers column s ((mark .decreaseIndent, s) :: rest)

/-- The loop ends exactly if it has nothing to do or the steps have a size. -/
theorem isSome_decreases_iff :
    (s.decreases column).isSome = true ↔ (column < s.column → 0 < s.unit) := by
  fun_induction decreases s column with
  | case1 s hlt hunit ih =>
    exact iff_of_true (Option.isSome_map.trans (ih.mpr fun _ => hunit)) fun _ => hunit
  | case2 s hlt hunit => exact iff_of_false Bool.false_ne_true fun h => hunit (h hlt)
  | case3 s hlt => exact iff_of_true rfl fun h => absurd h hlt

/-- There is no value exactly where the loop does not end. -/
theorem decreases_eq_some_iff {marks : List (Token × Indent)} :
    s.decreases column = some marks ↔ Lowers column s marks := by
  constructor
  · intro h
    fun_induction decreases s column generalizing marks with
    | case1 s hlt hunit ih =>
      obtain ⟨rest, hrest, rfl⟩ := Option.map_eq_some_iff.mp h
      exact .step hlt (ih hrest)
    | case2 s hlt hunit => cases h
    | case3 s hlt =>
      obtain rfl := Option.some.inj h
      exact .done hlt
  · intro h
    induction h with
    | done h => rw [decreases, if_neg h]
    | @step s rest h hrest ih =>
      -- had the steps no size, then the loop would not have ended from the next column either
      have hagain := isSome_decreases_iff.mp (Option.isSome_iff_exists.mpr ⟨rest, ih⟩)
      have hunit : 0 < s.unit := by
        dsimp only at hagain
        omega
      rw [decreases, if_pos h, if_pos hunit, ih]
      rfl

/-- What the loop hands on are marks. At each of them the current column is still behind the new
one. -/
theorem Lowers.of_mem {marks : List (Token × Indent)} (h : Lowers column s marks) :
    ∀ m ∈ marks, m.1 = mark .decreaseIndent ∧ column < m.2.column ∧ m.2.unit = s.unit ∧
      column < s.column := by
  induction h with
  | done => exact forall_mem_nil _
  | step hlt _ ih =>
    refine forall_mem_cons.mpr ⟨⟨rfl, hlt, rfl, hlt⟩, fun m hm => ?_⟩
    obtain ⟨hmark, hbehind, hunit, -⟩ := ih m hm
    exact ⟨hmark, hbehind, hunit, hlt⟩

/-! ### One token -/

/-- The current line begins in a column, and in the first one as long as the size of a step is not
known. -/
structure Steady (s : Indent) : Prop where
  column : 1 ≤ s.column
  unit : 0 ≤ s.unit
  calibrated : s.unit = 0 → s.column = 1

theorem steady_initial : Steady {} :=
  ⟨Int.le_refl 1, Int.le_refl 0, fun _ => rfl⟩

/-- What comes of a token: the counter is steady at whatever is handed on and afterwards, and a
token that has a kind is handed on behind marks. -/
structure Safe (t : Token) (outcome : List (Token × Indent) × Indent × Option Fault) : Prop where
  handed : ∀ m ∈ outcome.1, m.2.Steady
  after : outcome.2.1.Steady
  typed : t.kind.isSome = true →
    outcome.2.2 = none ∧ (outcome.1.map (·.1)).filter (!·.isIndentMark) = [t]

namespace Steady

variable (h : s.Steady) {t : Token}

include h

theorem withLine (newLine : Bool) : Steady { s with newLine } :=
  ⟨h.column, h.unit, h.calibrated⟩

/-- A line that is indented further finds the size of a step known. -/
theorem calibrate (column : Int) :
    (s.calibrate column).Steady ∧ ((s.calibrate column).column < column →
      0 < (s.calibrate column).unit) := by
  have hcolumn := h.column
  have hunit := h.unit
  unfold Indent.calibrate
  split
  next hnew =>
    rw [Bool.and_eq_true, decide_eq_true_iff, decide_eq_true_iff] at hnew
    have hpos : 0 < column - 1 := by omega
    exact ⟨⟨hcolumn, Int.le_of_lt hpos, fun hzero => absurd hzero (Int.ne_of_gt hpos)⟩,
      fun _ => hpos⟩
  next hnew =>
    rw [Bool.and_eq_true, decide_eq_true_iff, decide_eq_true_iff] at hnew
    exact ⟨h, fun hlt => by omega⟩

/-- The marks for a line can be computed, and the counter is steady between them. -/
theorem marks (hcolumn : 1 ≤ column) (hunit : s.column < column → 0 < s.unit) :
    ∃ before, s.marks column = .ok before ∧ ∀ m ∈ before, m.1.isIndentMark = true ∧ m.2.Steady := by
  -- a line that is indented at all comes after the size of a step is known
  have hknown : column < s.column → 0 < s.unit := by
    intro hlt
    have hfirst := h.calibrated
    have hnonneg := h.unit
    omega
  unfold Indent.marks
  split
  next hlt =>
    unfold stepsBetween
    rw [if_neg (Int.ne_of_gt (hunit hlt))]
    refine ⟨_, rfl, fun m hm => ?_⟩
    rw [(mem_replicate.mp hm).2]
    exact ⟨rfl, h⟩
  next =>
    obtain ⟨before, hbefore⟩ := Option.isSome_iff_exists.mp (isSome_decreases_iff.mpr hknown)
    rw [hbefore]
    refine ⟨before, rfl, fun m hm => ?_⟩
    obtain ⟨hmark, hbehind, hsame, hlt⟩ := (decreases_eq_some_iff.mp hbefore).of_mem m hm
    have hpos := hknown hlt
    refine ⟨?_, ?_, ?_, ?_⟩
    · rw [hmark]
      rfl
    · omega
    · omega
    · omega

/-- A token that is handed on by itself. -/
theorem safe_alone (ht : t.IsPlaced) : Safe t ([(t, s)], s, none) := by
  refine ⟨forall_mem_singleton.mpr h, h, fun _ => ⟨rfl, ?_⟩⟩
  simp [ht.isIndentMark_eq]

theorem lineStart (ht : t.IsPlaced) : Safe t (s.lineStart t) := by
  obtain ⟨column, hbegin, hcolumn⟩ := ht.column
  obtain ⟨hs, hunit⟩ := h.calibrate column
  unfold Indent.lineStart
  rw [hbegin]
  cases hkind : t.kind with
  | none => exact ⟨forall_mem_nil _, hs, fun htyped => by rw [hkind] at htyped; cases htyped⟩
  | some =>
    dsimp only
    split
    · exact (hs.withLine false).safe_alone ht
    · obtain ⟨before, hbefore, hmarks⟩ := hs.marks hcolumn hunit
      -- a new level is a column of code, and the unit is known by then
      have hmoved : Steady { s.calibrate column with newLine := false, column } := by
        refine ⟨hcolumn, hs.unit, fun hzero => ?_⟩
        have hfirst := hs.calibrated hzero
        dsimp only at hzero ⊢
        omega
      rw [hbefore]
      refine ⟨forall_mem_append.mpr ⟨fun m hm => (hmarks m hm).2, ?_⟩, hmoved, fun _ => ⟨rfl, ?_⟩⟩
      · exact (hmoved.safe_alone ht).handed
      · have hnone : (before.map (·.1)).filter (!·.isIndentMark) = [] := by
          refine filter_eq_nil_iff.mpr fun t' ht' => ?_
          obtain ⟨m, hm, rfl⟩ := mem_map.mp ht'
          rw [(hmarks m hm).1]
          exact Bool.false_ne_true
        rw [map_append, filter_append, hnone]
        simp [ht.isIndentMark_eq]

theorem step (ht : t.IsPlaced) : Safe t (s.step t) := by
  unfold Indent.step
  split
  · dsimp only
    split
    · exact (h.withLine true).safe_alone ht
    · exact h.safe_alone ht
  · split
    · exact h.lineStart ht
    · exact h.safe_alone ht

end Steady

end Indent

/-! ### All sources -/

namespace Parser

/-- Tokens can be placed and marked with these counters. -/
def AreSteady (place : Place) (indent : Indent) : Prop :=
  1 ≤ place.column ∧ indent.Steady

/-- The counters are steady at each token and in the end. -/
structure Feed.IsSteady (feed : Feed) : Prop where
  tokens : ∀ t ∈ feed.tokens, AreSteady t.place t.indent
  last : AreSteady feed.place feed.indent

/-- Marks between placed tokens leave the counters steady. If the tokens have kinds, nothing stops
and no token is lost. -/
theorem of_markAll {placed : List (Token × Place)} {place : Place} {indent : Indent}
    {fault : Option Fault} (h : AreSteady place indent)
    (hplaced : ∀ o ∈ placed, o.1.IsPlaced ∧ 1 ≤ o.2.column) :
    (markAll place indent fault placed).IsSteady ∧ ((∀ o ∈ placed, o.1.kind.isSome = true) →
      (markAll place indent fault placed).fault = fault ∧
      ((markAll place indent fault placed).tokens.map (·.token)).filter (!·.isIndentMark) =
        placed.map (·.1)) := by
  induction placed generalizing place indent with
  | nil => exact ⟨⟨forall_mem_nil _, h⟩, fun _ => ⟨rfl, rfl⟩⟩
  | cons o placed ih =>
    obtain ⟨t, after⟩ := o
    obtain ⟨⟨ht, hafter⟩, hplaced⟩ := forall_mem_cons.mp hplaced
    have hsafe : Indent.Safe t (indent.step t) := h.2.step ht
    rw [markAll]
    generalize indent.step t = outcome at hsafe
    obtain ⟨out, indent', stopped⟩ := outcome
    -- what the step hands on has the place behind the token
    have hout : ∀ f ∈ out.map (fun o => Fed.mk o.1 after o.2), AreSteady f.place f.indent := by
      intro f hf
      obtain ⟨o, ho, rfl⟩ := mem_map.mp hf
      exact ⟨hafter, hsafe.handed o ho⟩
    cases stopped with
    | some =>
      -- only a token without a kind stops the run
      refine ⟨⟨hout, hafter, hsafe.after⟩, fun htyped => ?_⟩
      exact nomatch (hsafe.typed (forall_mem_cons.mp htyped).1).1
    | none =>
      obtain ⟨hrest, hkept⟩ := ih ⟨hafter, hsafe.after⟩ hplaced
      refine ⟨⟨forall_mem_append.mpr ⟨hout, hrest.tokens⟩, hrest.last⟩, fun htyped => ?_⟩
      obtain ⟨htyped, htypes⟩ := forall_mem_cons.mp htyped
      obtain ⟨hfault, htokens⟩ := hkept htypes
      refine ⟨hfault, ?_⟩
      have hfirst := (hsafe.typed htyped).2
      rw [map_append, filter_append, map_map, htokens, map_cons]
      exact congrArg (· ++ placed.map (·.1)) hfirst

variable {p : Parser}

theorem isSteady_feed (h : AreSteady p.place p.indent) (source : Source) :
    (p.feed source).IsSteady := by
  cases source with
  | text =>
    refine ⟨fun t ht => ?_, h⟩
    obtain ⟨_, -, rfl⟩ := mem_map.mp ht
    exact h
  | tokens pairs =>
    have hplaced := Place.isPlaced_of_mem_placeAll p.caseSensitive pairs h.1
    unfold feed
    dsimp only
    generalize p.place.placeAll p.caseSensitive pairs = placed at hplaced
    split
    · exact (of_markAll h hplaced).1
    · refine ⟨fun t ht => ?_, ?_, h.2⟩
      · obtain ⟨o, ho, rfl⟩ := mem_map.mp ht
        exact ⟨(hplaced o ho).2, h.2⟩
      · cases hlast : placed.1.getLast? with
        | none => exact h.1
        | some o => exact (hplaced o (mem_of_getLast? hlast)).2

/-- Wherever the first stage has stopped, the counters are steady there. -/
theorem areSteady_countersAfter (h : AreSteady p.place p.indent) {feed : Feed}
    (hfeed : feed.IsSteady) (first : Option StageDone) :
    AreSteady (p.countersAfter feed first).1 (p.countersAfter feed first).2 := by
  unfold countersAfter
  split
  · split
    · split
      · exact h
      next n _ =>
        cases ht : feed.tokens[n]? with
        | none => exact hfeed.last
        | some t => exact hfeed.tokens t (mem_of_getElem? ht)
    · exact hfeed.last
  · exact hfeed.last

/-- The parser after it has read some sources. -/
def after (p : Parser) (sources : List Source) : Parser :=
  sources.foldl (fun p source => (p.read source).2) p

theorem areSteady_after (h : AreSteady p.place p.indent) (sources : List Source) :
    AreSteady (p.after sources).place (p.after sources).indent ∧
      (p.after sources).indents = p.indents := by
  induction sources generalizing p with
  | nil => exact ⟨h, rfl⟩
  | cons source sources ih => exact ih (areSteady_countersAfter h (isSteady_feed h source) _)

/-- **Marks for the indentation are safe.** After any sources, tokens that have kinds get places and
marks without a division by zero and without a loop that does not end: only a token that has no text
to place stops them. What they become is what was placed, once the marks are taken out again. -/
theorem feed_indented (scopes : List Scope) (caseSensitive : Bool) (before : List Source)
    (pairs : List (Kind × Option String)) :
    let p := (Parser.new scopes caseSensitive true).after before
    let feed := p.feed (.tokens (pairs.map (Prod.map some id)))
    feed.fault = (if pairs.all (·.2.isSome) then none else some .lengthMissing) ∧
      (feed.tokens.map (·.token)).filter (!·.isIndentMark) =
        (p.place.placeAll p.caseSensitive (pairs.map (Prod.map some id))).1.map (·.1) := by
  intro p
  have hnew : AreSteady (Parser.new scopes caseSensitive true).place
      (Parser.new scopes caseSensitive true).indent :=
    ⟨Int.le_refl 1, Indent.steady_initial⟩
  obtain ⟨hsteady, hindents⟩ := areSteady_after hnew before
  obtain ⟨hfault, hkinds⟩ := p.place.placeAll_typed p.caseSensitive pairs
  have hplaced := Place.isPlaced_of_mem_placeAll p.caseSensitive
    (pairs.map (Prod.map some id)) hsteady.1
  unfold Parser.feed
  rw [show p.indents = true from hindents]
  obtain ⟨hsame, htokens⟩ := (of_markAll hsteady hplaced).2 hkinds
  exact ⟨hsame.trans hfault, htokens⟩

end Parser

end EztScan
