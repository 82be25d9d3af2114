import EztScan.Proofs.OrderedChoice
import EztScan.Proofs.Stages

/-!
# Loops that end

Two operations go round after round until something tells them to stop: a pattern is repeated as
long as it fits, and a stage takes elements until none is left. Both are written with a number of
rounds that they may take at most. `Work.Loops` says what such a loop does without that number, and
how many rounds it takes; a loop with a measure that gets smaller in each round is over before the
number is used up (`Work.loops_of_measure`).

For a repeated pattern the measure is what the lookahead has not seen yet. Whatever a pattern does,
it never goes back behind the place where it began (`Pattern.onward_fits`), and to go on it takes at
least one more element. For a stage it is the load, which every move makes smaller.
-/

namespace EztScan

/-! ### Rounds -/

namespace Work

variable {σ α β : Type}

/-- The loop over `body`, begun with `b` in the state `s`, is over after `n` rounds and has come to
this outcome and this state. A round gives what the next one begins with, or the value of the
loop. -/
inductive Loops (body : β → Work σ (β ⊕ α)) : Nat → β → σ → Except Fault α × σ → Prop
  | value {b : β} {s t : σ} {a : α} (h : (body b).runOn s = (.ok (.inr a), t)) :
      Loops body 1 b s (.ok a, t)
  | fault {b : β} {s t : σ} {f : Fault} (h : (body b).runOn s = (.error f, t)) :
      Loops body 1 b s (.error f, t)
  | next {b c : β} {s t : σ} {n : Nat} {x : Except Fault α × σ}
      (h : (body b).runOn s = (.ok (.inl c), t))
      (hnext : Loops body n c t x) : Loops body (n + 1) b s x

/-- Work that takes at most a number of rounds, and goes on from one to the next as the loop
does. -/
def IsBounded (body : β → Work σ (β ⊕ α)) (w : Nat → β → Work σ α) : Prop :=
  ∀ n b s, (w (n + 1) b).runOn s = (body b >>= Sum.elim (w n) pure).runOn s

/-- **A loop with a measure ends**, and a number of rounds above the measure is enough for it. -/
theorem loops_of_measure {body : β → Work σ (β ⊕ α)} {w : Nat → β → Work σ α}
    (hw : IsBounded body w) {I : β → σ → Prop} {μ : β → σ → Nat}
    (hround : ∀ {b s c t}, I b s → Runs (body b) s (.inl c) t → I c t ∧ μ c t < μ b s) :
    ∀ {n : Nat} {b : β} {s : σ}, I b s → μ b s < n →
      ∃ k, k ≤ n ∧ Loops body k b s ((w n b).runOn s) := by
  intro n
  induction n with
  | zero => exact fun _ hμ => absurd hμ (Nat.not_lt_zero _)
  | succ n ih =>
    intro b s hI hμ
    rw [hw n b s, runOn_bind]
    rcases hbody : (body b).runOn s with ⟨outcome, t⟩
    cases outcome with
    | error => exact ⟨1, Nat.succ_le_succ (Nat.zero_le n), .fault hbody⟩
    | ok step =>
      cases step with
      | inr => exact ⟨1, Nat.succ_le_succ (Nat.zero_le n), .value hbody⟩
      | inl =>
        obtain ⟨hI', hlt⟩ := hround hI hbody
        obtain ⟨k, hk, hloops⟩ := ih hI' (Nat.lt_of_lt_of_le hlt (Nat.le_of_lt_succ hμ))
        exact ⟨k + 1, Nat.succ_le_succ hk, .next hbody hloops⟩

end Work

/-! ### Going on -/

namespace Lookahead

variable {α : Type}

/-- From the first to the second state an open lookahead has only gone on. -/
def Onward (s t : Lookahead α) : Prop :=
  s.Opened → ∃ n, Gone s n t

instance : Std.Refl (Onward (α := α)) := ⟨fun _ hs => ⟨0, .refl hs⟩⟩

instance : Trans (Onward (α := α)) Onward Onward where
  trans hst htu hs := by
    obtain ⟨m, hm⟩ := hst hs
    obtain ⟨n, hn⟩ := htu hm.opened
    exact ⟨m + n, hm.trans hn⟩

/-- Going back to where the lookahead was before. -/
theorem Onward.back {s t : Lookahead α} (h : Onward s t) :
    Onward s { t with index := s.index } := by
  intro hs
  obtain ⟨n, hn⟩ := h hs
  exact ⟨0, hn.back⟩

theorem onward_nextThat (p : α → Bool) (s : Lookahead α) : Onward s (s.nextThat p).2 := by
  intro hs
  obtain ⟨t, hnext, hgone⟩ := nextThat_of_spanTo (p := p) hs rfl
  rw [hnext]
  exact ⟨_, hgone⟩

/-- The next element that is looked for is behind what the lookahead has seen. -/
theorem index_lt_of_nextThat {p : α → Bool} {s t : Lookahead α} (hs : s.Opened) {x : α}
    (h : s.nextThat p = (.ok x, t)) : s.index < t.index := by
  rcases hspan : spanTo p s.ahead with ⟨read, found⟩
  obtain ⟨u, hnext, hgone⟩ := nextThat_of_spanTo hs hspan
  cases found with
  | none => cases h.symm.trans hnext
  | some found =>
    obtain ⟨y, rest⟩ := found
    obtain ⟨skipped, rfl, -, -, -⟩ := spanTo_eq_some hspan
    obtain ⟨-, rfl⟩ := Prod.mk.inj (hnext.symm.trans h)
    rw [hgone.index, List.length_append, List.length_singleton]
    omega

end Lookahead

namespace Attempt

open Lookahead Work

theorem onward_nextCode : Keeps Onward nextCode :=
  fun s => onward_nextThat Element.isCode s

/-- From wherever an attempt is begun, if the lookahead has gone on from the place `i` to there, it
has gone on from `i` in the end. -/
def IsOnward (i : Nat) {α : Type} (w : Attempt α) : Prop :=
  ∀ s t, s.index = i → Onward s t → Onward s (w.runOn t).2

theorem closed_onward : Closed fun i _ w => IsOnward i w where
  pure _ _ _ _ _ h := h
  throw _ _ _ _ _ h := h
  bind hw hf s t hs h := by
    have ht := hw s t hs h
    refine of_runOn_bind ht fun a u hu => hf a s u hs ?_
    rwa [hu] at ht
  attempt hw := hw
  nextCode _ _ t _ h := Trans.trans h (onward_nextCode t)
  backTo := by
    rintro _ s t rfl h
    exact h.back
  -- what is begun here goes back to this place at most
  place hf _ t _ h := Trans.trans h (hf t.index t t rfl (Std.Refl.refl t))
  rounds hf s t hs h := hf _ s t hs h

end Attempt

/-- **Matching only goes on.** Wherever a pattern ends, with an answer or with a fault, the
lookahead is not behind the place where the pattern began. -/
theorem Pattern.onward_fits (p : Pattern) (e : Element) : Work.Keeps Lookahead.Onward (p.fits e) :=
  fun s => Attempt.closed_onward.fits p s.index e s s rfl (Std.Refl.refl s)

/-! ### Repeated patterns -/

namespace Attempt

open Lookahead Work

/-- One round of a repetition: the place behind the last success, whether there was one, and the
element to be tried. -/
def round (step : Element → Attempt Bool) :
    Nat × Bool × Element → Attempt ((Nat × Bool × Element) ⊕ Bool)
  | (last, found, e) => do
    if ← step e then
      let here ← place
      let e ← nextCode
      return .inl (here, true, e)
    else
      backTo last
      return .inr found

theorem isBounded_whileFits (step : Element → Attempt Bool) :
    IsBounded (round step) fun n b => whileFits step n b.1 b.2.1 b.2.2 := by
  rintro n ⟨last, found, e⟩ s
  conv_lhs => unfold whileFits
  unfold round
  rw [runOn_bind, runOn_bind, runOn_bind]
  rcases (step e).runOn s with ⟨outcome, t⟩
  cases outcome with
  | error => rfl
  | ok fits =>
    cases fits with
    | false => rfl
    | true =>
      have hplace : Runs place t t.index t := rfl
      dsimp only
      rw [if_pos rfl, if_pos rfl, hplace.runOn_bind, hplace.runOn_bind, runOn_bind, runOn_bind]
      rcases nextCode.runOn t with ⟨outcome, u⟩
      cases outcome with
      | error | ok => rfl

/-- What a round goes on with is behind what the lookahead had seen before. -/
theorem opened_of_round {step : Element → Attempt Bool} (hstep : ∀ e, Keeps Onward (step e))
    {b c : Nat × Bool × Element} {s t : Lookahead Element} (hs : s.Opened)
    (h : Runs (round step b) s (.inl c) t) :
    t.Opened ∧ t.toList.length - t.index < s.toList.length - s.index := by
  obtain ⟨last, found, e⟩ := b
  unfold round at h
  obtain ⟨fits, u, hu, h⟩ := runs_bind.mp h
  obtain ⟨n, hgone⟩ := (hstep e).of_runs hu hs
  cases fits with
  | false =>
    obtain ⟨_, _, -, h⟩ := runs_bind.mp h
    cases (runs_pure.mp h).1
  | true =>
    obtain ⟨here, _, hplace, h⟩ := runs_bind.mp h
    obtain ⟨-, rfl⟩ : u.index = here ∧ u = _ :=
      Runs.unique (show Runs place u u.index u from rfl) hplace
    obtain ⟨x, hnext, -⟩ := runs_bind_pure.mp h
    obtain ⟨m, hgone'⟩ := onward_nextCode.of_runs hnext hgone.opened
    -- the pattern may fit without reading anything, but the element for the next round has to be
    -- read
    have hlt : u.index < t.index := index_lt_of_nextThat hgone.opened hnext
    have hle : t.index ≤ t.toList.length := by
      unfold toList
      rw [List.length_append]
      exact Nat.le_trans hgone'.opened.le (Nat.le_add_right _ _)
    refine ⟨hgone'.opened, ?_⟩
    rw [hgone'.toList, hgone.toList] at hle ⊢
    rw [hgone.index] at hlt
    omega

/-- **Repeating a pattern ends**: the loop takes at most one round for each element that the stream
still gives, and one more, and it is what the repeated pattern does. -/
theorem loops_repeated (p : Pattern) (e : Element) {s : Lookahead Element} (hs : s.Opened) :
    ∃ n, n ≤ s.toList.length + 1 ∧ Loops (round p.fits) n (s.index, false, e) s
      (((Pattern.repeated p).fits e).runOn s) := by
  have hrepeated : ((Pattern.repeated p).fits e).runOn s =
      (whileFits p.fits (s.toList.length + 1) s.index false e).runOn s := by
    unfold Pattern.fits
    rfl
  rw [hrepeated]
  exact loops_of_measure (isBounded_whileFits p.fits) (I := fun _ s => s.Opened)
    (μ := fun _ s => s.toList.length - s.index) (opened_of_round p.onward_fits)
    (b := (s.index, false, e)) hs (Nat.lt_succ_of_le (Nat.sub_le _ _))

end Attempt

/-! ### The work of a stage -/

namespace Stage

open Work Grouping

variable {index : Index} {regroup : Node → Work Ledger Node} {p q : Progress}

/-- One round of a stage: the next element is taken, and what comes of it is handed on. -/
def round (index : Index) (regroup : Node → Work Ledger Node) : StageWork (Unit ⊕ Unit) := do
  match (← get).bench.stream.next with
  | .error .exhausted => return .inr ()
  | .error f => throw f
  | .ok (e, s) =>
    modify fun p => { p with bench := { p.bench with stream := s } }
    let out ← onBench (step index regroup e)
    handOn out
    return .inl ()

theorem runOn_takeAll_succ (index : Index) (regroup : Node → Work Ledger Node) (fuel : Nat)
    (p : Progress) :
    (takeAll index regroup (fuel + 1)).runOn p =
      (round index regroup >>= Sum.elim (fun _ => takeAll index regroup fuel) pure).runOn p := by
  conv_lhs => unfold takeAll
  unfold round
  rw [runOn_bind, runOn_bind, runOn_bind, runOn_get]
  dsimp only
  rcases p.bench.stream.next with f | ⟨e, s⟩
  · cases f <;> rfl
  · dsimp only
    rw [runOn_bind, runOn_bind, runOn_modify]
    dsimp only
    rw [runOn_bind, runOn_bind]
    rcases (onBench (step index regroup e)).runOn
      { p with bench := { p.bench with stream := s } } with ⟨outcome, q⟩
    cases outcome with
    | error => rfl
    | ok out =>
      dsimp only
      rw [runOn_bind, runOn_bind]
      rcases (handOn out).runOn q with ⟨outcome, r⟩
      cases outcome with
      | error | ok => rfl

/-- A round that goes on has made a move, and has handed on what came of it. -/
theorem moves_of_runs_round (hlook : p.bench.stream.looking = false)
    (h : Runs (round index regroup) p (.inl ()) q) :
    ∃ e e' rest new, p.bench.stream.toList = e :: rest ∧ Rebuilt regroup e e' ∧
      q.out = new.reverse ++ p.out ∧
      q.bench.stream.looking = false ∧ ∃ k k',
        Move index regroup k p.bench.desk e' rest new q.bench.desk q.bench.stream.toList k' := by
  unfold round at h
  rw [runs_get_bind] at h
  cases hl : p.bench.stream.toList with
  | nil =>
    -- at the end of the stream there is no further round
    rw [Lookahead.next_of_toList_nil hlook hl] at h
    cases hend : p.bench.stream.ending with
    | exhausted =>
      rw [hend] at h
      cases (runs_pure.mp h).1
    | _ =>
      rw [hend] at h
      exact absurd h not_runs_throw
  | cons e =>
    obtain ⟨s, hnext, rfl, hlook₁, -⟩ := Lookahead.next_of_toList_cons hlook hl
    rw [hnext] at h
    simp only [runs_bind, runs_modify, runs_onBench] at h
    obtain ⟨_, _, rfl, new, _, ⟨b, hstep, rfl⟩, _, _, hout, h⟩ := h
    obtain rfl := runs_handOn hout
    obtain ⟨-, rfl⟩ := runs_pure.mp h
    obtain ⟨e', _, he, d, rest', _, hm, hg⟩ := step_moves hlook₁ hstep
    obtain ⟨rfl, rfl, rfl, hlook', -⟩ := hg
    exact ⟨e, e', s.toList, new, rfl, he.rebuilt, rfl, hlook', _, _, hm⟩

/-- **The work of a stage ends**: every move makes the load smaller. -/
theorem loops_takeAll (hlook : p.bench.stream.looking = false) :
    ∃ n, n ≤ 2 * p.bench.stream.toList.length + 2 ∧
      Loops (fun _ : Unit => round index regroup) n () p
      ((takeAll index regroup (2 * p.bench.stream.toList.length + 2)).runOn p) := by
  refine loops_of_measure (w := fun n _ => takeAll index regroup n)
    (fun n _ s => runOn_takeAll_succ index regroup n s)
    (I := fun _ p => p.bench.stream.looking = false)
    (μ := fun _ p => load p.bench.desk p.bench.stream.toList)
    ?_ hlook (Nat.lt_succ_of_le (load_le _ _))
  intro _ p _ q hp hround
  obtain ⟨e, e', rest, new, hl, -, -, hlook', _, _, hm⟩ := moves_of_runs_round hp hround
  exact ⟨hlook', hl ▸ hm.load_lt e⟩

end Stage

end EztScan
