import EztScan.Pattern.Match
import EztScan.Proofs.Runs

/-!
# Matching leaves the stream whole

A pattern reads ahead as far as it likes, goes back and forth, and may stop with a fault in the
middle. What holds of the few operations that it is made of, and carries over to what is made of
them, holds of the whole match (`Attempt.Closed`). All of it happens inside a lookahead, so the
elements that the stream gives stay the same ones, in the same order (`Pattern.keeps_fits`). An
attempt as a whole (`Pattern.tryOn_runs`) therefore has one of three effects: it takes the element
and the next ones off the stream, it puts the element back, or it leaves the stream as it was.
`Pattern.Takes` and `Pattern.Refuses` say so of an element and the elements that come after it,
without the stream.
-/

namespace EztScan

namespace Lookahead

variable {α : Type}

/-- The stream with a lookahead open that has seen nothing yet. -/
abbrev begun (s : Lookahead α) : Lookahead α :=
  { s with looking := true, index := 0 }

theorem start_of_closed {s : Lookahead α} (hs : s.looking = false) : s.start = .ok s.begun := by
  unfold start
  rw [hs]
  rfl

/-- What may happen to a stream while a lookahead is open: the lookahead stays open, and the stream
gives the same elements and ends in the same way. -/
def Holds (s t : Lookahead α) : Prop :=
  s.looking = true → t.looking = true ∧ t.broken = s.broken ∧ t.toList = s.toList

instance : Std.Refl (Holds (α := α)) := ⟨fun _ h => ⟨h, rfl, rfl⟩⟩

instance : Trans (Holds (α := α)) Holds Holds where
  trans hst htu hs := by
    obtain ⟨ht, hb, hl⟩ := hst hs
    obtain ⟨hu, hb', hl'⟩ := htu ht
    exact ⟨hu, hb'.trans hb, hl'.trans hl⟩

/-- The elements that were read and those behind the one that was looked for are all there is. -/
theorem append_of_spanTo (p : α → Bool) (xs : List α) :
    (spanTo p xs).1 ++ (((spanTo p xs).2.map (·.2)).getD []) = xs := by
  induction xs with
  | nil => rfl
  | cons x xs ih =>
    unfold spanTo
    by_cases hx : p x = true
    · rw [if_pos hx]
      rfl
    · rw [if_neg hx]
      exact congrArg (x :: ·) ih

theorem holds_nextThat (p : α → Bool) (s : Lookahead α) : Holds s (s.nextThat p).2 := by
  intro hs
  unfold nextThat
  rw [if_pos hs]
  split
  · -- found in the buffer: only the index moves
    rw [if_pos hs]
    exact ⟨hs, rfl, rfl⟩
  · -- what is read from the rest of the stream moves to the buffer
    dsimp only
    rw [if_pos hs]
    refine ⟨hs, rfl, ?_⟩
    change (s.buffer ++ (spanTo p s.upcoming).1) ++ _ = s.buffer ++ s.upcoming
    rw [List.append_assoc, append_of_spanTo]

end Lookahead

/-! ### What patterns consist of -/

namespace Attempt

open Work

/-- What can be said of attempts, each with a place that it may go back to, and carries over from
the operations that patterns consist of to all that is made of them. -/
structure Closed (P : Nat → (α : Type) → Attempt α → Prop) : Prop where
  pure {α : Type} (i : Nat) (a : α) : P i α (pure a)
  throw {α : Type} (i : Nat) (f : Fault) : P i α (throw f)
  bind {α β : Type} {i : Nat} {w : Attempt α} {f : α → Attempt β} (hw : P i α w)
    (hf : ∀ a, P i β (f a)) : P i β (w >>= f)
  attempt {α : Type} {i : Nat} {w : Attempt α} (hw : P i α w) :
    P i (Except Fault α) (Work.attempt w)
  nextCode (i : Nat) : P i Element nextCode
  backTo (i : Nat) : P i Unit (backTo i)
  /-- What is begun at a place may go back to it. -/
  place {α : Type} {i : Nat} {f : Nat → Attempt α} (hf : ∀ j, P j α (f j)) : P i α (place >>= f)
  /-- The rounds of a repetition are bounded by what the stream gives. -/
  rounds {α : Type} {i : Nat} {f : Nat → Attempt α} (hf : ∀ n, P i α (f n)) :
    P i α (get >>= fun s => f (s.toList.length + 1))

namespace Closed

variable {P : Nat → (α : Type) → Attempt α → Prop} (h : Closed P)

include h

theorem backTo_bind {α : Type} {i : Nat} {w : Attempt α} (hw : P i α w) :
    P i α (Attempt.backTo i >>= fun _ => w) :=
  h.bind (h.backTo i) fun _ => hw

theorem whileFits {step : Element → Attempt Bool} (hstep : ∀ i e, P i Bool (step e)) (fuel : Nat) :
    ∀ (i : Nat) (found : Bool) (e : Element), P i Bool (Attempt.whileFits step fuel i found e) := by
  induction fuel with
  | zero => exact fun i found e => h.backTo_bind (h.pure i found)
  | succ fuel ih =>
    intro i found e
    unfold Attempt.whileFits
    refine h.bind (hstep i e) fun fits => ?_
    cases fits with
    | false => exact h.backTo_bind (h.pure i found)
    | true => exact h.place fun here => h.bind (h.nextCode here) fun next => ih here true next

theorem run (i : Nat) : ∀ t : Probe, P i Bool t.run
  | .answer passed => h.pure i passed
  | .stop f => h.throw i f
  | .ask next => by
    unfold Probe.run
    refine h.bind (h.attempt (h.nextCode i)) fun outcome => ?_
    cases outcome with
    | ok e => exact run i (next (some e))
    | error f =>
      cases f with
      | exhausted => exact run i (next none)
      | _ => exact h.throw i _

/-- A sequence goes back to the place that was noted before its last part, if at all. -/
theorem endSeq (p : Pattern) {last : Option Nat} (found : Bool) {i : Nat}
    (hlast : ∀ j ∈ last, j = i) : P i Bool (p.endSeq last found) := by
  have hback : ∀ answer, P i Bool (Pattern.endSeq.goBack last answer) := by
    intro answer
    cases last with
    | none => exact h.throw i _
    | some j =>
      obtain rfl := hlast j rfl
      exact h.backTo_bind (h.pure j answer)
  unfold Pattern.endSeq
  split
  · exact h.pure i true
  · exact hback true
  · exact hback _
  · exact h.pure i _

mutual

/-- **Whatever carries over from the operations holds of the matching of a pattern.** -/
theorem fits : ∀ (p : Pattern) (i : Nat) (e : Element), P i Bool (p.fits e)
  | .never, i, _ | .word _, i, _ | .kind _, i, _ | .any, i, _ | .node _, i, _ => h.pure i _
  | .exactly t, i, e => by
    unfold Pattern.fits
    split
    · split
      · exact h.pure i _
      · exact h.throw i _
    · exact h.pure i _
  | .refuse p, i, e => by
    unfold Pattern.fits
    refine h.place fun start => h.bind (fits p start e) fun found => ?_
    cases found with
    | true => exact h.backTo_bind (h.pure start false)
    | false => exact h.pure start true
  | .notFollowedBy p, i, e => by
    unfold Pattern.fits
    exact h.bind (fits p i e) fun found => h.pure i _
  | .maybe p, i, e => by
    unfold Pattern.fits
    refine h.place fun start => h.bind (fits p start e) fun found => ?_
    cases found with
    | true => exact h.pure start true
    | false => exact h.backTo_bind (h.pure start false)
  | .seq ps, i, e => by
    unfold Pattern.fits
    exact fitsSeq ps none i e fun j hj => absurd hj (Option.not_mem_none j)
  | .oneOf ps, i, e => by
    unfold Pattern.fits
    exact fitsOneOf ps i e
  | .repeated p, i, e => by
    unfold Pattern.fits
    exact h.rounds fun n => h.place fun start => h.whileFits (fits p) n start false e
  | .test t, i, e => by
    unfold Pattern.fits
    exact h.run i (t.probe e)

theorem fitsSeq :
    ∀ (ps : List Pattern) (last : Option Nat) (i : Nat) (e : Element), (∀ j ∈ last, j = i) →
    P i Bool (Pattern.fitsSeq last ps e)
  | [], _, i, _, _ => h.throw i _
  | p :: ps, last, i, e, hlast => by
    unfold Pattern.fitsSeq
    refine h.bind (fits p i e) fun found => ?_
    split
    · exact h.endSeq p found hlast
    · -- from here on, a part at the end that is left out leads back to this place
      refine h.place fun here => ?_
      have hhere : ∀ j ∈ some here, j = here := fun j hj => (Option.mem_some_iff.mp hj).symm
      split
      · exact h.bind (h.nextCode here) fun next => fitsSeq ps _ here next hhere
      · split
        · exact fitsSeq ps _ here e hhere
        · exact h.pure here false

theorem fitsOneOf : ∀ (ps : List Pattern) (i : Nat) (e : Element), P i Bool (Pattern.fitsOneOf ps e)
  | [], i, _ => h.pure i _
  | p :: ps, i, e => by
    unfold Pattern.fitsOneOf
    refine h.place fun start => h.bind (h.attempt (fits p start e)) fun outcome => ?_
    split
    · exact h.pure start true
    -- refused, or stopped by the end of the stream: the others are tried from the same place
    · exact h.backTo_bind (fitsOneOf ps start e)
    · exact h.backTo_bind (fitsOneOf ps start e)
    · exact h.throw start _

end

end Closed

end Attempt

/-! ### Patterns -/

namespace Pattern

open Lookahead

/-- **Matching keeps the stream.** Whatever a pattern does inside a lookahead, the stream gives the
same elements afterwards. -/
theorem keeps_fits (p : Pattern) (e : Element) : Work.Keeps Holds (p.fits e) := by
  have hclosed : Attempt.Closed fun _ _ w => Work.Keeps Holds w :=
    { pure _ a := Work.keeps_pure a
      throw _ f := Work.keeps_throw f
      bind hw hf := hw.bind hf
      attempt hw := hw.attempt
      nextCode _ := fun s => holds_nextThat Element.isCode s
      backTo _ := Work.keeps_modify fun _ hs => ⟨hs, rfl, rfl⟩
      place hf := Work.Keeps.bind (w := Attempt.place) (fun s => Std.Refl.refl s) hf
      rounds hf := Work.keeps_get.bind fun _ => hf _ }
  exact hclosed.fits p 0 e

/-- What an attempt makes of the outcome of the match: the answer, and the stream with its lookahead
closed. -/
def settle (p : Pattern) (e : Element) (take : Bool) :
    Except Fault Bool × Lookahead Element → Except Fault Answer × Lookahead Element
  | (.ok true, s) =>
    if take then (.ok (.taken (e :: s.consume.1)), s.consume.2) else (.ok .seen, s.stop.unread e)
  | (.ok false, s) => (.ok (if p.isSilent then .none else .refused), s.stop)
  | (.error .exhausted, s) => (.ok .none, { s with index := 0 }.stop)
  | (.error f, s) => (.error f, s)

/-- An attempt is a match inside a lookahead that is opened for it and closed again. -/
theorem runOn_tryOn (p : Pattern) (e : Element) (take : Bool) {s : Lookahead Element}
    (hs : s.looking = false) :
    (p.tryOn e take).runOn s = p.settle e take
      ((p.fits e).runOn s.begun) := by
  unfold tryOn
  rw [Work.runOn_bind, Work.runOn_get]
  dsimp only
  rw [start_of_closed hs]
  rw [Work.runOn_bind, Work.runOn_set]
  dsimp only
  rw [Work.runOn_bind, Work.runOn_attempt]
  rcases (p.fits e).runOn s.begun with ⟨outcome, u⟩
  cases outcome with
  | ok found =>
    cases found with
    | true => cases take <;> rfl
    | false => rfl
  | error f => cases f <;> rfl

/-- What an attempt with this answer has done to a stream, from which the element had been taken
before. -/
def Effect (e : Element) (take : Bool) (s : Lookahead Element) : Answer → Lookahead Element → Prop
  | .taken es, t => take = true ∧ ∃ more, es = e :: more ∧ s.toList = more ++ t.toList
  | .seen, t => take = false ∧ t.toList = e :: s.toList
  | .refused, t => t.toList = s.toList
  | .none, t => t.toList = s.toList

/-- **An attempt is all or nothing.** It closes its lookahead, and the stream has lost exactly what
was taken. -/
theorem tryOn_runs {p : Pattern} {e : Element} {take : Bool} {s t : Lookahead Element}
    {answer : Answer} (hs : s.looking = false) (h : Work.Runs (p.tryOn e take) s answer t) :
    t.looking = false ∧ t.broken = s.broken ∧ Effect e take s answer t := by
  unfold Work.Runs at h
  rw [runOn_tryOn p e take hs] at h
  -- the match itself, whatever came of it, has left the elements of the stream alone
  obtain ⟨-, hb, hl⟩ := keeps_fits p e s.begun rfl
  generalize (p.fits e).runOn s.begun = reached at h hb hl
  obtain ⟨outcome, u⟩ := reached
  change u.broken = s.broken at hb
  change u.toList = s.toList at hl
  unfold settle at h
  split at h
  next u' heq =>
    obtain ⟨-, rfl⟩ := Prod.mk.inj heq
    split at h
    next htake =>
      obtain ⟨ha, rfl⟩ := Prod.mk.inj h
      obtain rfl := Except.ok.inj ha
      exact ⟨rfl, hb, htake, _, rfl, by rw [← hl, consume_append]⟩
    next htake =>
      obtain ⟨ha, rfl⟩ := Prod.mk.inj h
      obtain rfl := Except.ok.inj ha
      exact ⟨rfl, hb, by simpa using htake, by rw [← hl]; rfl⟩
  next u' heq =>
    obtain ⟨-, rfl⟩ := Prod.mk.inj heq
    obtain ⟨ha, rfl⟩ := Prod.mk.inj h
    obtain rfl := Except.ok.inj ha
    refine ⟨rfl, hb, ?_⟩
    split <;> exact hl
  next u' heq =>
    obtain ⟨-, rfl⟩ := Prod.mk.inj heq
    obtain ⟨ha, rfl⟩ := Prod.mk.inj h
    obtain rfl := Except.ok.inj ha
    exact ⟨rfl, hb, hl⟩
  next => exact nomatch (Prod.mk.inj h).1

/-- The pattern gives this answer on an element that these ones follow. -/
def Gives (p : Pattern) (e : Element) (take : Bool) (rest : List Element) (answer : Answer) :
    Prop :=
  ∃ s t, s.looking = false ∧ s.toList = rest ∧ Work.Runs (p.tryOn e take) s answer t

/-- There is a pattern, and it covers the element and the first ones of those that follow it. -/
def Takes (p : Option Pattern) (e : Element) (taken rest : List Element) : Prop :=
  ∃ q ∈ p, q.Gives e true (taken ++ rest) (.taken (e :: taken))

/-- There is a pattern, and it does not fit the element and those that follow it. -/
def Refuses (p : Option Pattern) (e : Element) (take : Bool) (rest : List Element) : Prop :=
  ∃ q ∈ p, ∃ answer, q.Gives e take rest answer ∧ (answer = .refused ∨ answer = .none)

end Pattern

end EztScan
