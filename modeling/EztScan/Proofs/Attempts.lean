import EztScan.Proofs.OrderedChoice

/-!
# Attempts as a whole

An attempt opens a lookahead, matches inside of it, and closes it again. What it leaves behind
follows from the outcome of the match alone (`Pattern.tryOn_atomic`): where the pattern fits, the
element and what was seen behind it are taken, or the element is put back; where it does not fit, or
the stream ends in the middle, the stream gives what it gave before. A fault of the pattern itself
leaves the lookahead open, but loses no element either.

How much of a stream has been read before is of no account. Two streams that give the same elements
may keep different parts of them in their buffers; a match goes through both of them in step
(`Pattern.steady_fits`), so that an attempt has the same answer on both and leaves them alike
(`Pattern.beside_tryOn`). In particular, what has refused a stream refuses it again.
-/

namespace EztScan

/-! ### Nothing is lost -/

namespace Pattern

open Work Lookahead

/-- The outcome of a match on an element, inside a lookahead that is opened on the stream for it. -/
def outcomeOn (p : Pattern) (e : Element) (s : Lookahead Element) : Except Fault Bool :=
  ((p.fits e).runOn { s with looking := true, index := 0 }).1

/-- **An attempt takes all that it covers or nothing.** Where the pattern fits, the element that was
tried and the ones that were taken after it are what the stream has lost; with `take` false, the
element is in front of the stream again. Where it does not fit, the stream gives what it gave
before. In all these cases no lookahead is open any more. -/
theorem tryOn_atomic (p : Pattern) (e : Element) (take : Bool) {s : Lookahead Element}
    (hs : s.looking = false) :
    (∃ t, t.looking = false ∧
      ((p.outcomeOn e s = .ok true ∧ take = true ∧
          ∃ es, Runs (p.tryOn e take) s (.taken es) t ∧ es.head? = some e ∧
            es ++ t.toList = e :: s.toList) ∨
        (p.outcomeOn e s = .ok true ∧ take = false ∧ Runs (p.tryOn e take) s .seen t ∧
          t.toList = e :: s.toList) ∨
        ((p.outcomeOn e s = .ok false ∨ p.outcomeOn e s = .error .exhausted) ∧
          (∃ answer, Runs (p.tryOn e take) s answer t ∧ (answer = .refused ∨ answer = .none)) ∧
          t.toList = s.toList))) ∨
      ∃ f t, f ≠ .exhausted ∧ p.outcomeOn e s = .error f ∧
        (p.tryOn e take).runOn s = (.error f, t) ∧
        t.looking = true ∧ t.toList = s.toList := by
  unfold outcomeOn Runs
  rw [runOn_tryOn p e take hs]
  -- inside the lookahead nothing is lost, and what follows only looks at the outcome
  obtain ⟨hlook, -, hl⟩ := keeps_fits p e s.begun rfl
  generalize (p.fits e).runOn s.begun = reached at hlook hl ⊢
  obtain ⟨outcome, u⟩ := reached
  change u.looking = true at hlook
  change u.toList = s.toList at hl
  cases outcome with
  | ok found =>
    cases found with
    | true =>
      cases take with
      | true =>
        refine .inl ⟨u.consume.2, rfl, .inl ⟨rfl, rfl, e :: u.consume.1, rfl, rfl, ?_⟩⟩
        rw [List.cons_append, consume_append, hl]
      | false =>
        -- the element was no longer in the stream, so it has to be put back in front
        refine .inl ⟨u.stop.unread e, rfl, .inr (.inl ⟨rfl, rfl, rfl, ?_⟩)⟩
        rw [toList_unread, toList_stop, hl]
    | false =>
      refine .inl ⟨u.stop, rfl,
        .inr (.inr ⟨.inl rfl, ⟨if p.isSilent then .none else .refused, rfl, ?_⟩, hl⟩)⟩
      cases p.isSilent with
      | true => exact .inr rfl
      | false => exact .inl rfl
  | error f =>
    by_cases hf : f = .exhausted
    · subst hf
      exact .inl ⟨{ u with index := 0 }.stop, rfl,
        .inr (.inr ⟨.inr rfl, ⟨.none, rfl, .inr rfl⟩, hl⟩)⟩
    · refine .inr ⟨f, u, hf, rfl, ?_, hlook, hl⟩
      cases f with
      | exhausted => exact absurd rfl hf
      | _ => rfl

/-- A word again and again, maybe another one, and then a full stop. -/
def sentenceForm : Pattern :=
  .seq [.repeated (.word "go"), .maybe (.word "on"), .word "."]

/-- A stream that has been read ahead by one element. -/
def sentenceRest : Lookahead Element where
  buffer := [.token { text := some " ", kind := some .whitespace }]
  upcoming := [.token { text := some "Go", kind := some .generic },
    .token { text := some "no", kind := some .generic }]

theorem tryOn_atomic_sentenceForm :
    sentenceRest.looking = false ∧
      ∃ t, t.looking = false ∧ t.toList = sentenceRest.toList ∧
        ∃ answer, Runs (sentenceForm.tryOn (.token { text := some "GO", kind := some .generic })
          true) sentenceRest answer t ∧
          (answer = .refused ∨ answer = .none) := by
  refine ⟨rfl, ?_⟩
  have houtcome : sentenceForm.outcomeOn (.token { text := some "GO", kind := some .generic })
      sentenceRest = .ok false := by
    rfl
  rcases tryOn_atomic sentenceForm (.token { text := some "GO", kind := some .generic }) true
      (s := sentenceRest) rfl with
    ⟨t, ht, ⟨hfits, -⟩ | ⟨hfits, -⟩ | ⟨-, hanswer, hl⟩⟩ | ⟨f, -, -, hfault, -⟩
  · cases houtcome.symm.trans hfits
  · cases houtcome.symm.trans hfits
  · exact ⟨t, ht, hl, hanswer⟩
  · cases houtcome.symm.trans hfault

end Pattern

/-! ### What has been read before is of no account -/

namespace Lookahead

variable {α : Type}
variable {s t : Lookahead α} {i : Nat}

/-- Two streams give the same elements and end in the same way, wherever the elements are kept. -/
structure Similar (s t : Lookahead α) : Prop where
  looking : s.looking = t.looking
  broken : s.broken = t.broken
  toList : s.toList = t.toList

theorem Similar.refl (s : Lookahead α) : Similar s s :=
  ⟨rfl, rfl, rfl⟩

theorem Similar.symm (h : Similar s t) : Similar t s :=
  ⟨h.looking.symm, h.broken.symm, h.toList.symm⟩

theorem Similar.trans {u : Lookahead α} (hst : Similar s t) (htu : Similar t u) : Similar s u :=
  ⟨hst.looking.trans htu.looking, hst.broken.trans htu.broken, hst.toList.trans htu.toList⟩

/-- Two open lookaheads over the same elements are at the same place, and not before the place
`i`. -/
structure InStep (i : Nat) (s t : Lookahead α) : Prop where
  opened : s.Opened
  opened' : t.Opened
  broken : s.broken = t.broken
  toList : s.toList = t.toList
  index : s.index = t.index
  le : i ≤ s.index

theorem InStep.mono {j : Nat} (h : InStep j s t) (hij : i ≤ j) : InStep i s t :=
  { h with le := Nat.le_trans hij h.le }

theorem InStep.ahead (h : InStep i s t) : s.ahead = t.ahead := by
  unfold Lookahead.ahead
  rw [h.toList, h.index]

/-- Going on over as many elements in both. -/
theorem InStep.gone {n : Nat} {s' t' : Lookahead α} (h : InStep i s t) (hs : Gone s n s')
    (ht : Gone t n t') : InStep i s' t' where
  opened := hs.opened
  opened' := ht.opened
  broken := by rw [hs.broken, ht.broken, h.broken]
  toList := by rw [hs.toList, ht.toList, h.toList]
  index := by rw [hs.index, ht.index, h.index]
  le := by
    rw [hs.index]
    exact Nat.le_trans h.le (Nat.le_add_right _ _)

/-- Going back in both to the place that neither is before. -/
theorem InStep.back (h : InStep i s t) : InStep i { s with index := i } { t with index := i } where
  opened := ⟨h.opened.looking, Nat.le_trans h.le h.opened.le⟩
  opened' := ⟨h.opened'.looking, Nat.le_trans (h.index ▸ h.le) h.opened'.le⟩
  broken := h.broken
  toList := h.toList
  index := rfl
  le := Nat.le_refl i

/-- What two lookaheads in step have seen is the same, and so is what they have not. -/
theorem InStep.consume (h : InStep i s t) :
    s.consume.1 = t.consume.1 ∧ Similar s.consume.2 t.consume.2 := by
  refine ⟨?_, rfl, h.broken, ?_⟩
  · rw [h.opened.consume_fst, h.opened'.consume_fst, h.toList, h.index]
  · rw [h.opened.toList_consume, h.opened'.toList_consume, h.ahead]

end Lookahead

namespace Attempt

open Lookahead Work

/-- An attempt whose outcome does not depend on what has been read before. It may go back to the
place `i`, but not further. -/
abbrev IsSteady {α : Type} (i : Nat) (w : Attempt α) : Prop :=
  Beside (InStep i) (fun _ => True) w w

variable {i : Nat}

theorem steady_nextCode : IsSteady i nextCode := by
  intro s t h
  change (s.nextThat Element.isCode).1 = (t.nextThat Element.isCode).1 ∧ _ ∧
    InStep i (s.nextThat Element.isCode).2 (t.nextThat Element.isCode).2
  -- what is passed over is found in what is ahead, whichever part of it is in the buffer
  rcases hspan : spanTo Element.isCode s.ahead with ⟨read, found⟩
  obtain ⟨s', hs, hgone⟩ := nextThat_of_spanTo h.opened hspan
  obtain ⟨t', ht, hgone'⟩ := nextThat_of_spanTo h.opened' (h.ahead ▸ hspan)
  have hending : s.ending = t.ending := by
    unfold ending
    rw [h.broken]
  rw [hs, ht, hending]
  exact ⟨rfl, fun _ _ => trivial, h.gone hgone hgone'⟩

/-- What is begun at a place may go back to it. -/
theorem steady_place_bind {α : Type} {f : Nat → Attempt α} (h : ∀ j, IsSteady j (f j)) :
    IsSteady i (place >>= f) := by
  intro s t hst
  have hplace : Runs place s s.index s := rfl
  have hplace' : Runs place t s.index t := by
    rw [hst.index]
    rfl
  rw [hplace.runOn_bind, hplace'.runOn_bind]
  -- the rest goes back no further than to where it began, so neither to what is before `i`
  obtain ⟨hsame, -, hreached⟩ := h s.index s t { hst with le := Nat.le_refl _ }
  exact ⟨hsame, fun _ _ => trivial, hreached.mono hst.le⟩

theorem closed_steady : Closed fun i _ w => IsSteady i w where
  pure _ _ := beside_pure trivial
  throw _ f := beside_throw f
  bind hw hf := hw.bind fun a _ => hf a
  attempt hw := hw.attempt.mono fun _ _ => trivial
  nextCode _ := steady_nextCode
  backTo _ := beside_modify fun _ _ h => h.back
  place := steady_place_bind
  rounds {α i f} hf := by
    intro s t h
    change ((f (s.toList.length + 1)).runOn s).1 = ((f (t.toList.length + 1)).runOn t).1 ∧ _ ∧
      InStep i ((f (s.toList.length + 1)).runOn s).2 ((f (t.toList.length + 1)).runOn t).2
    rw [← h.toList]
    exact hf _ s t h

end Attempt

namespace Pattern

open Attempt Lookahead Work
variable {s : Lookahead Element}

/-- **Matching goes by what the stream gives.** On two streams that give the same elements, a
pattern has the same outcome and has seen as many of them. -/
theorem steady_fits (p : Pattern) (i : Nat) (e : Element) : IsSteady i (p.fits e) :=
  closed_steady.fits p i e

/-- With a lookahead open, no attempt is made. -/
theorem runOn_tryOn_of_looking (p : Pattern) (e : Element) (take : Bool) (hs : s.looking = true) :
    (p.tryOn e take).runOn s = (.error .lookaheadOpen, s) := by
  have hstart : s.start = .error .lookaheadOpen := by
    unfold start
    rw [if_pos hs]
  unfold tryOn
  rw [runOn_bind, runOn_get]
  dsimp only
  rw [hstart]
  rfl

/-- What an attempt makes of a match that has gone through two streams in step. -/
theorem settle_inStep (p : Pattern) (e : Element) (take : Bool) (outcome : Except Fault Bool)
    {i : Nat} {t : Lookahead Element} (h : InStep i s t) :
    (p.settle e take (outcome, s)).1 = (p.settle e take (outcome, t)).1 ∧
      Similar (p.settle e take (outcome, s)).2 (p.settle e take (outcome, t)).2 := by
  have hstop : Similar s.stop t.stop := ⟨rfl, h.broken, h.toList⟩
  cases outcome with
  | ok found =>
    cases found with
    | true =>
      cases take with
      | true =>
        obtain ⟨htaken, hleft⟩ := h.consume
        exact ⟨congrArg (fun es => Except.ok (Answer.taken (e :: es))) htaken, hleft⟩
      | false => exact ⟨rfl, rfl, h.broken, congrArg (e :: ·) h.toList⟩
    | false => exact ⟨rfl, hstop⟩
  | error f =>
    cases f with
    | exhausted => exact ⟨rfl, rfl, h.broken, h.toList⟩
    -- any other fault leaves both lookaheads open
    | _ => exact ⟨rfl, h.opened.looking.trans h.opened'.looking.symm, h.broken, h.toList⟩

/-- **An attempt goes by what the stream gives.** On two streams that give the same elements it has
the same outcome, and they give the same elements afterwards. -/
theorem beside_tryOn (p : Pattern) (e : Element) (take : Bool) :
    Beside Similar (fun _ => True) (p.tryOn e take) (p.tryOn e take) := by
  intro s t h
  cases hs : s.looking with
  | true =>
    rw [runOn_tryOn_of_looking p e take hs, runOn_tryOn_of_looking p e take (h.looking ▸ hs)]
    exact ⟨rfl, fun _ _ => trivial, h⟩
  | false =>
    rw [runOn_tryOn p e take hs, runOn_tryOn p e take (h.looking ▸ hs)]
    have hopen : InStep 0 s.begun t.begun :=
      ⟨opened_begun s, opened_begun t, h.broken, h.toList, rfl, Nat.le_refl 0⟩
    -- both matches run in step from place zero, and what follows only depends on where they end
    obtain ⟨hsame, -, hreached⟩ := steady_fits p 0 e _ _ hopen
    generalize (p.fits e).runOn s.begun = x at hsame hreached
    generalize (p.fits e).runOn t.begun = y at hsame hreached
    obtain ⟨outcome, s'⟩ := x
    obtain ⟨_, t'⟩ := y
    obtain rfl : outcome = _ := hsame
    obtain ⟨hanswer, hsimilar⟩ := settle_inStep p e take outcome hreached
    exact ⟨hanswer, fun _ _ => trivial, hsimilar⟩

end Pattern

end EztScan
