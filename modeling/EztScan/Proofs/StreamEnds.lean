import Mathlib.Data.List.Forall2
import EztScan.Proofs.Attempts
import EztScan.Proofs.Readings

/-!
# The end of a stream and an element that nothing names

A pattern that is made of words can meet two things that do not fit: an element that none of its
words names, and the end of the stream. The first one is refused on the spot; the second one stops
the whole match, up to the nearest alternative. This module compares an attempt on a stream with one
on the same stream and one more such element.

* Which element it is does not matter, as long as none of the words names it
(`Pattern.reading_congr`).
* What a match does not ask for has no effect (`Pattern.reading_append`): where it comes to its
answer before the end, one more element changes nothing.
* Patterns that are ordered choices never tell the two apart (`Pattern.reads_append_stranger`). All
others can: a repeated word asks for one more element after the last one that fits, and so does a
sequence whose last part may be left out.

All this is put together in `Pattern.takenOn_append`.
-/

namespace EztScan

open List

variable {p : Pattern} {ps : List Pattern} {es : List Element}

namespace Element

/-- The same words of these name the two elements. -/
def SameNames (words : List String) (x y : Element) : Prop :=
  ∀ text ∈ words, x.isNamed text = y.isNamed text

theorem SameNames.refl (words : List String) (x : Element) : SameNames words x x :=
  fun _ _ => rfl

end Element

namespace Pattern

open Element Lookahead

mutual

/-- The words that a pattern is made of. -/
def words : Pattern → List String
  | .word text => [text]
  | .maybe p | .repeated p => p.words
  | .seq ps | .oneOf ps => wordsOfAll ps
  | _ => []

/-- The words that some patterns are made of. -/
def wordsOfAll : List Pattern → List String
  | [] => []
  | p :: ps => p.words ++ wordsOfAll ps

end

mutual

/-- Is the pattern made of words, by sequences, choices, options and repetitions? -/
def isVerbal : Pattern → Bool
  | .word _ => true
  | .maybe p | .repeated p => p.isVerbal
  | .seq ps => !ps.isEmpty && allVerbal ps
  | .oneOf ps => allVerbal ps
  | _ => false

/-- Are all of these patterns made of words? -/
def allVerbal : List Pattern → Bool
  | [] => true
  | p :: ps => p.isVerbal && allVerbal ps

end

theorem allVerbal_cons : allVerbal (p :: ps) = true ↔ p.isVerbal = true ∧ allVerbal ps = true := by
  rw [allVerbal, Bool.and_eq_true]

theorem forall_mem_wordsOfAll {P : String → Prop} :
    (∀ text ∈ wordsOfAll (p :: ps), P text) ↔
      (∀ text ∈ p.words, P text) ∧ ∀ text ∈ wordsOfAll ps, P text := by
  rw [wordsOfAll, forall_mem_append]

mutual

theorem isPlain_of_isVerbal : ∀ p : Pattern, p.isVerbal = true → p.isPlain = true
  | .word _, _ => rfl
  | .maybe p, h | .repeated p, h => isPlain_of_isVerbal p h
  | .seq ps, h => allPlain_of_allVerbal ps (Bool.and_eq_true _ _ ▸ h).2
  | .oneOf ps, h => allPlain_of_allVerbal ps h

theorem allPlain_of_allVerbal : ∀ ps : List Pattern, allVerbal ps = true → allPlain ps = true
  | [], _ => rfl
  | p :: ps, h => by
    rw [allVerbal_cons] at h
    rw [allPlain_cons]
    exact ⟨isPlain_of_isVerbal p h.1, allPlain_of_allVerbal ps h.2⟩

end

/-! ### Elements that nothing names -/

section SameNames

variable {ending : Fault} {known : List String}

/-- What is left of two lists of like elements after some of them is in both cases nothing, or
begins with like elements. -/
theorem sameNames_drop {es' : List Element} (h : Forall₂ (SameNames known) es es') (k : Nat) :
    (es.drop k = [] ∧ es'.drop k = []) ∨ ∃ x xs y ys, es.drop k = x :: xs ∧ es'.drop k = y :: ys ∧
      SameNames known x y ∧ Forall₂ (SameNames known) xs ys := by
  have hrest := forall₂_drop k h
  generalize es.drop k = rest at hrest
  generalize es'.drop k = rest' at hrest
  cases hrest with
  | nil => exact .inl ⟨rfl, rfl⟩
  | cons hxy hxs => exact .inr ⟨_, _, _, _, rfl, rfl, hxy, hxs⟩

theorem readingWhile_congr {step : Element → List Element → Outcome}
    (hstep : ∀ (x y : Element) (es es' : List Element), SameNames known x y →
      Forall₂ (SameNames known) es es' → step x es = step y es')
    (last : Option Nat) (n : Nat) {x y : Element} {es' : List Element} (hxy : SameNames known x y)
    (hes : Forall₂ (SameNames known) es es') :
    readingWhile ending step last n x es = readingWhile ending step last n y es' := by
  -- each round leaves less code
  induction hlength : es.length using Nat.strongRecOn generalizing last n x y es es' with
  | ind length ih =>
    have hsame := hstep x y es es' hxy hes
    cases hx : step x es with
    | fits k =>
      rw [hx] at hsame
      rcases sameNames_drop hes k with ⟨hnil, hnil'⟩ | ⟨z, zs, z', zs', hcons, hcons', hz, hzs⟩
      · rw [readingWhile_of_nil hx hnil, readingWhile_of_nil hsame.symm hnil']
      · rw [readingWhile_of_cons hx hcons, readingWhile_of_cons hsame.symm hcons']
        refine ih zs.length ?_ _ _ hz hzs rfl
        have hdrop := length_of_drop hcons
        omega
    | refused =>
      rw [hx] at hsame
      rw [readingWhile_of_refused hx, readingWhile_of_refused hsame.symm]
    | stopped =>
      rw [hx] at hsame
      rw [readingWhile_of_stopped hx, readingWhile_of_stopped hsame.symm]

mutual

/-- **Only what is named counts.** A pattern that is made of words does not tell like elements
apart. -/
theorem reading_congr : ∀ p : Pattern, p.isVerbal = true → (∀ text ∈ p.words, text ∈ known) →
    ∀ (x y : Element) (es es' : List Element), SameNames known x y →
      Forall₂ (SameNames known) es es' →
      p.reading ending x es = p.reading ending y es'
  | .word text, _, hknown, x, y, es, es', hxy, _ => by
    unfold reading
    rw [reads_word_eq, reads_word_eq, hxy text (hknown text mem_cons_self)]
  | .maybe p, h, hknown, x, y, es, es', hxy, hes => by
    unfold reading
    exact reading_congr p h hknown x y es es' hxy hes
  | .repeated p, h, hknown, x, y, es, es', hxy, hes => by
    unfold reading
    exact readingWhile_congr (reading_congr p h hknown) none 0 hxy hes
  | .seq ps, h, hknown, x, y, es, es', hxy, hes => by
    have h := Bool.and_eq_true_iff.mp h
    unfold reading
    exact readingSeq_congr ps h.2 hknown none 0 x y es es' hxy hes
  | .oneOf ps, h, hknown, x, y, es, es', hxy, hes => by
    unfold reading
    exact readingOneOf_congr ps h hknown x y es es' hxy hes

theorem readingSeq_congr :
    ∀ ps : List Pattern, allVerbal ps = true → (∀ text ∈ wordsOfAll ps, text ∈ known) →
    ∀ (last : Option Nat) (n : Nat) (x y : Element) (es es' : List Element), SameNames known x y →
      Forall₂ (SameNames known) es es' →
        readingSeq ending ps last n x es = readingSeq ending ps last n y es'
  | [], _, _, _, _, _, _, _, _, _, _ => rfl
  | p :: ps, h, hknown, last, n, x, y, es, es', hxy, hes => by
    rw [allVerbal_cons] at h
    rw [forall_mem_wordsOfAll] at hknown
    unfold readingSeq
    rw [← reading_congr p h.1 hknown.1 x y es es' hxy hes]
    cases reading ending p x es with
    | fits k =>
      dsimp only
      rcases sameNames_drop hes k with ⟨hnil, hnil'⟩ | ⟨z, zs, z', zs', hcons, hcons', hz, hzs⟩
      · rw [hnil, hnil']
      · rw [hcons, hcons']
        dsimp only
        rw [readingSeq_congr ps h.2 hknown.2 _ _ z z' zs zs' hz hzs]
    | refused =>
      rw [readingSeq_congr ps h.2 hknown.2 _ _ x y es es' hxy hes]
    | stopped => rfl

theorem readingOneOf_congr :
    ∀ ps : List Pattern, allVerbal ps = true → (∀ text ∈ wordsOfAll ps, text ∈ known) →
    ∀ (x y : Element) (es es' : List Element), SameNames known x y →
      Forall₂ (SameNames known) es es' →
      readingOneOf ending ps x es = readingOneOf ending ps y es'
  | [], _, _, _, _, _, _, _, _ => rfl
  | p :: ps, h, hknown, x, y, es, es', hxy, hes => by
    rw [allVerbal_cons] at h
    rw [forall_mem_wordsOfAll] at hknown
    unfold readingOneOf
    rw [reading_congr p h.1 hknown.1 x y es es' hxy hes,
      readingOneOf_congr ps h.2 hknown.2 x y es es' hxy hes]

end

end SameNames

/-! ### What is not asked for -/

section Unasked

variable {ending ending' : Fault} {more : List Element}

/-- Where there is a next element, there is the same one with more behind. -/
theorem drop_append_of_cons {xs : List Element} {k : Nat} {x : Element} (h : es.drop k = x :: xs)
    (more : List Element) : (es ++ more).drop k = x :: (xs ++ more) := by
  have hlength := length_of_drop h
  rw [drop_append_of_le_length (by omega), h, cons_append]

theorem readingWhile_append {step step' : Element → List Element → Outcome}
    (hstep : ∀ (e : Element) (es : List Element), step e es ≠ .stopped ending →
      step' e (es ++ more) = step e es)
    (last : Option Nat) (n : Nat) (e : Element) (es : List Element)
    (h : readingWhile ending step last n e es ≠ .stopped ending) :
    readingWhile ending' step' last n e (es ++ more) = readingWhile ending step last n e es := by
  induction hlength : es.length using Nat.strongRecOn generalizing last n e es with
  | ind length ih =>
    have hsame := hstep e es
    cases hround : step e es with
    | fits k =>
      rw [hround] at hsame
      have hround' := hsame Outcome.noConfusion
      cases hdrop : es.drop k with
      -- a round that fits up to the end would ask for more
      | nil => exact absurd (readingWhile_of_nil hround hdrop) h
      | cons x xs =>
        have hdrop' : (es ++ more).drop k = x :: (xs ++ more) := drop_append_of_cons hdrop more
        rw [readingWhile_of_cons hround hdrop] at h ⊢
        rw [readingWhile_of_cons hround' hdrop']
        refine ih xs.length ?_ _ _ x xs h rfl
        have hlength' := length_of_drop hdrop
        omega
    | refused =>
      rw [hround] at hsame
      rw [readingWhile_of_refused hround, readingWhile_of_refused (hsame Outcome.noConfusion)]
    | stopped =>
      rw [readingWhile_of_stopped hround] at h ⊢
      rw [hround] at hsame
      exact readingWhile_of_stopped (hsame h)

theorem reads_append_of_isElementary (h : p.isElementary = true) (e : Element) (es : List Element) :
    p.reads e (es ++ more) = p.reads e es := by
  rw [reads_of_isElementary h e (es ++ more), reads_of_isElementary h e es]

mutual

/-- **What is not asked for has no effect.** A match that does not come to the end of the stream has
the same outcome if the stream goes on there. -/
theorem reading_append (hending : ending ≠ .exhausted) :
    ∀ p : Pattern, p.isPlain = true → ∀ (e : Element) (es : List Element),
    p.reading ending e es ≠ .stopped ending →
      p.reading ending' e (es ++ more) = p.reading ending e es
  | .maybe p, hp, e, es, h => by
    unfold reading at h ⊢
    exact reading_append hending p hp e es h
  | .repeated p, hp, e, es, h => by
    unfold reading at h ⊢
    exact readingWhile_append (reading_append hending p hp) none 0 e es h
  | .seq ps, hps, e, es, h => by
    unfold reading at h ⊢
    exact readingSeq_append hending ps hps none 0 e es h
  | .oneOf ps, hps, e, es, h => by
    unfold reading at h ⊢
    exact readingOneOf_append hending ps hps e es h
  | .notFollowedBy p, hp, e, es, _ => by
    unfold reading
    rw [reads_append_of_isElementary hp]
  | .never, hp, e, es, _ | .word _, hp, e, es, _ | .kind _, hp, e, es, _ | .exactly _, hp, e, es, _
  | .refuse _, hp, e, es, _ | .any, hp, e, es, _ | .node _, hp, e, es, _ => by
    unfold reading
    rw [reads_append_of_isElementary hp]

/-- A sequence that has not come to the end of the stream does not see what is added there. -/
theorem readingSeq_append (hending : ending ≠ .exhausted) :
    ∀ ps : List Pattern, allPlain ps = true →
    ∀ (last : Option Nat) (n : Nat) (e : Element) (es : List Element),
      readingSeq ending ps last n e es ≠ .stopped ending →
      readingSeq ending' ps last n e (es ++ more) = readingSeq ending ps last n e es
  | [], _, _, _, _, _, _ => rfl
  | p :: ps, hps, last, n, e, es, h => by
    rw [allPlain_cons] at hps
    have hp := reading_append hending p hps.1 e es
    unfold readingSeq at h ⊢
    cases hread : p.reading ending e es with
    | fits k =>
      rw [hread] at h hp
      rw [hp Outcome.noConfusion]
      dsimp only at h ⊢
      by_cases hlast : ps.isEmpty = true
      · rw [if_pos hlast, if_pos hlast]
      · rw [if_neg hlast] at h ⊢
        rw [if_neg hlast]
        cases hdrop : es.drop k with
        | nil =>
          -- the reading stops with the ending, which was excluded
          rw [hdrop] at h
          exact absurd rfl h
        | cons x xs =>
          rw [hdrop] at h
          rw [drop_append_of_cons hdrop more]
          exact readingSeq_append hending ps hps.2 _ _ x xs h
    | refused =>
      rw [hread] at h hp
      rw [hp Outcome.noConfusion]
      by_cases hlast : ps.isEmpty = true
      · rw [if_pos hlast, if_pos hlast]
      · rw [if_neg hlast] at h ⊢
        rw [if_neg hlast]
        by_cases hmaybe : p.isMaybe = true
        · rw [if_pos hmaybe] at h ⊢
          rw [if_pos hmaybe]
          exact readingSeq_append hending ps hps.2 _ _ e es h
        · rw [if_neg hmaybe, if_neg hmaybe]
    | stopped =>
      rw [hread] at h hp
      rw [hp h]

theorem readingOneOf_append (hending : ending ≠ .exhausted) :
    ∀ ps : List Pattern, allPlain ps = true →
    ∀ (e : Element) (es : List Element), readingOneOf ending ps e es ≠ .stopped ending →
      readingOneOf ending' ps e (es ++ more) = readingOneOf ending ps e es
  | [], _, _, _, _ => rfl
  | p :: ps, hps, e, es, h => by
    rw [allPlain_cons] at hps
    have hp := reading_append hending p hps.1 e es
    unfold readingOneOf at h ⊢
    cases hread : p.reading ending e es with
    | fits =>
      rw [hread] at hp
      rw [hp Outcome.noConfusion]
    | refused =>
      rw [hread] at h hp
      rw [hp Outcome.noConfusion]
      exact readingOneOf_append hending ps hps.2 e es h
    | stopped f =>
      rw [hread] at h hp
      cases f with
      | exhausted =>
        -- a stream that ends in a fault of its own does not stop a match in the ordinary way
        rw [hp fun heq => hending (Outcome.stopped.inj heq).symm]
        exact readingOneOf_append hending ps hps.2 e es h
      | _ => rw [hp h]

end

end Unasked

/-! ### Ordered choices -/

section Ordered

variable {z : Element}

/-- The pattern can stand in a sequence that is an ordered choice: it is one, or it is elementary
and may be left out. -/
def IsOrderedPart (p : Pattern) : Prop :=
  p.isOrdered = true ∨ ∃ q, p = .maybe q ∧ q.isElementary = true

theorem isOrderedPart_of_cons (h : seqIsOrdered (p :: ps) = true) :
    p.IsOrderedPart ∧ (ps.isEmpty = false → seqIsOrdered ps = true) ∧
      (ps.isEmpty = true → p.isMaybe = false) := by
  cases ps with
  | nil =>
    exact ⟨.inl h, Bool.noConfusion, fun _ => isMaybe_of_isOrdered h⟩
  | cons =>
    obtain ⟨hp, hps⟩ := of_seqIsOrdered_cons h
    exact ⟨hp, fun _ => hps, Bool.noConfusion⟩

/-- A reading refuses the element, and does not tell it from the end of the stream. -/
def Overlooks (z : Element) (read : Element → List Element → Option Nat) : Prop :=
  (∀ es, read z es = none) ∧ ∀ e es, read e (es ++ [z]) = read e es

/-- What is behind the last element goes on with nothing, or with one that is refused. -/
theorem readsBehind_append {goOn : Element → List Element → Option Nat} (hz : goOn z [] = none)
    (hgoOn : ∀ (e : Element) (es : List Element), goOn e (es ++ [z]) = goOn e es) (k : Nat)
    (es : List Element) : readsBehind goOn k (es ++ [z]) = readsBehind goOn k es := by
  unfold readsBehind
  cases hdrop : es.drop k with
  | cons =>
    rw [drop_append_of_cons hdrop [z]]
    dsimp only
    rw [hgoOn]
  | nil =>
    rw [drop_append, hdrop, nil_append]
    cases hover : k - es.length with
    | zero =>
      rw [drop_zero]
      dsimp only
      rw [hz]
      rfl
    | succ => rw [drop_succ_cons, drop_nil]

mutual

/-- **Ordered choices of words overlook an element that none of them names.** -/
theorem overlooks_reads :
    ∀ p : Pattern, p.isVerbal = true → p.IsOrderedPart →
      (∀ text ∈ p.words, z.isNamed text = false) →
    Overlooks z p.reads
  | .word text, _, _, hz => by
    refine ⟨fun es => ?_, fun _ _ => rfl⟩
    rw [reads_word_eq, hz text mem_cons_self]
    rfl
  | .maybe p, hp, hordered, hz => by
    rcases hordered with hordered | ⟨q, hq, helementary⟩
    · cases hordered
    · obtain rfl := Pattern.maybe.inj hq
      exact overlooks_reads p hp (.inl (isOrdered_of_isElementary p helementary)) hz
  | .repeated p, _, hordered, _ => by
    rcases hordered with hordered | ⟨q, hq, -⟩
    · cases hordered
    · cases hq
  | .seq ps, hps, hordered, hz => by
    rcases hordered with hordered | ⟨q, hq, -⟩
    · have hps := Bool.and_eq_true_iff.mp hps
      exact overlooks_readsSeq ps hps.2 hordered hz
    · cases hq
  | .oneOf ps, hps, hordered, hz => by
    rcases hordered with hordered | ⟨q, hq, -⟩
    · exact overlooks_readsOneOf ps hps hordered hz
    · cases hq

theorem overlooks_readsSeq : ∀ ps : List Pattern, allVerbal ps = true → seqIsOrdered ps = true →
    (∀ text ∈ wordsOfAll ps, z.isNamed text = false) → Overlooks z (readsSeq ps)
  | p :: ps, hps, hordered, hz => by
    rw [allVerbal_cons] at hps
    rw [forall_mem_wordsOfAll] at hz
    obtain ⟨hp, hrest, hlast⟩ := isOrderedPart_of_cons hordered
    obtain ⟨hnone, hsame⟩ := overlooks_reads p hps.1 hp hz.1
    unfold Overlooks readsSeq
    -- the last part counts for itself, and all others go on behind them
    cases hempty : ps.isEmpty with
    | true =>
      rw [hlast hempty]
      exact ⟨fun es => by rw [hnone es]; rfl, fun e es => by rw [hsame e es]; rfl⟩
    | false =>
      obtain ⟨hrefused, hgoOn⟩ := overlooks_readsSeq ps hps.2 (hrest hempty) hz.2
      refine ⟨fun es => ?_, fun e es => ?_⟩
      · rw [hnone es, hrefused es]
        exact ite_self none
      · rw [hsame e es, hgoOn e es]
        cases p.reads e es with
        | some k => exact readsBehind_append (hrefused []) hgoOn k es
        | none => rfl

theorem overlooks_readsOneOf : ∀ ps : List Pattern, allVerbal ps = true → allOrdered ps = true →
    (∀ text ∈ wordsOfAll ps, z.isNamed text = false) → Overlooks z (readsOneOf ps)
  | [], _, _, _ => ⟨fun _ => rfl, fun _ _ => rfl⟩
  | p :: ps, hps, hordered, hz => by
    rw [allVerbal_cons] at hps
    have hordered := Bool.and_eq_true_iff.mp hordered
    rw [forall_mem_wordsOfAll] at hz
    obtain ⟨hnone, hsame⟩ := overlooks_reads p hps.1 (.inl hordered.1) hz.1
    obtain ⟨hrefused, hgoOn⟩ := overlooks_readsOneOf ps hps.2 hordered.2 hz.2
    unfold Overlooks readsOneOf
    exact ⟨fun es => by rw [hnone es, hrefused es]; rfl, fun e es => by rw [hsame e es, hgoOn e es]⟩

end

theorem reads_append_stranger (p : Pattern) (hp : p.isVerbal = true) (hordered : p.IsOrderedPart)
    (hz : ∀ text ∈ p.words, z.isNamed text = false) (e : Element) (es : List Element) :
    p.reads e (es ++ [z]) = p.reads e es :=
  (overlooks_reads p hp hordered hz).2 e es

/-- The readings of an ordered choice as such and as a pattern are the same. -/
theorem used_reading_of_isOrdered (h : p.isOrdered = true) (e : Element) (es : List Element) :
    (p.reading .exhausted e (code es)).used = p.reads e (code es) := by
  have hagrees : Outcome.Agrees .exhausted _ (p.reading .exhausted e (code es)) :=
    agrees_reading p h e (code es)
  cases hread : p.reading .exhausted e (code es) with
  | fits | refused => rw [hread] at hagrees; exact hagrees.symm
  | stopped => rw [hread] at hagrees; exact (hagrees.2 hagrees.1).symm

end Ordered

/-! ### One more element -/

/-- The outcome in the form that a match gives it. -/
def Outcome.answer : Outcome → Except Fault Bool
  | .fits _ => .ok true
  | .refused => .ok false
  | .stopped f => .error f

/-- What an attempt comes to is what the reading says. -/
theorem outcomeOn_eq (hp : p.isPlain = true) (e : Element) (s : Lookahead Element) :
    p.outcomeOn e s = (p.reading s.ending e (code s.toList)).answer := by
  have hmeets := meets_opened hp e s
  unfold outcomeOn
  generalize p.reading s.ending e (code s.toList) = outcome at hmeets ⊢
  generalize (p.fits e).runOn s.begun = reached at hmeets ⊢
  cases hmeets with
  | fits | refused | stopped => rfl

/-- What comes behind the code that is counted does not matter. -/
theorem upTo_append {k : Nat} (h : k ≤ (code es).length) (more : List Element) :
    upTo k (es ++ more) = upTo k es := by
  induction es generalizing k with
  | nil =>
    obtain rfl : k = 0 := Nat.le_zero.mp h
    rw [upTo_zero, upTo_zero]
  | cons e es ih =>
    cases k with
    | zero => rw [upTo_zero, upTo_zero]
    | succ =>
      rw [cons_append, upTo, upTo]
      refine congrArg (e :: ·) (ih ?_)
      cases he : e.isCode with
      | true =>
        rw [code_cons_of_isCode he, length_cons] at h
        exact Nat.le_of_succ_le_succ h
      | false =>
        rw [code_cons_of_not_isCode he] at h
        exact h

variable {p : Pattern} {e z : Element} {s s' : Lookahead Element}

/-- With one more element, the same is taken exactly if the readings use as much. -/
theorem takenOn_eq_iff (hp : p.isPlain = true) (hs : s.looking = false) (hs' : s'.looking = false)
    (hend : s.broken = none) (hend' : s'.broken = none) (hlist : s'.toList = s.toList ++ [z]) :
    p.takenOn e s' = p.takenOn e s ↔ (p.reading .exhausted e (code (s.toList ++ [z]))).used =
      (p.reading .exhausted e (code s.toList)).used := by
  have hending : s.ending = .exhausted := by rw [ending, hend]; rfl
  have hending' : s'.ending = .exhausted := by rw [ending, hend']; rfl
  rw [takenOn_eq hp e hs, takenOn_eq hp e hs', hending, hending', hlist]
  have hle : ∀ k, (p.reading .exhausted e (code s.toList)).used = some k → _ := fun _ => used_le hp
  have hle' : ∀ k, (p.reading .exhausted e (code (s.toList ++ [z]))).used = some k → _ :=
    fun _ => used_le hp
  generalize (p.reading .exhausted e (code s.toList)).used = used at hle ⊢
  generalize (p.reading .exhausted e (code (s.toList ++ [z]))).used = used' at hle' ⊢
  constructor
  · intro h
    cases used with
    | none => exact Option.map_eq_none_iff.mp h
    | some k =>
      cases used' with
      | none => cases h
      | some k' =>
        -- as many elements of code are taken as are used
        have hcode := congrArg (fun es => (code es).length) (List.cons.inj (Option.some.inj h)).2
        simp only [code_upTo, length_take] at hcode
        have hk := hle k rfl
        have hk' := hle' k' rfl
        rw [Nat.min_eq_left hk, Nat.min_eq_left hk'] at hcode
        rw [hcode]
  · rintro rfl
    cases used' with
    | none => rfl
    | some k => exact congrArg (fun es => some (e :: es)) (upTo_append (hle k rfl) [z])

/-- **The end of a stream and an element that nothing names.** An attempt with a pattern that is
made of words is made on a stream, and on one with one more element that none of the words names. It
takes what the reading of the pattern says, and it takes the same on both streams exactly if that
element is a blank or a comment, or if the reading uses as much with any stranger at the end as
without one. So it is if the attempt does not ask for anything behind the last element, which shows
in what it would do if there were a fault there, and so it is for all ordered choices. -/
theorem takenOn_append (hp : p.isVerbal = true) (hz : ∀ text ∈ p.words, z.isNamed text = false)
    (hs : s.looking = false) (hs' : s'.looking = false) (hend : s.broken = none)
    (hend' : s'.broken = none) (hlist : s'.toList = s.toList ++ [z]) :
    (p.takenOn e s = (p.reading .exhausted e (code s.toList)).used.map fun k =>
      e :: upTo k s.toList) ∧
      (p.takenOn e s' = p.takenOn e s ↔ z.isCode = false ∨
        (p.reading .exhausted e (code s.toList ++ [stranger])).used =
          (p.reading .exhausted e (code s.toList)).used) ∧
      (∀ f ≠ .exhausted, p.outcomeOn e { s with broken := some f } ≠ .error f →
        p.takenOn e s' = p.takenOn e s) ∧
      (p.isOrdered = true → p.takenOn e s' = p.takenOn e s) := by
  have hplain := isPlain_of_isVerbal p hp
  rw [takenOn_eq_iff hplain hs hs' hend hend' hlist, code_append]
  refine ⟨?_, ?_, ?_, ?_⟩
  · rw [takenOn_eq hplain e hs, ending, hend]
    rfl
  · cases hcode : z.isCode with
    | false =>
      rw [code_eq_nil (forall_mem_singleton.mpr hcode), append_nil]
      exact iff_of_true rfl (.inl rfl)
    | true =>
      -- no word of the pattern names either of the two
      have hsame : Forall₂ (SameNames p.words) (code s.toList ++ [z])
          (code s.toList ++ [stranger]) :=
        rel_append (forall₂_same.mpr fun x _ => .refl p.words x) (.cons hz .nil)
      have hcongr : p.reading .exhausted e _ = p.reading .exhausted e _ :=
        reading_congr p hp (fun _ h => h) e e _ _ (.refl p.words e) hsame
      rw [show code [z] = [z] from code_cons_of_isCode hcode [], hcongr]
      exact ⟨.inr, fun h => h.resolve_left Bool.noConfusion⟩
  · intro f hf hanswer
    rw [outcomeOn_eq hplain] at hanswer
    -- a fault at the end is not seen, so that nothing is asked for there
    have hunasked : p.reading f e (code s.toList) ≠ .stopped f :=
      fun h => hanswer (congrArg Outcome.answer h)
    have hsame : ∀ more, p.reading .exhausted e (code s.toList ++ more) =
        p.reading f e (code s.toList) :=
      fun more => reading_append hf p hplain e _ hunasked
    rw [hsame, ← hsame [], append_nil]
  · intro hordered
    have hreads := used_reading_of_isOrdered hordered e
    rw [← code_append, hreads, hreads, code_append]
    cases hcode : z.isCode with
    | false => rw [code_eq_nil (forall_mem_singleton.mpr hcode), append_nil]
    | true =>
      rw [show code [z] = [z] from code_cons_of_isCode hcode []]
      exact reads_append_stranger p hp (.inl hordered) hz e (code s.toList)

/-- Two words again and again and a full stop: the attempt comes to its answer before the end. -/
theorem takenOn_append_sentence :
    let p := Pattern.seq [.repeated (.word "go"), .word "."]
    let s := Lookahead.ofList [ofWord "Go", ofWord "."]
    let s' := Lookahead.ofList [ofWord "Go", ofWord ".", ofWord "no"]
    p.isVerbal = true ∧ (∀ text ∈ p.words, (ofWord "no").isNamed text = false) ∧
      p.outcomeOn (ofWord "go") { s with broken := some .atRest } ≠ .error .atRest ∧
      p.takenOn (ofWord "go") s' = p.takenOn (ofWord "go") s := by
  intro p s s'
  have hwords : ∀ text ∈ p.words, (ofWord "no").isNamed text = false := by decide
  have hanswer : p.outcomeOn (ofWord "go") { s with broken := some .atRest } ≠ .error .atRest := by
    rw [show p.outcomeOn (ofWord "go") { s with broken := some .atRest } = .ok true from rfl]
    intro hfault
    cases hfault
  refine ⟨rfl, hwords, hanswer, ?_⟩
  obtain ⟨-, -, hsame, -⟩ := @takenOn_append p (ofWord "go")
    (ofWord "no") s s' rfl hwords rfl rfl rfl rfl rfl
  exact hsame .atRest Fault.noConfusion hanswer

/-- Three patterns that tell the end of a stream from an element that nothing names. A word that is
repeated up to the end is not taken; an alternative that could be longer is given up for the next
one; and what comes after such an alternative can then fit just at the end. -/
theorem takenOn_end_ne_takenOn_stranger :
    let a := ofWord "a"
    let b := ofWord "b"
    let z := ofWord "z"
    let again := Pattern.repeated (.word "a")
    let longer := Pattern.oneOf [.seq [.word "a", .word "b", .maybe (.word "c")], .word "a"]
    let after := Pattern.seq [longer, .word "b"]
    (again.takenOn a (.ofList [a]) = none ∧ again.takenOn a (.ofList [a, z]) = some [a, a]) ∧
      (longer.takenOn a (.ofList [b]) = some [a] ∧
        longer.takenOn a (.ofList [b, z]) = some [a, b]) ∧
      (after.takenOn a (.ofList [b]) = some [a, b] ∧ after.takenOn a (.ofList [b, z]) = none) := by
  exact ⟨⟨rfl, rfl⟩, ⟨rfl, rfl⟩, rfl, rfl⟩

end Pattern

end EztScan
