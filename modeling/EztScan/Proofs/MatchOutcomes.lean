import EztScan.Proofs.OrderedChoice

/-!
# What comes of a match

Ordered choice (`Pattern.reads`) knows only two outcomes of a match. Once parts are repeated, or
left out at the end of a sequence, there is a third one: a match asks for the next code where there
is none, and then stops as a whole, except that among alternatives the next one is tried.
`Pattern.reading` says what comes of a match of any pattern that makes no tests of its own, on an
element and the code behind it: it fits and uses some of that code, it is refused, or it stops.

A sequence notes the place it was at, in case its last part does not count. Its reading keeps the
number of elements up to that place, `last`, beside the number `n` of those up to the element that
it has come to.

`Pattern.meets_fits` shows that a match inside a lookahead does just this, and `Pattern.takenOn_eq`
what attempts as a whole take. Where all comes down to ordered choice, the two ways to read a
pattern agree (`Pattern.agrees_reading`), so that attempts do what ordered choice says
(`Pattern.reads_of_takes`, `Pattern.reads_of_refuses`).
-/

namespace EztScan

variable {p : Pattern} {m : Nat} {last place : Option Nat} {e : Element}

namespace Pattern

open Work Attempt Element Lookahead

/-- What comes of a match: it fits and uses so many elements of code behind the one it is tried on,
it is refused, or it stops. -/
inductive Outcome where
  | fits (used : Nat)
  | refused
  | stopped (f : Fault)
deriving DecidableEq

/-- How much code is used, where the match fits. -/
def Outcome.used : Outcome → Option Nat
  | .fits k => some k
  | _ => none

/-- The outcome at the place that was noted, if there is one. -/
def backAt : Option Nat → Outcome
  | some k => .fits k
  | none => .stopped .placeMissing

/-- What comes of a sequence whose last part is this one, which uses the elements up to the given
one, or is refused. -/
def endReading (last : Option Nat) : Pattern → Option Nat → Outcome
  | .maybe _, none => backAt last
  | .notFollowedBy _, some _ => backAt last
  | .notFollowedBy _, none => if last.isSome then .refused else .stopped .placeMissing
  | _, some k => .fits k
  | _, none => .refused

/-- What comes of a match again and again, from the element that the first `n` lead to. -/
def readingWhile (ending : Fault) (step : Element → List Element → Outcome) (last : Option Nat)
    (n : Nat) (e : Element) (es : List Element) : Outcome :=
  match step e es with
  | .fits k =>
    match _h : es.drop k with
    | x :: xs => readingWhile ending step (some (n + k)) (n + k + 1) x xs
    | [] => .stopped ending
  | .refused => (last.map .fits).getD .refused
  | .stopped f => .stopped f
termination_by es.length
decreasing_by
  have hlength := congrArg List.length _h
  rw [List.length_drop, List.length_cons] at hlength
  omega

section

variable {ending : Fault} {step : Element → List Element → Outcome} {last : Option Nat} {n k : Nat}
  {e x : Element} {es xs : List Element}

/-- How much there is if something is left behind the first `k` elements. -/
theorem length_of_drop (h : es.drop k = x :: xs) : es.length = k + (xs.length + 1) := by
  have hlength := congrArg List.length h
  rw [List.length_drop, List.length_cons] at hlength
  omega

theorem readingWhile_of_cons (h : step e es = .fits k) (hdrop : es.drop k = x :: xs) :
    readingWhile ending step last n e es = readingWhile ending step (some (n + k))
      (n + k + 1) x xs := by
  rw [readingWhile, h]
  dsimp only
  split
  next hdrop' =>
    obtain ⟨rfl, rfl⟩ := List.cons.inj (hdrop'.symm.trans hdrop)
    rfl
  next hdrop' => cases hdrop'.symm.trans hdrop

theorem readingWhile_of_nil (h : step e es = .fits k) (hdrop : es.drop k = []) :
    readingWhile ending step last n e es = .stopped ending := by
  rw [readingWhile, h]
  dsimp only
  split
  next hdrop' => cases hdrop'.symm.trans hdrop
  next => rfl

theorem readingWhile_of_refused (h : step e es = .refused) :
    readingWhile ending step last n e es = (last.map .fits).getD .refused := by
  rw [readingWhile, h]

theorem readingWhile_of_stopped {f : Fault} (h : step e es = .stopped f) :
    readingWhile ending step last n e es = .stopped f := by
  rw [readingWhile, h]

end

mutual

/-- What comes of a match on an element and the code behind it, if the stream ends in this fault. -/
def reading (ending : Fault) : Pattern → Element → List Element → Outcome
  | .maybe p, e, es => reading ending p e es
  | .seq ps, e, es => readingSeq ending ps none 0 e es
  | .oneOf ps, e, es => readingOneOf ending ps e es
  | .repeated p, e, es => readingWhile ending (fun e es => reading ending p e es) none 0 e es
  | .notFollowedBy p, e, es => if (p.reads e es).isSome then .refused else .fits 0
  | p, e, es => if (p.reads e es).isSome then .fits 0 else .refused

/-- The same for patterns one after the other, from the element on that the first `n` lead to. -/
def readingSeq (ending : Fault) : List Pattern → Option Nat → Nat → Element → List Element → Outcome
  | [], _, _, _, _ => .stopped .sequenceEmpty
  | p :: ps, last, n, e, es =>
    match reading ending p e es with
    | .fits k =>
      if ps.isEmpty then endReading last p (some (n + k))
      else
        match es.drop k with
        | x :: xs => readingSeq ending ps (some (n + k)) (n + k + 1) x xs
        | [] => .stopped ending
    | .refused =>
      if ps.isEmpty then endReading last p none
      else if p.isMaybe then readingSeq ending ps (some n) n e es
      else .refused
    | .stopped f => .stopped f

/-- The same for the first of some patterns that fits. One that only stops at the end of the stream
counts as refused. -/
def readingOneOf (ending : Fault) : List Pattern → Element → List Element → Outcome
  | [], _, _ => .refused
  | p :: ps, e, es =>
    match reading ending p e es with
    | .fits k => .fits k
    | .refused | .stopped .exhausted => readingOneOf ending ps e es
    | .stopped f => .stopped f

end

mutual

/-- Does the pattern make no tests of its own, and are only elementary ones turned into their
opposite? -/
def isPlain : Pattern → Bool
  | .maybe p | .repeated p => p.isPlain
  | .seq ps | .oneOf ps => allPlain ps
  | .notFollowedBy p => p.isElementary
  | p => p.isElementary

/-- Are all of these patterns of that form? -/
def allPlain : List Pattern → Bool
  | [] => true
  | p :: ps => p.isPlain && allPlain ps

end

theorem allPlain_cons {ps : List Pattern} :
    allPlain (p :: ps) = true ↔ p.isPlain = true ∧ allPlain ps = true := by
  rw [allPlain, Bool.and_eq_true]

end Pattern

/-! ### Having seen some code -/

namespace Lookahead

open Element

/-- From the state `b` on, a lookahead has gone on over `n` elements of code, and no further. -/
structure Seen (b : Lookahead Element) (n : Nat) (s : Lookahead Element) : Prop where
  gone : Gone b (upTo n b.ahead).length s
  le : n ≤ (code b.ahead).length

variable {b s t : Lookahead Element} {n k : Nat}

theorem Seen.refl (hs : s.Opened) : Seen s 0 s :=
  ⟨by rw [upTo_zero]; exact .refl hs, Nat.zero_le _⟩

theorem Seen.code_ahead (h : Seen b n s) : code s.ahead = (code b.ahead).drop n := by
  rw [h.gone.ahead, code_drop_upTo]

theorem Seen.trans (h : Seen b n s) (h' : Seen s k t) : Seen b (n + k) t := by
  refine ⟨?_, ?_⟩
  · rw [upTo_add, List.length_append, ← h.gone.ahead]
    exact h.gone.trans h'.gone
  · have hle := h'.le
    have hle' := h.le
    rw [h.code_ahead, List.length_drop] at hle
    omega

/-- Going back to where the lookahead was before it went on. -/
theorem Seen.back (h : Seen b n s) (hgone : Gone s m t) : Seen b n { t with index := s.index } :=
  ⟨h.gone.trans hgone.back, h.le⟩

/-- With the next code, one more has been seen. -/
theorem Seen.next (h : Seen b n s) {x : Element} {xs : List Element}
    (hcode : code s.ahead = x :: xs) :
    ∃ t m, Attempt.nextCode.runOn s = (.ok x, t) ∧ Gone s m t ∧ Seen b (n + 1) t ∧
      code t.ahead = xs := by
  obtain ⟨t, hnext, hgone⟩ := Attempt.nextCode_of_cons h.gone.opened hcode
  have hone : Seen s 1 t := ⟨hgone, by rw [hcode]; exact Nat.succ_le_succ (Nat.zero_le _)⟩
  refine ⟨t, _, hnext, hgone, h.trans hone, ?_⟩
  rw [hone.code_ahead, hcode]
  rfl

end Lookahead

/-! ### A match does what its reading says -/

namespace Pattern

open Work Attempt Element Lookahead

/-- The outcome of a match that begins in the state `b` is the one that is said: where it fits, the
lookahead stands behind the last element that is used. -/
inductive Meets (b : Lookahead Element) : Outcome → Except Fault Bool × Lookahead Element → Prop
  | fits {k : Nat} {t : Lookahead Element} (hseen : Seen b k t) : Meets b (.fits k) (.ok true, t)
  | refused {m : Nat} {t : Lookahead Element} (hgone : Gone b m t) : Meets b .refused (.ok false, t)
  | stopped {m : Nat} {f : Fault} {t : Lookahead Element} (hgone : Gone b m t) :
      Meets b (.stopped f) (.error f, t)

/-- A match that begins in a state where nothing more has been seen. -/
theorem Meets.gone_zero {b s : Lookahead Element} (hgone : Gone b 0 s) {outcome : Outcome}
    {reached : Except Fault Bool × Lookahead Element} (h : Meets s outcome reached) :
    Meets b outcome reached := by
  cases h with
  | fits hseen =>
    have hstart : Seen b 0 s := ⟨by rw [upTo_zero]; exact hgone, Nat.zero_le _⟩
    have h := hstart.trans hseen
    rw [Nat.zero_add] at h
    exact .fits h
  | refused hgone' => exact .refused (hgone.trans hgone')
  | stopped hgone' => exact .stopped (hgone.trans hgone')

/-- In the state `s`, which was reached from `b`, this is the place that was noted when so many
elements had been seen. -/
inductive Noted (b s : Lookahead Element) : Option Nat → Option Nat → Prop
  | none : Noted b s none none
  | some {j m : Nat} {u : Lookahead Element} (hseen : Seen b j u) (hgone : Gone u m s) :
      Noted b s (some j) (some u.index)

variable {b s t : Lookahead Element} {n : Nat}

theorem Noted.gone (h : Noted b s last place) (hgone : Gone s m t) : Noted b t last place := by
  cases h with
  | none => exact .none
  | some hseen hgone' => exact .some hseen (hgone'.trans hgone)

/-- Going back to the place that was noted. -/
theorem Noted.meets_goBack (h : Noted b t last place) (hgone : Gone b m t) (answer : Bool) :
    Meets b (if answer then backAt last else if last.isSome then .refused
      else .stopped .placeMissing)
      ((endSeq.goBack place answer).runOn t) := by
  cases h with
  | none =>
    cases answer with
    | true | false => exact .stopped hgone
  | some hseen hgone' =>
    cases answer with
    | true => exact .fits (hseen.back hgone')
    | false => exact .refused (hseen.back hgone').gone

/-- The last part of a sequence fits. A test that nothing follows goes back all the same. -/
theorem meets_endSeq (p : Pattern) (hnoted : Noted b t last place) {k : Nat} (hseen : Seen b k t) :
    Meets b (endReading last p (some k)) ((p.endSeq place true).runOn t) := by
  have hback := hnoted.meets_goBack hseen.gone true
  cases p with
  | notFollowedBy => exact hback
  | _ => exact .fits hseen

theorem meets_endSeq_of_refused (p : Pattern) (hnoted : Noted b t last place) (hgone : Gone b m t) :
    Meets b (endReading last p none) ((p.endSeq place false).runOn t) := by
  cases p with
  | «maybe» => exact hnoted.meets_goBack hgone true
  | notFollowedBy => exact hnoted.meets_goBack hgone false
  | _ => exact .refused hgone

theorem exists_of_isMaybe (h : p.isMaybe = true) : ∃ q, p = .maybe q := by
  cases p with
  | «maybe» q => exact ⟨q, rfl⟩
  | _ => cases h

/-- A part that may be left out goes back to where it began. -/
theorem index_of_refused_maybe (h : ((Pattern.maybe p).fits e).runOn s = (.ok false, t)) :
    t.index = s.index := by
  unfold fits at h
  rw [runOn_bind] at h
  change (Work.runOn (p.fits e >>= _) s) = _ at h
  rw [runOn_bind] at h
  rcases hfits : (p.fits e).runOn s with ⟨outcome, u⟩
  rw [hfits] at h
  cases outcome with
  | ok found =>
    cases found with
    | true => cases h
    | false =>
      obtain ⟨-, rfl⟩ := Prod.mk.inj h
      rfl
  | error => cases h

theorem meets_of_isElementary (h : p.isElementary = true) (hs : s.Opened) :
    Meets s (if (p.reads e (code s.ahead)).isSome then .fits 0 else .refused)
      ((p.fits e).runOn s) := by
  obtain ⟨found, hfits, hreads⟩ := runOn_fits_of_isElementary p h e s
  rw [hfits, hreads]
  cases found with
  | true => exact .fits (.refl hs)
  | false => exact .refused (.refl hs)

/-- **Again and again.** Each round but the first begins with code that the round before has not
seen, so there are no more of them than there is code. -/
theorem meets_whileFits {step : Element → Attempt Bool} {read : Element → List Element → Outcome}
    {ending : Fault}
    (hstep : ∀ (e : Element) (s : Lookahead Element), s.Opened → s.ending = ending →
      Meets s (read e (code s.ahead)) ((step e).runOn s))
    (fuel : Nat) :
    ∀ {b s u : Lookahead Element} (last : Option Nat) {n m : Nat} (e : Element), b.ending = ending →
      Seen b n s →
      Seen b (last.getD 0) u → Gone u m s → (code s.ahead).length < fuel →
      Meets b (readingWhile ending read last n e (code s.ahead))
        ((whileFits step fuel u.index last.isSome e).runOn s) := by
  -- at the end the stream goes back to `u`, where the last round that fitted has ended
  induction fuel with
  | zero =>
    intro b s u last n m e _ _ _ _ hfuel
    exact absurd hfuel (Nat.not_lt_zero _)
  | succ fuel ih =>
    intro b s u last n m e hending hseen hlast hgone hfuel
    have hround := hstep e s hseen.gone.opened (by rw [hseen.gone.ending, hending])
    unfold whileFits
    rw [runOn_bind]
    rcases hrun : (step e).runOn s with ⟨outcome, t⟩
    rw [hrun] at hround
    cases hread : read e (code s.ahead) with
    | fits k =>
      rw [hread] at hround
      obtain ⟨hk⟩ := hround
      have hseen' := hseen.trans hk
      change Meets b _ (Work.runOn (nextCode >>= _) t)
      rw [runOn_bind]
      cases hdrop : (code s.ahead).drop k with
      | cons x =>
        obtain ⟨v, j, hnext, hgone', hv, hcode⟩ := hseen'.next (hk.code_ahead.trans hdrop)
        rw [hnext, readingWhile_of_cons hread hdrop, ← hcode]
        refine ih (some (n + k)) x hending hv hseen' hgone' ?_
        have hlength := length_of_drop hdrop
        rw [hcode]
        omega
      | nil =>
        obtain ⟨v, j, hnext, hgone'⟩ := nextCode_of_nil hk.gone.opened (hk.code_ahead.trans hdrop)
        rw [hnext, readingWhile_of_nil hread hdrop, hseen'.gone.ending, hending]
        exact .stopped (hseen'.gone.trans hgone')
    | refused =>
      rw [readingWhile_of_refused hread]
      rw [hread] at hround
      cases hround with
      | refused hgone' =>
        have hback := hlast.back (hgone.trans hgone')
        cases last with
        | none => exact .refused hback.gone
        | some => exact .fits hback
    | stopped =>
      rw [readingWhile_of_stopped hread]
      rw [hread] at hround
      cases hround with
      | stopped hgone' => exact .stopped (hseen.gone.trans hgone')

mutual

/-- **A match does what its reading says.** -/
theorem meets_fits :
    ∀ (p : Pattern), p.isPlain = true → ∀ (e : Element) (s : Lookahead Element), s.Opened →
    Meets s (p.reading s.ending e (code s.ahead)) ((p.fits e).runOn s)
  | .maybe p, h, e, s, hs => by
    have hp := meets_fits p h e s hs
    unfold fits reading
    rw [runOn_bind]
    change Meets s _ (Work.runOn (p.fits e >>= _) s)
    rw [runOn_bind]
    generalize p.reading s.ending e (code s.ahead) = outcome at hp ⊢
    generalize (p.fits e).runOn s = reached at hp ⊢
    cases hp with
    | fits hseen => exact .fits hseen
    | refused hgone => exact .refused hgone.back
    | stopped hgone => exact .stopped hgone
  | .seq ps, h, e, s, hs => by
    unfold fits reading
    exact meets_fitsSeq ps h (.refl hs) .none e
  | .oneOf ps, h, e, s, hs => by
    unfold fits reading
    exact meets_fitsOneOf ps h e s hs
  | .repeated p, h, e, s, hs => by
    unfold fits reading
    -- there are at least as many rounds as there is code
    have hfuel : (code s.ahead).length < s.toList.length + 1 := by
      have hcode : (code s.ahead).length ≤ s.ahead.length := List.length_filter_le _ _
      have hahead : s.ahead.length ≤ s.toList.length := by
        unfold Lookahead.ahead
        rw [List.length_drop]
        exact Nat.sub_le _ _
      omega
    have hround : ∀ (e : Element) (t : Lookahead Element), t.Opened → t.ending = s.ending →
        Meets t (p.reading s.ending e (code t.ahead)) ((p.fits e).runOn t) := by
      intro e t ht hending
      rw [← hending]
      exact meets_fits p h e t ht
    exact meets_whileFits hround (s.toList.length + 1) none e rfl (.refl hs) (.refl hs)
      (.refl hs) hfuel
  | .notFollowedBy p, h, e, s, hs => by
    unfold fits reading
    rw [runOn_bind]
    obtain ⟨found, hfits, hreads⟩ := runOn_fits_of_isElementary p h e s
    rw [hfits, hreads]
    cases found with
    | true => exact .refused (.refl hs)
    | false => exact .fits (.refl hs)
  | .never, h, e, s, hs | .word _, h, e, s, hs | .kind _, h, e, s, hs | .exactly _, h, e, s, hs
  | .refuse _, h, e, s, hs | .any, h, e, s, hs | .node _, h, e, s, hs => meets_of_isElementary h hs

/-- Along a sequence, the place noted last is where its last part can go back to. -/
theorem meets_fitsSeq :
    ∀ (ps : List Pattern), allPlain ps = true →
    ∀ {b s : Lookahead Element} {last place : Option Nat} {n : Nat}, Seen b n s →
      Noted b s last place → ∀ e : Element,
      Meets b (readingSeq b.ending ps last n e (code s.ahead)) ((fitsSeq place ps e).runOn s)
  | [], _, b, s, _, _, _, hseen, _, e => .stopped hseen.gone
  | p :: ps, h, b, s, last, place, n, hseen, hnoted, e => by
    rw [allPlain_cons] at h
    have hp := meets_fits p h.1 e s hseen.gone.opened
    rw [hseen.gone.ending] at hp
    unfold fitsSeq readingSeq
    rw [runOn_bind]
    rcases hfits : (p.fits e).runOn s with ⟨outcome, t⟩
    rw [hfits] at hp
    cases hread : p.reading b.ending e (code s.ahead) with
    | fits =>
      rw [hread] at hp
      obtain ⟨hk⟩ := hp
      have hseen' := hseen.trans hk
      dsimp only
      by_cases hps : ps.isEmpty = true
      · rw [if_pos hps, if_pos hps]
        exact meets_endSeq p (hnoted.gone hk.gone) hseen'
      · rw [if_neg hps, if_neg hps]
        change Meets b _ (Work.runOn (nextCode >>= _) t)
        rw [runOn_bind]
        split
        next x xs hdrop =>
          obtain ⟨u, m, hnext, hgone, hu, hcode⟩ := hseen'.next (hk.code_ahead.trans hdrop)
          rw [hnext, ← hcode]
          -- the place to go back to is now behind the part that fitted
          exact meets_fitsSeq ps h.2 hu (.some hseen' hgone) x
        next hdrop =>
          obtain ⟨u, m, hnext, hgone⟩ := nextCode_of_nil hk.gone.opened (hk.code_ahead.trans hdrop)
          rw [hnext, hseen'.gone.ending]
          exact .stopped (hseen'.gone.trans hgone)
    | refused =>
      rw [hread] at hp
      cases hp with
      | @refused m _ hgone =>
        dsimp only
        by_cases hps : ps.isEmpty = true
        · rw [if_pos hps, if_pos hps]
          exact meets_endSeq_of_refused p (hnoted.gone hgone) (hseen.gone.trans hgone)
        · rw [if_neg hps, if_neg hps]
          cases hmaybe : p.isMaybe with
          | false => exact .refused (hseen.gone.trans hgone)
          | true =>
            -- the rest is tried on the same element, and the place is noted behind it
            obtain ⟨q, rfl⟩ := exists_of_isMaybe hmaybe
            have hindex := index_of_refused_maybe hfits
            have hstay : Gone s 0 t := { hgone with index := hindex }
            have hahead : t.ahead = s.ahead := by rw [hstay.ahead, List.drop_zero]
            have hseen' : Seen b n t := ⟨hseen.gone.trans hstay, hseen.le⟩
            rw [← hahead]
            exact meets_fitsSeq ps h.2 hseen' (.some hseen' (.refl hseen'.gone.opened)) e
    | stopped =>
      rw [hread] at hp
      cases hp with
      | stopped hgone => exact .stopped (hseen.gone.trans hgone)

theorem meets_fitsOneOf :
    ∀ (ps : List Pattern), allPlain ps = true → ∀ (e : Element) (s : Lookahead Element), s.Opened →
    Meets s (readingOneOf s.ending ps e (code s.ahead)) ((fitsOneOf ps e).runOn s)
  | [], _, e, s, hs => .refused (.refl hs)
  | p :: ps, h, e, s, hs => by
    rw [allPlain_cons] at h
    have hp := meets_fits p h.1 e s hs
    -- the next alternatives are tried from the place where this one has begun
    have hrest : ∀ {m t}, Gone s m t →
        Meets s (readingOneOf s.ending ps e (code s.ahead))
          ((fitsOneOf ps e).runOn { t with index := s.index }) := by
      intro m t hgone
      have hback := hgone.back
      have hahead : Lookahead.ahead { t with index := s.index } = s.ahead := by
        rw [hback.ahead, List.drop_zero]
      have hps := meets_fitsOneOf ps h.2 e _ hback.opened
      rw [hahead, hback.ending] at hps
      exact hps.gone_zero hback
    unfold fitsOneOf readingOneOf
    rw [runOn_bind]
    change Meets s _ (Work.runOn ((p.fits e).attempt >>= _) s)
    rw [runOn_bind, runOn_attempt]
    generalize p.reading s.ending e (code s.ahead) = outcome at hp ⊢
    generalize (p.fits e).runOn s = reached at hp ⊢
    cases hp with
    | fits hseen => exact .fits hseen
    | refused hgone => exact hrest hgone
    | @stopped m f t hgone =>
      cases f with
      | exhausted => exact hrest hgone
      | _ => exact .stopped hgone

end

/-! ### Ordered choice -/

variable {ending : Fault}

mutual

theorem isPlain_of_isOrdered : ∀ p : Pattern, p.isOrdered = true → p.isPlain = true
  | .oneOf ps, h => allPlain_of_allOrdered ps h
  | .seq ps, h => allPlain_of_seqIsOrdered ps h
  | .never, h | .word _, h | .kind _, h | .exactly _, h | .refuse _, h | .any, h | .node _, h => h

theorem allPlain_of_allOrdered : ∀ ps : List Pattern, allOrdered ps = true → allPlain ps = true
  | [], _ => rfl
  | p :: ps, h => by
    have h := Bool.and_eq_true_iff.mp h
    exact allPlain_cons.mpr ⟨isPlain_of_isOrdered p h.1, allPlain_of_allOrdered ps h.2⟩

theorem allPlain_of_seqIsOrdered : ∀ ps : List Pattern, seqIsOrdered ps = true → allPlain ps = true
  | [p], h => allPlain_cons.mpr ⟨isPlain_of_isOrdered p h, rfl⟩
  | p :: q :: ps, h => by
    obtain ⟨hp | ⟨p, rfl, hp⟩, hps⟩ := of_seqIsOrdered_cons h
    · exact allPlain_cons.mpr ⟨isPlain_of_isOrdered p hp, allPlain_of_seqIsOrdered (q :: ps) hps⟩
    · exact allPlain_cons.mpr
        ⟨isPlain_of_isOrdered p (isOrdered_of_isElementary p hp),
          allPlain_of_seqIsOrdered (q :: ps) hps⟩

end

mutual

/-- An elementary pattern never asks for the next code. -/
theorem reading_of_isElementary :
    ∀ p : Pattern, p.isElementary = true → ∀ (e : Element) (es : List Element),
    p.reading ending e es = if (p.reads e es).isSome then .fits 0 else .refused
  | .oneOf ps, h, e, es => readingOneOf_of_allElementary ps h e es
  | .never, _, _, _ | .word _, _, _, _ | .kind _, _, _, _ | .exactly _, _, _, _
  | .refuse _, _, _, _ | .any, _, _, _ | .node _, _, _, _ => rfl

theorem readingOneOf_of_allElementary :
    ∀ ps : List Pattern, allElementary ps = true → ∀ (e : Element) (es : List Element),
    readingOneOf ending ps e es = if (readsOneOf ps e es).isSome then .fits 0 else .refused
  | [], _, _, _ => rfl
  | p :: ps, h, e, es => by
    have h := Bool.and_eq_true_iff.mp h
    unfold readingOneOf readsOneOf
    rw [reading_of_isElementary p h.1, readingOneOf_of_allElementary ps h.2]
    cases p.reads e es with
    | none | some => rfl

end

/-- What comes of a match is what ordered choice says about it. Where the stream ends too early, the
pattern does not fit, unless the stream ends in a fault of its own, which then goes on. -/
def Outcome.Agrees (ending : Fault) (used : Option Nat) : Outcome → Prop
  | .fits k => used = some k
  | .refused => used = none
  | .stopped f => f = ending ∧ (f = .exhausted → used = none)

theorem agrees_of_isElementary (h : p.isElementary = true) (e : Element) (es : List Element) :
    (p.reading ending e es).Agrees ending (p.reads e es) := by
  rw [reading_of_isElementary p h, reads_of_isElementary h]
  cases (p.reads e []).isSome with
  | true | false => rfl

/-- Where parts count for what they are, nothing goes back at the end. -/
theorem endReading_of_isOrdered (h : p.isOrdered = true) (last used : Option Nat) :
    endReading last p used = (used.map .fits).getD .refused := by
  cases p with
  | «maybe» | notFollowedBy => exact nomatch h
  | _ => cases used <;> rfl

mutual

/-- **Ordered patterns are ordered choice**, whatever the fault that the stream ends in. -/
theorem agrees_reading : ∀ p : Pattern, p.isOrdered = true → ∀ (e : Element) (es : List Element),
    (p.reading ending e es).Agrees ending (p.reads e es)
  | .oneOf ps, h, e, es => agrees_readingOneOf ps h e es
  | .seq ps, h, e, es => by
    have hseq := agrees_readingSeq ps h none 0 e es
    rw [show (0 + · : Nat → Nat) = id from funext Nat.zero_add, Option.map_id] at hseq
    exact hseq
  | .never, h, e, es | .word _, h, e, es | .kind _, h, e, es | .exactly _, h, e, es
  | .refuse _, h, e, es | .any, h, e, es | .node _, h, e, es => agrees_of_isElementary h e es

theorem agrees_readingOneOf :
    ∀ ps : List Pattern, allOrdered ps = true → ∀ (e : Element) (es : List Element),
    (readingOneOf ending ps e es).Agrees ending (readsOneOf ps e es)
  | [], _, _, _ => rfl
  | p :: ps, h, e, es => by
    have h := Bool.and_eq_true_iff.mp h
    have hp := agrees_reading p h.1 e es
    have hps := agrees_readingOneOf ps h.2 e es
    unfold readingOneOf readsOneOf
    generalize p.reading ending e es = outcome at hp ⊢
    cases outcome with
    | fits k =>
      rw [show p.reads e es = some k from hp]
      rfl
    | refused =>
      rw [show p.reads e es = none from hp]
      exact hps
    | stopped f =>
      -- at the end of the stream the others are tried, and elsewhere its fault goes on
      cases f with
      | exhausted =>
        rw [hp.2 rfl]
        exact hps
      | _ => exact ⟨hp.1, nofun⟩

theorem agrees_readingSeq : ∀ ps : List Pattern, seqIsOrdered ps = true →
    ∀ (last : Option Nat) (n : Nat) (e : Element) (es : List Element),
      (readingSeq ending ps last n e es).Agrees ending ((readsSeq ps e es).map (n + ·))
  | [p], h, last, n, e, es => by
    have hp := agrees_reading p h e es
    unfold readingSeq readsSeq
    rw [isMaybe_of_isOrdered h]
    generalize p.reading ending e es = outcome at hp ⊢
    cases outcome with
    | fits k =>
      rw [show p.reads e es = some k from hp]
      change Outcome.Agrees ending (some (n + k)) (endReading last p (some (n + k)))
      rw [endReading_of_isOrdered h]
      rfl
    | refused =>
      rw [show p.reads e es = none from hp]
      change Outcome.Agrees ending none (endReading last p none)
      rw [endReading_of_isOrdered h]
      rfl
    | stopped => exact ⟨hp.1, fun hend => by rw [hp.2 hend]; rfl⟩
  | p :: q :: ps, h, last, n, e, es => by
    obtain ⟨hp, hps⟩ := of_seqIsOrdered_cons h
    -- the rest goes on behind the first `k` elements
    have hrest (k : Nat) {outcome : Outcome} (hnil : es.drop k = [] → outcome = .stopped ending)
        (hcons : ∀ x xs, es.drop k = x :: xs →
          outcome = readingSeq ending (q :: ps) (some (n + k)) (n + k + 1) x xs) :
        outcome.Agrees ending ((readsBehind (readsSeq (q :: ps)) k es).map (n + ·)) := by
      unfold readsBehind
      cases hdrop : es.drop k with
      | nil =>
        rw [hnil hdrop]
        exact ⟨rfl, fun _ => rfl⟩
      | cons x xs =>
        have hxs := agrees_readingSeq (q :: ps) hps (some (n + k)) (n + k + 1) x xs
        rw [hcons x xs hdrop, Option.map_map]
        simpa only [Function.comp_def, Nat.add_assoc] using hxs
    unfold readingSeq readsSeq
    obtain hp | ⟨p, rfl, hp⟩ := hp
    · have hagrees := agrees_reading p hp e es
      rw [isMaybe_of_isOrdered hp]
      generalize p.reading ending e es = outcome at hagrees ⊢
      cases outcome with
      | fits k =>
        rw [show p.reads e es = some k from hagrees]
        exact hrest k (fun h => by simp [h]) fun x xs h => by simp [h]
      | refused =>
        rw [show p.reads e es = none from hagrees]
        rfl
      | stopped => exact ⟨hagrees.1, fun hend => by rw [hagrees.2 hend]; rfl⟩
    · -- a part that may be left out asks for nothing, whether it fits or not
      unfold reading reads
      rw [reading_of_isElementary p hp, reads_of_isElementary hp]
      cases (p.reads e []).isSome with
      | true => exact hrest 0 (fun h => by simp [h]) fun x xs h => by simp [h]
      | false => exact agrees_readingSeq (q :: ps) hps (some n) n e es

end

/-- **Matching is ordered choice.** Inside a lookahead, a pattern of the fragment fits exactly where
its reading says so, and has then seen all up to the last element that the reading uses. -/
theorem agrees_fits (h : p.isOrdered = true) (e : Element) (hs : s.Opened) : ∃ outcome,
    outcome.Agrees s.ending (p.reads e (code s.ahead)) ∧ Meets s outcome ((p.fits e).runOn s) :=
  ⟨_, agrees_reading p h e (code s.ahead), meets_fits p (isPlain_of_isOrdered p h) e s hs⟩

/-! ### What is taken and what is refused -/

variable {taken rest : List Element} {take : Bool} {k : Nat}

theorem consume_of_gone (hi : s.index = 0) (h : Gone s (upTo k s.toList).length t) :
    t.consume.1 = upTo k s.toList := by
  rw [h.opened.consume_fst, h.toList, h.index, hi, Nat.zero_add, take_length_upTo]

/-- What a pattern takes is all up to the last element that its reading uses. -/
theorem reads_of_takes (hp : p.isOrdered = true) (h : Takes (some p) e taken rest) :
    ∃ k, p.reads e (code (taken ++ rest)) = some k ∧ taken = upTo k (taken ++ rest) ∧
      (code taken).length = k := by
  obtain ⟨s, t, hs, hi, hlist, hfits, htaken⟩ := fits_of_takes h
  obtain ⟨outcome, hagrees, hmeets⟩ := agrees_fits hp e (opened_of_index_zero hs hi)
  -- it has fitted, and so it has seen what its reading uses
  rw [show (p.fits e).runOn s = _ from hfits] at hmeets
  cases hmeets with
  | @fits k _ hseen =>
    obtain ⟨hgone, hk⟩ := hseen
    rw [ahead_of_index_zero hi] at hagrees hk hgone
    have hupTo : taken = upTo k (taken ++ rest) := by
      calc taken = t.consume.1 := htaken
        _ = upTo k s.toList := consume_of_gone hi hgone
        _ = upTo k (taken ++ rest) := by rw [hlist]
    rw [hlist] at hagrees hk
    refine ⟨k, hagrees, hupTo, ?_⟩
    have hcode := code_upTo k (taken ++ rest)
    rw [← hupTo] at hcode
    rw [hcode, List.length_take, Nat.min_eq_left hk]

/-- A pattern that is refused has no reading. -/
theorem reads_of_refuses (hp : p.isOrdered = true) (h : Refuses (some p) e take rest) :
    p.reads e (code rest) = none := by
  obtain ⟨s, t, hs, hi, hlist, hfits⟩ := fits_of_refuses h
  obtain ⟨outcome, hagrees, hmeets⟩ := agrees_fits hp e (opened_of_index_zero hs hi)
  rw [ahead_of_index_zero hi, hlist] at hagrees
  rcases hfits with hfits | hfits
  · rw [hfits] at hmeets
    cases hmeets with
    | refused => exact hagrees
  · rw [hfits] at hmeets
    cases hmeets with
    | stopped => exact hagrees.2 rfl

/-! ### What is taken -/

/-- The elements that an attempt takes, if it takes any. -/
def takenOn (p : Pattern) (e : Element) (s : Lookahead Element) : Option (List Element) :=
  match ((p.tryOn e true).runOn s).1 with
  | .ok (.taken es) => some es
  | _ => none

variable {p : Pattern}

theorem meets_opened (hp : p.isPlain = true) (e : Element) (s : Lookahead Element) :
    Meets s.begun (p.reading s.ending e (code s.toList)) ((p.fits e).runOn s.begun) :=
  meets_fits p hp e s.begun (opened_begun s)

/-- **What is taken** is the element and all up to the last code that the reading uses. -/
theorem takenOn_eq (hp : p.isPlain = true) (e : Element) {s : Lookahead Element}
    (hs : s.looking = false) :
    p.takenOn e s = (p.reading s.ending e (code s.toList)).used.map fun k =>
      e :: upTo k s.toList := by
  have hmeets := meets_opened hp e s
  unfold takenOn
  rw [runOn_tryOn p e true hs]
  generalize p.reading s.ending e (code s.toList) = outcome at hmeets ⊢
  generalize (p.fits e).runOn s.begun = reached at hmeets ⊢
  cases hmeets with
  | fits hseen =>
    have hconsumed := consume_of_gone (s := s.begun) rfl hseen.gone
    exact congrArg (fun es => some (e :: es)) hconsumed
  | refused =>
    unfold settle
    cases p.isSilent with
    | true | false => rfl
  | @stopped m f =>
    cases f with
    | exhausted | _ => rfl

/-- A reading uses no more code than there is. -/
theorem used_le (hp : p.isPlain = true) {ending : Fault} {es : List Element} {k : Nat}
    (h : (p.reading ending e (code es)).used = some k) : k ≤ (code es).length := by
  have hmeets := meets_opened hp e { upcoming := es, broken := some ending }
  change Meets _ (p.reading ending e (code es)) _ at hmeets
  generalize p.reading ending e (code es) = outcome at h hmeets
  generalize Work.runOn (p.fits e) _ = reached at hmeets
  cases hmeets with
  | fits hseen =>
    obtain rfl := Option.some.inj h
    exact hseen.le
  | refused | stopped => cases h

end Pattern

end EztScan
