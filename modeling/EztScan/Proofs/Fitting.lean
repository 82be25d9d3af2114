import EztScan.Proofs.Matching
import EztScan.Proofs.Words

/-!
# What patterns need

A pattern that fits says something about the element it was tried on, and about the elements after
it. `Pattern.Needs p P` says that `p` fits only elements with the property `P`: a word needs an
element with its text, a sequence needs what its first part needs, and alternatives need what all of
them need. What comes second in a sequence is looked for among the elements that are code, so a
sequence that begins with any element whatever needs a property of the first code behind it
(`Pattern.find?_of_takes_seq_any`).

Most constructs begin with a word. `Pattern.startsWithWord` finds out whether a pattern does, and
then it fits neither nodes nor blanks nor comments.
-/

namespace EztScan

open List

/-! ### What a lookahead sees -/

namespace Lookahead

variable {α : Type} {p : α → Bool}

theorem spanTo_eq_some {xs read rest : List α} {x : α} (h : spanTo p xs = (read, some (x, rest))) :
    ∃ skipped, read = skipped ++ [x] ∧ xs = skipped ++ x :: rest ∧ (∀ y ∈ skipped, p y = false) ∧
      p x = true := by
  induction xs generalizing read with
  | nil => exact nomatch (Prod.mk.inj h).2
  | cons y ys ih =>
    unfold spanTo at h
    by_cases hy : p y = true
    · rw [if_pos hy] at h
      obtain ⟨rfl, hfound⟩ := Prod.mk.inj h
      obtain ⟨rfl, rfl⟩ := Prod.mk.inj (Option.some.inj hfound)
      exact ⟨[], rfl, rfl, forall_mem_nil _, hy⟩
    · rw [if_neg hy] at h
      obtain ⟨rfl, hfound⟩ := Prod.mk.inj h
      obtain ⟨skipped, hread, rfl, hskipped, hx⟩ := ih (Prod.ext rfl hfound)
      refine ⟨y :: skipped, congrArg (y :: ·) hread, rfl, ?_, hx⟩
      exact forall_mem_cons.mpr ⟨Bool.eq_false_iff.mpr hy, hskipped⟩

theorem spanTo_eq_none {xs read : List α} (h : spanTo p xs = (read, none)) :
    read = xs ∧ ∀ y ∈ xs, p y = false := by
  induction xs generalizing read with
  | nil =>
    obtain ⟨rfl, -⟩ := Prod.mk.inj h
    exact ⟨rfl, forall_mem_nil _⟩
  | cons y ys ih =>
    unfold spanTo at h
    by_cases hy : p y = true
    · rw [if_pos hy] at h
      exact absurd (Prod.mk.inj h).2 (Option.some_ne_none _)
    · rw [if_neg hy] at h
      obtain ⟨rfl, hfound⟩ := Prod.mk.inj h
      obtain ⟨hread, hys⟩ := ih (Prod.ext rfl hfound)
      exact ⟨congrArg (y :: ·) hread, forall_mem_cons.mpr ⟨Bool.eq_false_iff.mpr hy, hys⟩⟩

/-- A lookahead that has seen nothing yet finds the first element with a property. -/
theorem find?_of_nextThat {s t : Lookahead α} {x : α} (hs : s.looking = true) (hi : s.index = 0)
    (h : s.nextThat p = (.ok x, t)) : s.toList.find? p = some x := by
  have hfind : ∀ {skipped rest : List α}, (∀ y ∈ skipped, p y = false) → p x = true →
      (skipped ++ x :: rest).find? p = some x := by
    intro skipped rest hskipped hx
    have hnone : skipped.find? p = none :=
      find?_eq_none.mpr fun y hy => Bool.eq_false_iff.mp (hskipped y hy)
    rw [find?_append, hnone, find?_cons_of_pos hx]
    rfl
  unfold nextThat at h
  rw [if_pos hs, hi, drop_zero] at h
  unfold toList
  split at h
  next read y rest hspan =>
    -- found in the buffer
    obtain ⟨hy, -⟩ := Prod.mk.inj h
    obtain rfl := Except.ok.inj hy
    obtain ⟨skipped, -, hbuffer, hskipped, hp⟩ := spanTo_eq_some hspan
    rw [hbuffer, append_assoc]
    exact hfind hskipped hp
  next read hspan =>
    -- found behind the buffer, which has no such element
    obtain ⟨-, hbuffer⟩ := spanTo_eq_none hspan
    rcases hup : spanTo p s.upcoming with ⟨more, found⟩
    rw [hup] at h
    cases found with
    | none => exact nomatch (Prod.mk.inj h).1
    | some found =>
      obtain ⟨y, rest⟩ := found
      obtain ⟨hy, -⟩ := Prod.mk.inj h
      obtain rfl := Except.ok.inj hy
      obtain ⟨skipped, -, hupcoming, hskipped, hp⟩ := spanTo_eq_some hup
      rw [hupcoming, ← append_assoc]
      exact hfind (forall_mem_append.mpr ⟨hbuffer, hskipped⟩) hp

end Lookahead

/-! ### Needs -/

/-- The element is a token with a text that is a word. -/
def Element.IsWord (e : Element) : Prop :=
  ∃ text, e.lowerText = some text ∧ ∀ c ∈ text.toList, Text.isWordChar c = true

namespace Pattern

open Work Attempt

/-- The pattern fits only elements with this property. -/
def Needs (p : Pattern) (P : Element → Prop) : Prop :=
  ∀ ⦃e s t⦄, Runs (p.fits e) s true t → P e

/-- The patterns fit one after the other only from an element with this property on. -/
def NeedsSeq (ps : List Pattern) (P : Element → Prop) : Prop :=
  ∀ ⦃last e s t⦄, Runs (fitsSeq last ps e) s true t → P e

variable {p : Pattern} {ps : List Pattern} {P : Element → Prop}

theorem needs_word (word : String) : (Pattern.word word).Needs fun e =>
      e.hasText = true ∧ e.isA .string = false ∧ e.lowerText = some (Text.lower word) := by
  intro e s t h
  unfold fits at h
  obtain ⟨hfits, -⟩ := runs_pure.mp h
  rw [Bool.and_eq_true, Bool.and_eq_true] at hfits
  obtain ⟨⟨htext, hkind⟩, hlower⟩ := hfits
  exact ⟨htext, by simpa using hkind, by simpa using hlower⟩

theorem Needs.imp {Q : Element → Prop} (h : p.Needs P) (hPQ : ∀ {e}, P e → Q e) : p.Needs Q :=
  fun _ _ _ hruns => hPQ (h hruns)

theorem needs_oneOf (h : ∀ p ∈ ps, p.Needs P) : (Pattern.oneOf ps).Needs P := by
  intro e s t hruns
  unfold fits at hruns
  -- each alternative is tried from where the one before has begun, so the stream is not fixed
  induction ps generalizing s with
  | nil =>
    unfold fitsOneOf at hruns
    exact nomatch (runs_pure.mp hruns).1
  | cons p ps ih =>
    obtain ⟨hp, hps⟩ := forall_mem_cons.mp h
    unfold fitsOneOf at hruns
    obtain ⟨start, s₁, -, hruns⟩ := runs_bind.mp hruns
    obtain ⟨outcome, s₂, hattempt, hruns⟩ := runs_bind.mp hruns
    split at hruns
    next => exact hp (runs_attempt.mp hattempt)
    next =>
      obtain ⟨_, s₃, -, hruns⟩ := runs_bind.mp hruns
      exact ih hps hruns
    next =>
      obtain ⟨_, s₃, -, hruns⟩ := runs_bind.mp hruns
      exact ih hps hruns
    next => exact absurd hruns not_runs_throw

/-- A part of a sequence that is not there for what it may leave out needs to fit. -/
theorem runs_endSeq {last : Option Nat} {found : Bool} {s t : Lookahead Element}
    (hmaybe : p.isMaybe = false) (h : Runs (p.endSeq last found) s true t) : found = true := by
  unfold endSeq at h
  split at h
  next => exact nomatch hmaybe
  next => exact nomatch hmaybe
  next =>
    unfold endSeq.goBack at h
    cases last with
    | none => exact absurd h not_runs_throw
    | some =>
      obtain ⟨_, s₁, -, h⟩ := runs_bind.mp h
      exact (runs_pure.mp h).1
  next => exact (runs_pure.mp h).1

/-- A sequence needs what its first part needs. -/
theorem needsSeq_cons (hmaybe : p.isMaybe = false) (hp : p.Needs P) : NeedsSeq (p :: ps) P := by
  intro last e s t h
  unfold fitsSeq at h
  obtain ⟨found, s₁, hfits, h⟩ := runs_bind.mp h
  split at h
  next =>
    obtain rfl := runs_endSeq hmaybe h
    exact hp hfits
  next =>
    obtain ⟨here, s₂, -, h⟩ := runs_bind.mp h
    split at h
    next hfound =>
      rw [hfound] at hfits
      exact hp hfits
    next =>
      rw [hmaybe] at h
      exact nomatch (runs_pure.mp h).1

/-- Where the first part may be left out, the rest needs the same. -/
theorem needsSeq_maybe_cons (hps : ps ≠ []) (hp : p.Needs P) (hrest : NeedsSeq ps P) :
    NeedsSeq (.maybe p :: ps) P := by
  intro last e s t h
  unfold fitsSeq at h
  obtain ⟨found, s₁, hfits, h⟩ := runs_bind.mp h
  rw [isEmpty_eq_false_iff.mpr hps] at h
  obtain ⟨here, s₂, -, h⟩ := runs_bind.mp h
  cases found with
  | false =>
    -- left out: the rest is tried on the same element
    exact hrest h
  | true =>
    unfold fits at hfits
    obtain ⟨start, s₃, -, hfits⟩ := runs_bind.mp hfits
    obtain ⟨found, s₄, hfound, hfits⟩ := runs_bind.mp hfits
    cases found with
    | true => exact hp hfound
    | false =>
      obtain ⟨_, s₅, -, hfits⟩ := runs_bind.mp hfits
      exact nomatch (runs_pure.mp hfits).1

theorem needs_seq (h : NeedsSeq ps P) : (Pattern.seq ps).Needs P := by
  intro e s t hruns
  unfold fits at hruns
  exact h hruns

/-! ### Patterns that start with a word -/

mutual

/-- Does everything that fits the pattern start with a word? -/
def startsWithWord : Pattern → Bool
  | .word text => (Text.lower text).toList.all Text.isWordChar
  | .seq ps => firstStartsWithWord ps
  | .oneOf ps => allStartWithWord ps
  | _ => false

/-- Does the first of the patterns start with a word? -/
def firstStartsWithWord : List Pattern → Bool
  | [] => false
  | p :: _ => p.startsWithWord

/-- Do all of the patterns start with a word? -/
def allStartWithWord : List Pattern → Bool
  | [] => true
  | p :: ps => p.startsWithWord && allStartWithWord ps

end

theorem isMaybe_of_startsWithWord (h : p.startsWithWord = true) : p.isMaybe = false := by
  cases p with
  | «maybe» => exact nomatch h
  | _ => rfl

mutual

/-- **A pattern that starts with a word needs one.** -/
theorem needs_isWord : ∀ p : Pattern, p.startsWithWord = true → p.Needs Element.IsWord
  | .word text, h => by
    refine (needs_word text).imp ?_
    rintro e ⟨-, -, hlower⟩
    exact ⟨_, hlower, all_eq_true.mp h⟩
  | .seq (p :: ps), h => needs_seq (needsSeq_cons (isMaybe_of_startsWithWord h) (needs_isWord p h))
  | .oneOf ps, h => needs_oneOf (needs_isWord_of_all ps h)

theorem needs_isWord_of_all :
    ∀ ps : List Pattern, allStartWithWord ps = true → ∀ p ∈ ps, p.Needs Element.IsWord
  | [], _ => forall_mem_nil _
  | p :: ps, h => by
    have h := Bool.and_eq_true_iff.mp h
    exact forall_mem_cons.mpr ⟨needs_isWord p h.1, needs_isWord_of_all ps h.2⟩

end

/-! ### What is taken -/

variable {e : Element} {taken rest : List Element}

/-- What an attempt takes is what a match inside a fresh lookahead has seen. -/
theorem fits_of_takes (h : Takes (some p) e taken rest) :
    ∃ s t, s.looking = true ∧ s.index = 0 ∧ s.toList = taken ++ rest ∧ Runs (p.fits e) s true t ∧
      taken = t.buffer.take t.index := by
  obtain ⟨q, hq, s, u, hs, hrest, hruns⟩ := h
  obtain rfl := Option.some.inj hq
  unfold Runs at hruns
  rw [runOn_tryOn p e true hs] at hruns
  refine ⟨s.begun, ?_⟩
  rcases hfits : (p.fits e).runOn s.begun with ⟨outcome, t⟩
  rw [hfits] at hruns
  unfold settle at hruns
  split at hruns
  next t' heq =>
    obtain ⟨rfl, rfl⟩ := Prod.mk.inj heq
    obtain ⟨htaken, -⟩ := Prod.mk.inj hruns
    obtain ⟨-, htaken⟩ := List.cons.inj (Answer.taken.inj (Except.ok.inj htaken))
    exact ⟨t, rfl, rfl, hrest, hfits, htaken.symm⟩
  next =>
    obtain ⟨hanswer, -⟩ := Prod.mk.inj hruns
    have hanswer := Except.ok.inj hanswer
    split at hanswer <;> exact nomatch hanswer
  next => exact nomatch Except.ok.inj (Prod.mk.inj hruns).1
  next => exact nomatch (Prod.mk.inj hruns).1

theorem Needs.of_takes (hp : p.Needs P) (h : Takes (some p) e taken rest) : P e := by
  obtain ⟨s, t, -, -, -, hfits, -⟩ := fits_of_takes h
  exact hp hfits

/-- Any element fits alone. -/
theorem takes_any (h : Takes (some .any) e taken rest) : taken = [] := by
  obtain ⟨s, t, -, hi, -, hfits, rfl⟩ := fits_of_takes h
  unfold fits at hfits
  obtain ⟨-, rfl⟩ := runs_pure.mp hfits
  rw [hi, take_zero]

theorem not_takes_never : ¬ Takes (some .never) e taken rest := by
  intro h
  obtain ⟨s, t, -, -, -, hfits, -⟩ := fits_of_takes h
  unfold fits at hfits
  exact nomatch (runs_pure.mp hfits).1

/-- An attempt that takes nothing is a match that has not succeeded. -/
theorem fits_of_refuses {take : Bool} (h : Refuses (some p) e take rest) :
    ∃ s t, s.looking = true ∧ s.index = 0 ∧ s.toList = rest ∧
      ((p.fits e).runOn s = (.ok false, t) ∨ (p.fits e).runOn s = (.error .exhausted, t)) := by
  obtain ⟨q, hq, answer, ⟨s, u, hs, hrest, hruns⟩, hanswer⟩ := h
  obtain rfl := Option.some.inj hq
  unfold Runs at hruns
  rw [runOn_tryOn p e take hs] at hruns
  refine ⟨s.begun, ?_⟩
  rcases hfits : (p.fits e).runOn s.begun with ⟨outcome, t⟩
  rw [hfits] at hruns
  refine ⟨t, rfl, rfl, hrest, ?_⟩
  cases outcome with
  | ok found =>
    cases found with
    | false => exact .inl rfl
    | true =>
      -- what fits is taken or put back
      cases take with
      | true | false =>
        obtain rfl := Except.ok.inj (Prod.mk.inj hruns).1
        rcases hanswer with hanswer | hanswer <;> exact nomatch hanswer
  | error f =>
    cases f with
    | exhausted => exact .inr rfl
    | _ => exact nomatch (Prod.mk.inj hruns).1

/-- Any element is never refused. -/
theorem not_refuses_any {take : Bool} : ¬ Refuses (some .any) e take rest := by
  intro h
  obtain ⟨s, t, -, -, -, hfits⟩ := fits_of_refuses h
  unfold fits at hfits
  rcases hfits with hfits | hfits <;> exact nomatch (Prod.mk.inj hfits).1

/-- **A sequence that begins with any element needs its rest of the first code behind that
element.** -/
theorem find?_of_takes_seq_any (hps : ps ≠ []) (hneeds : NeedsSeq ps P)
    (h : Takes (some (.seq (.any :: ps))) e taken rest) :
    ∃ x, (taken ++ rest).find? Element.isCode = some x ∧ P x := by
  obtain ⟨s, t, hs, hi, hlist, hfits, -⟩ := fits_of_takes h
  unfold fits fitsSeq at hfits
  obtain ⟨found, s₁, hany, hfits⟩ := runs_bind.mp hfits
  unfold fits at hany
  obtain ⟨rfl, rfl⟩ := runs_pure.mp hany
  rw [isEmpty_eq_false_iff.mpr hps] at hfits
  -- the place is noted before the next code is looked for, and the stream is as it was
  obtain ⟨here, s₂, hplace, hfits⟩ := runs_bind.mp hfits
  obtain ⟨s₃, s₄, hget, hplace⟩ := runs_bind.mp hplace
  obtain ⟨-, rfl⟩ := runs_get.mp hget
  obtain ⟨-, rfl⟩ := runs_pure.mp hplace
  obtain ⟨x, s₅, hnext, hfits⟩ := runs_bind.mp hfits
  refine ⟨x, ?_, hneeds hfits⟩
  rw [← hlist]
  exact Lookahead.find?_of_nextThat hs hi hnext

end Pattern

end EztScan
