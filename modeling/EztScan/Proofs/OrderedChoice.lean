import EztScan.Proofs.Fitting

/-!
# Patterns as ordered choice

The patterns of the language come down to ordered choice on the code of a stream. `Pattern.reads`
says so without a stream: given an element and the code behind it, how many elements of that code
the pattern uses, or that it does not fit. An elementary pattern looks at the element alone, a
sequence goes on with the next code after each of its parts, a part that may be left out is left out
if it does not fit, and of several alternatives the first one that fits is taken for good.

The patterns of that form are those with `Pattern.isOrdered`. What a match has seen once it fits is
the stream up to the last code that it uses, with the blanks and comments in between
(`Element.upTo`); `Lookahead.Gone` says how far it has gone on.
-/

namespace EztScan

open List

variable {e : Element} {k n : Nat} {s t : Lookahead Element} {p : Pattern}
variable {es : List Element} {x : Element} {used : Option Nat} {ps : List Pattern} {take : Bool}

/-! ### Up to some code -/

namespace Element

theorem code_append (as bs : List Element) : code (as ++ bs) = code as ++ code bs :=
  filter_append as bs

theorem code_eq_nil (h : ∀ e ∈ es, e.isCode = false) : code es = [] :=
  filter_eq_nil_iff.mpr fun e he => Bool.eq_false_iff.mp (h e he)

theorem code_cons_of_isCode (h : e.isCode = true) (es : List Element) :
    code (e :: es) = e :: code es :=
  filter_cons_of_pos h

theorem code_cons_of_not_isCode (h : e.isCode = false) (es : List Element) :
    code (e :: es) = code es :=
  filter_cons_of_neg (Bool.eq_false_iff.mp h)

/-- The elements up to the one that is the `k`-th code among them. -/
def upTo : Nat → List Element → List Element
  | 0, _ => []
  | _ + 1, [] => []
  | k + 1, e :: es => e :: upTo (if e.isCode then k else k + 1) es

@[simp] theorem upTo_zero (es : List Element) : upTo 0 es = [] := by
  cases es <;> rfl

theorem upTo_nil (k : Nat) : upTo k [] = [] := by
  cases k <;> rfl

section

variable (k es)

theorem upTo_isPrefix : upTo k es <+: es := by
  induction es generalizing k with
  | nil =>
    cases k with
    | zero | succ => exact List.nil_prefix
  | cons e es ih =>
    cases k with
    | zero => exact List.nil_prefix
    | succ => exact cons_prefix_cons.mpr ⟨rfl, ih _⟩

theorem take_length_upTo : es.take (upTo k es).length = upTo k es :=
  (prefix_iff_eq_take.mp (upTo_isPrefix k es)).symm

theorem upTo_append_drop : upTo k es ++ es.drop (upTo k es).length = es := by
  have h := take_append_drop (upTo k es).length es
  rwa [take_length_upTo] at h

/-- Up to the `k`-th code there are `k` elements of code, if there are so many. -/
theorem code_upTo : code (upTo k es) = (code es).take k := by
  induction es generalizing k with
  | nil =>
    rw [upTo_nil]
    exact take_nil.symm
  | cons e es ih =>
    cases k with
    | zero => rfl
    | succ k =>
      unfold upTo
      cases he : e.isCode with
      | true =>
        rw [if_pos rfl, code_cons_of_isCode he, code_cons_of_isCode he, take_succ_cons, ih k]
      | false =>
        rw [if_neg Bool.false_ne_true, code_cons_of_not_isCode he, code_cons_of_not_isCode he,
          ih (k + 1)]

/-- Behind the `k`-th code is the code after it. -/
theorem code_drop_upTo : code (es.drop (upTo k es).length) = (code es).drop k := by
  have h := congrArg code (upTo_append_drop k es)
  rw [code_append, code_upTo] at h
  exact append_cancel_left (h.trans (take_append_drop k (code es)).symm)

end

/-- Going on by `k` from the `j`-th code leads as far as `j + k` from the start. -/
theorem upTo_add (j k : Nat) (es : List Element) :
    upTo (j + k) es = upTo j es ++ upTo k (es.drop (upTo j es).length) := by
  induction es generalizing j with
  | nil => rw [upTo_nil, upTo_nil, drop_nil, upTo_nil, append_nil]
  | cons e es ih =>
    cases j with
    | zero => simp
    | succ =>
      rw [Nat.add_right_comm]
      -- an element that is no code leaves as many to be counted
      by_cases he : e.isCode = true
      · simp only [upTo, if_pos he, cons_append, length_cons, drop_succ_cons]
        rw [ih]
      · simp only [upTo, if_neg he, cons_append, length_cons, drop_succ_cons]
        rw [Nat.add_right_comm, ih]

end Element

/-! ### Going on in a lookahead -/

namespace Lookahead

variable {α : Type} {p : α → Bool}

/-- What a lookahead has not seen yet. -/
def ahead (s : Lookahead α) : List α :=
  s.toList.drop s.index

/-- A lookahead is open, and what it has seen is in the buffer. -/
structure Opened (s : Lookahead α) : Prop where
  looking : s.looking = true
  le : s.index ≤ s.buffer.length

/-- From the first to the second state, an open lookahead has gone on over `n` elements. -/
structure Gone (s : Lookahead α) (n : Nat) (t : Lookahead α) : Prop where
  opened : t.Opened
  broken : t.broken = s.broken
  toList : t.toList = s.toList
  index : t.index = s.index + n

theorem Gone.refl {s : Lookahead α} (hs : s.Opened) : Gone s 0 s :=
  ⟨hs, rfl, rfl, rfl⟩

theorem Gone.trans {s t u : Lookahead α} {m : Nat} (hst : Gone s m t) (htu : Gone t n u) :
    Gone s (m + n) u := by
  refine ⟨htu.opened, htu.broken.trans hst.broken, htu.toList.trans hst.toList, ?_⟩
  rw [htu.index, hst.index, Nat.add_assoc]

theorem Gone.ahead {s t : Lookahead α} (h : Gone s n t) : t.ahead = s.ahead.drop n := by
  unfold Lookahead.ahead
  rw [h.toList, h.index, drop_drop]

theorem Gone.ending {s t : Lookahead α} (h : Gone s n t) : t.ending = s.ending := by
  unfold Lookahead.ending
  rw [h.broken]

/-- Going back to where the lookahead was. -/
theorem Gone.back {s t : Lookahead α} (h : Gone s n t) : Gone s 0 { t with index := s.index } := by
  refine ⟨⟨h.opened.looking, ?_⟩, h.broken, h.toList, rfl⟩
  have hle := h.opened.le
  rw [h.index] at hle
  exact Nat.le_trans (Nat.le_add_right _ _) hle

theorem ahead_of_index_zero {s : Lookahead α} (hi : s.index = 0) : s.ahead = s.toList := by
  unfold ahead
  rw [hi, drop_zero]

theorem opened_of_index_zero {s : Lookahead α} (hs : s.looking = true) (hi : s.index = 0) :
    s.Opened :=
  ⟨hs, by rw [hi]; exact Nat.zero_le _⟩

theorem opened_begun (s : Lookahead α) : s.begun.Opened :=
  opened_of_index_zero rfl rfl

theorem Opened.ahead {s : Lookahead α} (hs : s.Opened) :
    s.ahead = s.buffer.drop s.index ++ s.upcoming :=
  drop_append_of_le_length hs.le

/-- What has been seen is the front of what the stream gives. -/
theorem Opened.consume_fst {s : Lookahead α} (hs : s.Opened) :
    s.consume.1 = s.toList.take s.index :=
  (take_append_of_le_length hs.le).symm

/-- Without what has been seen, the stream gives what is ahead. -/
theorem Opened.toList_consume {s : Lookahead α} (hs : s.Opened) : s.consume.2.toList = s.ahead :=
  hs.ahead.symm

/-- What is found in front is found first. -/
theorem spanTo_append_of_some {as bs read rest : List α} {x : α}
    (h : spanTo p as = (read, some (x, rest))) :
    spanTo p (as ++ bs) = (read, some (x, rest ++ bs)) := by
  induction as generalizing read with
  | nil => exact nomatch (Prod.mk.inj h).2
  | cons a as ih =>
    rw [cons_append]
    unfold spanTo at h ⊢
    by_cases ha : p a = true
    · rw [if_pos ha] at h ⊢
      obtain ⟨rfl, hfound⟩ := Prod.mk.inj h
      obtain ⟨rfl, rfl⟩ := Prod.mk.inj (Option.some.inj hfound)
      rfl
    · rw [if_neg ha] at h ⊢
      obtain ⟨rfl, hfound⟩ := Prod.mk.inj h
      rw [ih (Prod.ext rfl hfound)]

/-- Where nothing is found in front, the search goes on behind it. -/
theorem spanTo_append_of_none {as bs read : List α} (h : spanTo p as = (read, none)) :
    spanTo p (as ++ bs) = (as ++ (spanTo p bs).1, (spanTo p bs).2) := by
  induction as generalizing read with
  | nil => rfl
  | cons a as ih =>
    rw [cons_append]
    unfold spanTo at h
    by_cases ha : p a = true
    · rw [if_pos ha] at h
      cases h
    · rw [if_neg ha] at h
      rw [spanTo, if_neg ha]
      have hrest := ih (Prod.ext rfl (Prod.mk.inj h).2)
      rw [hrest, cons_append]

/-- The next element with a property is the first one of those that the lookahead has not seen yet.
Without such an element all is read. -/
theorem nextThat_of_spanTo {s : Lookahead α} (hs : s.Opened) {read : List α}
    {found : Option (α × List α)} (hspan : spanTo p s.ahead = (read, found)) :
    ∃ t, s.nextThat p = (found.elim (.error s.ending) fun y => .ok y.1, t) ∧
      Gone s read.length t := by
  have hle := hs.le
  rw [hs.ahead] at hspan
  unfold nextThat
  rw [if_pos hs.looking]
  rcases hbuffer : spanTo p (s.buffer.drop s.index) with ⟨seen, inBuffer⟩
  cases inBuffer with
  | some =>
    -- it is in the buffer, and only the index moves
    rw [spanTo_append_of_some hbuffer] at hspan
    obtain ⟨rfl, rfl⟩ := Prod.mk.inj hspan
    refine ⟨_, rfl, ?_⟩
    rw [if_pos hs.looking]
    refine ⟨⟨hs.looking, ?_⟩, rfl, rfl, rfl⟩
    obtain ⟨skipped, rfl, hsplit, -, -⟩ := spanTo_eq_some hbuffer
    have hlength := congrArg List.length hsplit
    simp only [length_drop, length_append, length_cons, length_nil] at hlength ⊢
    omega
  | none =>
    -- if there is one it is behind the buffer, and what is read there goes into the buffer
    obtain ⟨rfl, -⟩ := spanTo_eq_none hbuffer
    have happend := append_of_spanTo p s.upcoming
    rcases hupcoming : spanTo p s.upcoming with ⟨more, behind⟩
    rw [hupcoming] at happend
    rw [spanTo_append_of_none hbuffer, hupcoming] at hspan
    obtain ⟨rfl, rfl⟩ := Prod.mk.inj hspan
    refine ⟨_, Prod.ext ?_ rfl, ?_⟩
    · cases behind <;> rfl
    · dsimp only
      rw [if_pos hs.looking]
      refine ⟨⟨hs.looking, ?_⟩, rfl, ?_, ?_⟩
      · simp only [length_append, length_drop]
        omega
      · dsimp only [toList] at happend ⊢
        rw [append_assoc, happend]
      · simp only [length_append, Nat.add_assoc]

end Lookahead

theorem Element.upTo_one {skipped rest : List Element} (hes : es = skipped ++ x :: rest)
    (hskipped : ∀ y ∈ skipped, y.isCode = false) (hx : x.isCode = true) :
    Element.upTo 1 es = skipped ++ [x] := by
  subst hes
  induction skipped with
  | nil => simp [upTo, hx]
  | cons y ys ih =>
    obtain ⟨hy, hys⟩ := forall_mem_cons.mp hskipped
    simp [upTo, hy, ih hys]

namespace Attempt

open Lookahead Element

/-- The next code is the first one that the lookahead has not seen yet, and then it has seen all up
to that one. -/
theorem nextCode_of_cons (hs : s.Opened) {xs : List Element} (hcode : code s.ahead = x :: xs) :
    ∃ t, nextCode.runOn s = (.ok x, t) ∧ Gone s (upTo 1 s.ahead).length t := by
  rcases hspan : spanTo isCode s.ahead with ⟨read, found⟩
  cases found with
  | none =>
    obtain ⟨-, hnone⟩ := spanTo_eq_none hspan
    exact nomatch (code_eq_nil hnone).symm.trans hcode
  | some found =>
    obtain ⟨y, rest⟩ := found
    obtain ⟨t, hnext, hgone⟩ := nextThat_of_spanTo hs hspan
    obtain ⟨skipped, rfl, hes, hskipped, hy⟩ := spanTo_eq_some hspan
    have hfirst : code s.ahead = y :: code rest := by
      rw [hes, code_append, code_eq_nil hskipped, nil_append, code_cons_of_isCode hy]
    obtain ⟨rfl, -⟩ := List.cons.inj (hfirst.symm.trans hcode)
    rw [upTo_one hes hskipped hy]
    exact ⟨t, hnext, hgone⟩

/-- Without any code ahead there is no next one. -/
theorem nextCode_of_nil (hs : s.Opened) (hcode : code s.ahead = []) :
    ∃ t n, nextCode.runOn s = (.error s.ending, t) ∧ Gone s n t := by
  rcases hspan : spanTo isCode s.ahead with ⟨read, found⟩
  cases found with
  | none =>
    obtain ⟨t, hnext, hgone⟩ := nextThat_of_spanTo hs hspan
    exact ⟨t, _, hnext, hgone⟩
  | some found =>
    obtain ⟨y, rest⟩ := found
    obtain ⟨skipped, -, hes, -, hy⟩ := spanTo_eq_some hspan
    -- what would be found is code
    have hmem : y ∈ code s.ahead :=
      mem_filter.mpr ⟨hes ▸ mem_append_right skipped mem_cons_self, hy⟩
    rw [hcode] at hmem
    exact absurd hmem not_mem_nil

end Attempt

/-! ### Patterns as ordered choice -/

namespace Pattern

open Work Attempt Element Lookahead

/-- How many elements are used if the first `k` of some are, and then what goes on from the next one
on. -/
def readsBehind (goOn : Element → List Element → Option Nat) (k : Nat) (es : List Element) :
    Option Nat :=
  match es.drop k with
  | x :: xs => (goOn x xs).map (k + 1 + ·)
  | [] => none

mutual

/-- How many of the code elements that follow an element the pattern uses if it fits. -/
def reads : Pattern → Element → List Element → Option Nat
  | .word text, e, _ =>
    if e.hasText && !e.isA .string && e.lowerText == some (Text.lower text) then some 0 else none
  | .kind k, e, _ => if e.isA k then some 0 else none
  | .exactly t, e, _ =>
    if e.text = t.text ∧ (t.kind.any fun k => e.isA k) = true then some 0 else none
  | .refuse p, e, es => if (p.reads e es).isSome then none else some 0
  | .any, _, _ => some 0
  | .maybe p, e, es => p.reads e es
  | .seq ps, e, es => readsSeq ps e es
  | .oneOf ps, e, es => readsOneOf ps e es
  | .node name, e, _ => if e.isNodeOf name then some 0 else none
  | _, _, _ => none

/-- The same for patterns one after the other. One that may be left out is left out where it does
not fit. -/
def readsSeq : List Pattern → Element → List Element → Option Nat
  | [], _, _ => none
  | p :: ps, e, es =>
    match p.reads e es with
    | some k =>
      if ps.isEmpty then some k else readsBehind (fun e es => readsSeq ps e es) k es
    | none => if p.isMaybe then readsSeq ps e es else none

/-- The same for the first of some patterns that fits. -/
def readsOneOf : List Pattern → Element → List Element → Option Nat
  | [], _, _ => none
  | p :: ps, e, es => (p.reads e es).or (readsOneOf ps e es)

end

mutual

/-- Does the pattern say something about one element only? -/
def isElementary : Pattern → Bool
  | .never | .word _ | .kind _ | .any | .node _ => true
  | .exactly t => t.kind.isSome
  | .refuse p => p.isElementary
  | .oneOf ps => allElementary ps
  | _ => false

/-- Do these patterns say something about one element only? -/
def allElementary : List Pattern → Bool
  | [] => true
  | p :: ps => p.isElementary && allElementary ps

end

mutual

/-- Is the pattern made of elementary ones by choice and by sequences, in which elementary ones may
be left out except at the end? -/
def isOrdered : Pattern → Bool
  | .oneOf ps => allOrdered ps
  | .seq ps => seqIsOrdered ps
  | p => p.isElementary

/-- Are all of these patterns of that form? -/
def allOrdered : List Pattern → Bool
  | [] => true
  | p :: ps => p.isOrdered && allOrdered ps

/-- Are these patterns of that form one after the other? -/
def seqIsOrdered : List Pattern → Bool
  | [] => false
  | [p] => p.isOrdered
  | .maybe p :: ps => p.isElementary && seqIsOrdered ps
  | p :: ps => p.isOrdered && seqIsOrdered ps

end

mutual

/-- An elementary pattern looks at its element and at nothing else. -/
theorem runOn_fits_of_isElementary :
    ∀ (p : Pattern), p.isElementary = true → ∀ (e : Element) (s : Lookahead Element),
    ∃ found, (p.fits e).runOn s = (.ok found, s) ∧
      ∀ es, p.reads e es = if found then some 0 else none
  | .never, _, e, s => ⟨false, rfl, fun _ => rfl⟩
  | .word text, _, e, s => ⟨_, rfl, fun _ => rfl⟩
  | .kind k, _, e, s => ⟨_, rfl, fun _ => rfl⟩
  | .any, _, e, s => ⟨true, rfl, fun _ => rfl⟩
  | .node name, _, e, s => ⟨_, rfl, fun _ => rfl⟩
  | .exactly t, h, e, s => by
    -- the kind is looked at only where the text is the same
    obtain ⟨k, hk⟩ := Option.isSome_iff_exists.mp h
    unfold fits reads
    rw [hk]
    by_cases ht : e.text = t.text
    · refine ⟨e.isA k, ?_, fun _ => ?_⟩
      · rw [if_pos ht]
        rfl
      · simp [ht]
    · refine ⟨false, ?_, fun _ => ?_⟩
      · rw [if_neg ht]
        rfl
      · simp [ht]
  | .refuse p, h, e, s => by
    -- the match is tried and turned into its opposite
    obtain ⟨found, hfits, hreads⟩ := runOn_fits_of_isElementary p h e s
    refine ⟨!found, ?_, fun es => ?_⟩
    · unfold fits
      rw [runOn_bind]
      change (Work.runOn (p.fits e >>= _) s) = _
      rw [runOn_bind, hfits]
      cases found <;> rfl
    · unfold reads
      rw [hreads]
      cases found <;> rfl
  | .oneOf ps, h, e, s => by
    unfold fits reads
    exact runOn_fitsOneOf_of_allElementary ps h e s

theorem runOn_fitsOneOf_of_allElementary : ∀ (ps : List Pattern), allElementary ps = true →
    ∀ (e : Element) (s : Lookahead Element),
    ∃ found, (fitsOneOf ps e).runOn s = (.ok found, s) ∧
      ∀ es, readsOneOf ps e es = if found then some 0 else none
  | [], _, e, s => ⟨false, rfl, fun _ => rfl⟩
  | p :: ps, h, e, s => by
    have h := Bool.and_eq_true_iff.mp h
    obtain ⟨found, hfits, hreads⟩ := runOn_fits_of_isElementary p h.1 e s
    unfold fitsOneOf readsOneOf
    rw [runOn_bind]
    change ∃ found, (Work.runOn ((p.fits e).attempt >>= _) s) = _ ∧ _
    rw [runOn_bind, runOn_attempt, hfits]
    cases found with
    | true =>
      refine ⟨true, rfl, fun es => ?_⟩
      rw [hreads]
      rfl
    | false =>
      -- the next ones are tried from the same place
      obtain ⟨found, hrest, hreadsRest⟩ := runOn_fitsOneOf_of_allElementary ps h.2 e s
      refine ⟨found, hrest, fun es => ?_⟩
      rw [hreads, hreadsRest]
      rfl

end

mutual

theorem isOrdered_of_isElementary : ∀ p : Pattern, p.isElementary = true → p.isOrdered = true
  | .oneOf ps, h => allOrdered_of_allElementary ps h
  | .never, h | .word _, h | .kind _, h | .exactly _, h | .refuse _, h | .any, h | .node _, h => h

theorem allOrdered_of_allElementary :
    ∀ ps : List Pattern, allElementary ps = true → allOrdered ps = true
  | [], _ => rfl
  | p :: ps, h => by
    have h := Bool.and_eq_true_iff.mp h
    unfold allOrdered
    rw [Bool.and_eq_true]
    exact ⟨isOrdered_of_isElementary p h.1, allOrdered_of_allElementary ps h.2⟩

end

/-- The reading of an elementary pattern uses no code, and does not depend on it. -/
theorem reads_of_isElementary (h : p.isElementary = true) (e : Element) (es : List Element) :
    p.reads e es = if (p.reads e []).isSome then some 0 else none := by
  obtain ⟨found, -, hreads⟩ := runOn_fits_of_isElementary p h e (.ofList [])
  rw [hreads es, hreads []]
  cases found <;> rfl

theorem isMaybe_of_isOrdered (h : p.isOrdered = true) : p.isMaybe = false := by
  cases p with
  | «maybe» => exact nomatch h
  | _ => rfl

/-- What comes first in a longer sequence is of the fragment, or may be left out. -/
theorem of_seqIsOrdered_cons {q : Pattern} (h : seqIsOrdered (p :: q :: ps) = true) :
    (p.isOrdered = true ∨ ∃ p', p = .maybe p' ∧ p'.isElementary = true) ∧
      seqIsOrdered (q :: ps) = true := by
  cases p with
  | «maybe» p =>
    have h := Bool.and_eq_true_iff.mp h
    exact ⟨.inr ⟨p, rfl, h.1⟩, h.2⟩
  | _ =>
    have h := Bool.and_eq_true_iff.mp h
    exact ⟨.inl h.1, h.2⟩

end Pattern

end EztScan
