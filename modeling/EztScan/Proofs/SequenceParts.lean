import EztScan.Proofs.Readings

/-!
# What the parts of a sequence use

In a sequence of words, words that may be left out and words that must not follow, one expects that
each word uses one element, each word that may be left out uses one or none, and that nothing else
is used: this is `SeqPart.Covers`. What the parts do use is `SeqPart.Uses`, and it differs in two
ways.

* A word that must not follow is only looked at where it is the last part. Anywhere else the
sequence goes on with the next code as after any other part that fits, so that it uses one element,
whichever it is.
* A sequence whose last part uses nothing goes back to the place that was noted last. That is the
place before the element, if the part before has used one, but if that part was left out, it is the
place behind it. So one element more is used.

`SeqPart.takenOn_parts` shows that what an attempt takes is used in this way, and that the parts
always cover it exactly if the sequence has no such parts (`SeqPart.isTidy`).
-/

namespace EztScan

open Element Lookahead Pattern List
variable {text : String} {skipped : Bool} {j : Nat} {xs : List Element}

/-- A part of a sequence: a word, a word that may be left out, or a word that must not follow. -/
inductive SeqPart where
  | word (text : String)
  | option (text : String)
  | barrier (text : String)

namespace SeqPart

/-- The pattern that the part stands for. -/
def pattern : SeqPart → Pattern
  | .word text => .word text
  | .option text => .maybe (.word text)
  | .barrier text => .notFollowedBy (.word text)

/-- Does the part fit an element? -/
def fitsOn (e : Element) : SeqPart → Bool
  | .word text | .option text => e.isNamed text
  | .barrier text => !e.isNamed text

/-- The elements are one for each word and one for each of some options, in order, and the parts
name them. -/
inductive Covers : List SeqPart → List Element → Prop
  | nil : Covers [] []
  | word {text : String} {x : Element} {ps : List SeqPart} {xs : List Element}
      (hx : x.isNamed text = true)
      (hrest : Covers ps xs) : Covers (.word text :: ps) (x :: xs)
  | taken {text : String} {x : Element} {ps : List SeqPart} {xs : List Element}
      (hx : x.isNamed text = true)
      (hrest : Covers ps xs) : Covers (.option text :: ps) (x :: xs)
  | leftOut {text : String} {ps : List SeqPart} {xs : List Element} (hrest : Covers ps xs) :
      Covers (.option text :: ps) xs
  | barrier {text : String} {ps : List SeqPart} {xs : List Element} (hrest : Covers ps xs) :
      Covers (.barrier text :: ps) xs

/-- The elements are used by the parts. With `skipped`, the part before has been left out, and the
first element has been seen already. -/
inductive Uses : Bool → List SeqPart → List Element → Prop
  | nil : Uses false [] []
  | word {skipped : Bool} {text : String} {x : Element} {ps : List SeqPart} {xs : List Element}
      (hx : x.isNamed text = true)
      (hrest : Uses false ps xs) : Uses skipped (.word text :: ps) (x :: xs)
  | taken {skipped : Bool} {text : String} {x : Element} {ps : List SeqPart} {xs : List Element}
      (hx : x.isNamed text = true)
      (hrest : Uses false ps xs) : Uses skipped (.option text :: ps) (x :: xs)
  | leftOut {skipped : Bool} {text : String} {ps : List SeqPart} {xs : List Element} (hps : ps ≠ [])
      (hrest : Uses true ps xs) : Uses skipped (.option text :: ps) xs
  | passed {skipped : Bool} {text : String} {x : Element} {ps : List SeqPart} {xs : List Element}
      (hx : x.isNamed text = false) (hps : ps ≠ []) (hrest : Uses false ps xs) :
      Uses skipped (.barrier text :: ps) (x :: xs)
  | lastOption {text : String} : Uses false [.option text] []
  | lastBarrier {text : String} : Uses false [.barrier text] []
  | seenOption {text : String} {x : Element} (hx : x.isNamed text = false) :
      Uses true [.option text] [x]
  | seenBarrier {text : String} {x : Element} (hx : x.isNamed text = false) :
      Uses true [.barrier text] [x]

/-- Is there no barrier before the last part, and does the sequence not end in two parts that both
may use nothing? -/
def isTidy : List SeqPart → Bool
  | .barrier _ :: _ :: _ => false
  | [.option _, .option _] | [.option _, .barrier _] => false
  | _ :: ps => isTidy ps
  | [] => true

/-! ### The reading of a sequence of such parts -/

variable {ending : Fault} {last : Option Nat} {n k : Nat} {e : Element} {es : List Element}
  {p : SeqPart} {ps : List SeqPart}

theorem reading_pattern (p : SeqPart) (e : Element) (es : List Element) :
    p.pattern.reading ending e es = if p.fitsOn e then .fits 0 else .refused := by
  cases p with
  | word text | option text =>
    change (if ((Pattern.word text).reads e es).isSome then Outcome.fits 0 else .refused) =
      if e.isNamed text then .fits 0 else .refused
    rw [reads_word_eq]
    cases e.isNamed text <;> rfl
  | barrier text =>
    change (if ((Pattern.word text).reads e es).isSome then Outcome.refused else .fits 0) =
      if !e.isNamed text then .fits 0 else .refused
    rw [reads_word_eq]
    cases e.isNamed text <;> rfl

theorem isPlain_pattern (p : SeqPart) : p.pattern.isPlain = true := by
  cases p <;> rfl

theorem allPlain_map_pattern : ∀ ps : List SeqPart, allPlain (ps.map pattern) = true
  | [] => rfl
  | p :: ps => by
    rw [map_cons, allPlain, isPlain_pattern, allPlain_map_pattern ps]
    rfl

/-- After a part that fits, the sequence goes on with the next code. -/
theorem readingSeq_of_cons (hp : p.fitsOn e = true) (hps : ps ≠ []) (x : Element)
    (xs : List Element) :
    readingSeq ending ((p :: ps).map pattern) last n e (x :: xs) =
      readingSeq ending (ps.map pattern) (some n) (n + 1) x xs := by
  rw [map_cons, readingSeq, reading_pattern, if_pos hp]
  dsimp only
  rw [if_neg (by simpa using hps)]
  rfl

theorem readingSeq_of_nil (hp : p.fitsOn e = true) (hps : ps ≠ []) :
    readingSeq ending ((p :: ps).map pattern) last n e [] = .stopped ending := by
  rw [map_cons, readingSeq, reading_pattern, if_pos hp]
  dsimp only
  rw [if_neg (by simpa using hps)]
  rfl

/-- After an option that is left out, the sequence goes on with the same element. -/
theorem readingSeq_of_leftOut (he : e.isNamed text = false) (hps : ps ≠ []) :
    readingSeq ending ((.option text :: ps).map pattern) last n e es =
      readingSeq ending (ps.map pattern) (some n) n e es := by
  rw [map_cons, readingSeq, reading_pattern, if_neg (by rw [fitsOn, he]; exact Bool.false_ne_true)]
  rw [if_neg (by simpa using hps)]
  rfl

theorem readingSeq_singleton (p : SeqPart) : readingSeq ending ([p].map pattern) last n e es =
      endReading last p.pattern (if p.fitsOn e then some n else none) := by
  rw [map_singleton, readingSeq, reading_pattern]
  cases p.fitsOn e <;> rfl

/-- A word or a barrier that does not fit ends the sequence. -/
theorem readingSeq_of_not_fitsOn (hp : p.fitsOn e = false) (hoption : p.pattern.isMaybe = false)
    (hps : ps ≠ []) : readingSeq ending ((p :: ps).map pattern) last n e es = .refused := by
  rw [map_cons, readingSeq, reading_pattern, hp, if_neg Bool.false_ne_true]
  rw [if_neg (by simpa using hps), hoption]
  rfl

/-- What the last part uses. -/
theorem uses_of_endReading (hlast : j + (if skipped then 0 else 1) = n)
    (h : endReading (some j) p.pattern (if p.fitsOn e then some n else none) = .fits k) :
    ∃ m, k + 1 = n + m ∧ Uses skipped [p] ((e :: es).take m) := by
  cases p with
  | word text =>
    cases hx : e.isNamed text with
    | true =>
      rw [fitsOn, hx, if_pos rfl] at h
      obtain rfl := Outcome.fits.inj h
      exact ⟨1, rfl, .word hx .nil⟩
    | false =>
      rw [fitsOn, hx, if_neg Bool.false_ne_true] at h
      cases h
  | option text =>
    cases hx : e.isNamed text with
    | true =>
      rw [fitsOn, hx, if_pos rfl] at h
      obtain rfl := Outcome.fits.inj h
      exact ⟨1, rfl, .taken hx .nil⟩
    | false =>
      rw [fitsOn, hx, if_neg Bool.false_ne_true] at h
      obtain rfl := Outcome.fits.inj h
      -- what was noted is the place before it, or this one if a part was left out
      cases skipped with
      | true => exact ⟨1, by simpa using hlast, .seenOption hx⟩
      | false => exact ⟨0, hlast, .lastOption⟩
  | barrier text =>
    cases hx : e.isNamed text with
    | true =>
      rw [fitsOn, hx, if_neg (by decide)] at h
      cases h
    | false =>
      rw [fitsOn, hx, if_pos (by decide)] at h
      obtain rfl := Outcome.fits.inj h
      cases skipped with
      | true => exact ⟨1, by simpa using hlast, .seenBarrier hx⟩
      | false => exact ⟨0, hlast, .lastBarrier⟩

/-- **What the parts use.** From an element on, the sequence uses this element and the next ones in
the way that is said, or not even this element. -/
theorem uses_of_readingSeq (skipped : Bool) (hps : ps ≠ [])
    (hlast : j + (if skipped then 0 else 1) = n)
    (h : readingSeq ending (ps.map pattern) (some j) n e es = .fits k) :
    ∃ m, k + 1 = n + m ∧ Uses skipped ps ((e :: es).take m) := by
  -- `skipped` says that an option was left out at this element
  induction ps generalizing skipped j n e es with
  | nil => exact absurd rfl hps
  | cons p ps ih =>
    by_cases hrest : ps = []
    · subst hrest
      rw [readingSeq_singleton] at h
      exact uses_of_endReading hlast h
    · cases hp : p.fitsOn e with
      | true =>
        cases es with
        | nil =>
          rw [readingSeq_of_nil hp hrest] at h
          cases h
        | cons =>
          rw [readingSeq_of_cons hp hrest] at h
          obtain ⟨m, hm, huses⟩ := ih false hrest (n := n + 1) rfl h
          refine ⟨m + 1, by omega, ?_⟩
          rw [take_succ_cons]
          cases p with
          | word => exact .word hp huses
          | option => exact .taken hp huses
          | barrier => exact .passed (by simpa [fitsOn] using hp) hrest huses
      | false =>
        cases p with
        | word | barrier =>
          rw [readingSeq_of_not_fitsOn hp rfl hrest] at h
          cases h
        | option =>
          rw [readingSeq_of_leftOut hp hrest] at h
          obtain ⟨m, hm, huses⟩ := ih true hrest (n := n) rfl h
          exact ⟨m, hm, .leftOut hrest huses⟩

/-! ### Sequences whose parts cover what they use -/

theorem isTidy_of_cons (h : isTidy (p :: ps) = true) : isTidy ps = true := by
  cases p with
  | word => exact h
  | option text =>
    cases ps with
    | nil => rfl
    | cons q qs =>
      cases qs with
      | nil =>
        cases q with
        | word => rfl
        | option | barrier => cases h
      | cons => cases q <;> exact h
  | barrier =>
    cases ps with
    | nil => rfl
    | cons => cases h

/-- The parts of a tidy sequence cover what they use. -/
theorem Uses.covers (h : Uses skipped ps xs) (htidy : isTidy ps = true)
    (hskipped : skipped = true → ∃ text, isTidy (.option text :: ps) = true) : Covers ps xs := by
  induction h with
  | nil => exact .nil
  | word hx _ ih => exact .word hx (ih htidy Bool.noConfusion)
  | taken hx _ ih => exact .taken hx (ih (isTidy_of_cons htidy) Bool.noConfusion)
  | leftOut _ _ ih => exact .leftOut (ih (isTidy_of_cons htidy) fun _ => ⟨_, htidy⟩)
  | @passed _ _ _ ps _ _ hps =>
    cases ps with
    | nil => exact absurd rfl hps
    | cons => cases htidy
  | lastOption => exact .leftOut .nil
  | lastBarrier => exact .barrier .nil
  | seenOption | seenBarrier =>
    obtain ⟨text, hfalse⟩ := hskipped rfl
    cases hfalse

/-- What is covered is named by a word. -/
theorem Covers.exists_isNamed (h : Covers ps xs) {x : Element} (hx : x ∈ xs) :
    ∃ text, x.isNamed text = true := by
  induction h with
  | nil => cases hx
  | word hy _ ih | taken hy _ ih =>
    rcases mem_cons.mp hx with rfl | hx
    · exact ⟨_, hy⟩
    · exact ih hx
  | leftOut _ ih | barrier _ ih => exact ih hx

/-! ### Sequences whose parts do not -/

/-- The words of the parts name some code. -/
def HaveCode (ps : List SeqPart) : Prop :=
  ∀ text, .word text ∈ ps → ∃ x : Element, x.isCode = true ∧ x.isNamed text = true

theorem HaveCode.tail (h : HaveCode (p :: ps)) : HaveCode ps :=
  fun text htext => h text (mem_cons_of_mem p htext)

/-- An element that the part fits, or any other one if the part may be left out then. -/
theorem exists_fitsOn (h : HaveCode (p :: ps)) :
    (∃ x : Element, x.isCode = true ∧ p.fitsOn x = true) ∨
      ∃ text, p = .option text ∧ ∀ x : Element, x.isCode = true → x.isNamed text = false := by
  cases p with
  | word text =>
    obtain ⟨x, hcode, hx⟩ := h text mem_cons_self
    exact .inl ⟨x, hcode, hx⟩
  | option text =>
    by_cases hx : ∃ x : Element, x.isCode = true ∧ x.isNamed text = true
    · exact .inl hx
    · refine .inr ⟨text, rfl, fun x hcode => ?_⟩
      cases hnamed : x.isNamed text with
      | false => rfl
      | true => exact absurd ⟨x, hcode, hnamed⟩ hx
  | barrier => exact .inl ⟨stranger, rfl, rfl⟩

/-- Every such sequence fits some code. -/
theorem exists_fits (hps : ps ≠ []) (hcode : HaveCode ps) (j n : Nat) :
    ∃ x xs k, (∀ y ∈ x :: xs, y.isCode = true) ∧
      readingSeq ending (ps.map pattern) (some j) n x xs = .fits k := by
  induction ps generalizing j n with
  | nil => exact absurd rfl hps
  | cons p ps ih =>
    by_cases hrest : ps = []
    · subst hrest
      cases p with
      | word text =>
        obtain ⟨x, hx, hnamed⟩ := hcode text mem_cons_self
        refine ⟨x, [], n, forall_mem_singleton.mpr hx, ?_⟩
        rw [readingSeq_singleton, fitsOn, hnamed]
        rfl
      | option => exact ⟨stranger, [], j, forall_mem_singleton.mpr rfl, readingSeq_singleton _⟩
      | barrier =>
        exact ⟨stranger, [], j, forall_mem_singleton.mpr rfl, readingSeq_singleton _⟩
    · rcases exists_fitsOn hcode with ⟨x, hx, hfits⟩ | ⟨text, rfl, hnone⟩
      · obtain ⟨y, ys, k, hys, hread⟩ := ih hrest hcode.tail n (n + 1)
        exact ⟨x, y :: ys, k, forall_mem_cons.mpr ⟨hx, hys⟩,
          (readingSeq_of_cons hfits hrest y ys).trans hread⟩
      · obtain ⟨y, ys, k, hys, hread⟩ := ih hrest hcode.tail n n
        refine ⟨y, ys, k, hys, (readingSeq_of_leftOut (hnone y ?_) hrest).trans hread⟩
        exact hys y mem_cons_self

/-- An option before a tidy rest is out of place only if that rest is one part that may use
nothing. -/
theorem eq_of_not_isTidy_option (hrest : isTidy ps = true)
    (htidy : isTidy (.option text :: ps) = false) :
    ∃ other, ps = [.option other] ∨ ps = [.barrier other] := by
  cases ps with
  | nil => cases htidy
  | cons q qs =>
    cases qs with
    | nil =>
      cases q with
      | word => cases htidy
      | option other => exact ⟨other, .inl rfl⟩
      | barrier other => exact ⟨other, .inr rfl⟩
    | cons => cases q <;> cases hrest.symm.trans htidy

/-- A sequence that is not tidy can use an element that no word names. -/
theorem exists_uses_stranger (ending : Fault) (htidy : isTidy ps = false) (hcode : HaveCode ps)
    (j n : Nat) :
    ∃ x xs k, (∀ y ∈ x :: xs, y.isCode = true) ∧
      readingSeq ending (ps.map pattern) (some j) n x xs = .fits k ∧
      stranger ∈ (x :: xs).take (k + 1 - n) := by
  induction ps generalizing j n with
  | nil => cases htidy
  | cons p ps ih =>
    have hps : ps ≠ [] := by
      rintro rfl
      cases p <;> cases htidy
    cases hrest : isTidy ps with
    | false =>
      -- the first part comes before the ones that are in the way
      rcases exists_fitsOn hcode with ⟨x, hx, hfits⟩ | ⟨text, rfl, hnone⟩
      · obtain ⟨y, ys, k, hys, hread, hmem⟩ := ih hrest hcode.tail n (n + 1)
        obtain ⟨m, hm, -⟩ := uses_of_readingSeq false hps (n := n + 1) rfl hread
        refine ⟨x, y :: ys, k, forall_mem_cons.mpr ⟨hx, hys⟩,
          (readingSeq_of_cons hfits hps y ys).trans hread, ?_⟩
        rw [show k + 1 - n = k + 1 - (n + 1) + 1 by omega, take_succ_cons]
        exact mem_cons_of_mem x hmem
      · obtain ⟨y, ys, k, hys, hread, hmem⟩ := ih hrest hcode.tail n n
        refine ⟨y, ys, k, hys, (readingSeq_of_leftOut (hnone y ?_) hps).trans hread, hmem⟩
        exact hys y mem_cons_self
    | true =>
      cases p with
      | word => cases hrest.symm.trans htidy
      | barrier =>
        -- any element is passed, and then the rest fits somehow
        obtain ⟨y, ys, k, hys, hread⟩ := exists_fits hps hcode.tail n (n + 1)
        obtain ⟨m, hm, -⟩ := uses_of_readingSeq false hps (n := n + 1) rfl hread
        refine ⟨stranger, y :: ys, k, forall_mem_cons.mpr ⟨rfl, hys⟩,
          (readingSeq_of_cons rfl hps y ys).trans hread, ?_⟩
        rw [show k + 1 - n = m + 1 by omega, take_succ_cons]
        exact mem_cons_self
      | option =>
        -- both of the last parts use nothing, and the element stays seen
        refine ⟨stranger, [], n, forall_mem_singleton.mpr rfl, ?_, by simp⟩
        rw [readingSeq_of_leftOut rfl hps]
        obtain ⟨other, rfl | rfl⟩ := eq_of_not_isTidy_option hrest htidy
        · exact readingSeq_singleton _
        · exact readingSeq_singleton _

/-! ### What is taken -/

/-- The sequence of a word and some parts. -/
def seqOf (first : String) (ps : List SeqPart) : Pattern :=
  .seq ((.word first :: ps).map pattern)

variable {first : String}

theorem isPlain_seqOf (first : String) (ps : List SeqPart) : (seqOf first ps).isPlain = true :=
  allPlain_map_pattern (.word first :: ps)

/-- What is taken is used by the parts. -/
theorem uses_of_takenOn (hps : ps ≠ []) {s : Lookahead Element} (hs : s.looking = false)
    {taken : List Element} (h : (seqOf first ps).takenOn e s = some taken) :
    ∃ rest, taken = e :: rest ∧ Uses false (.word first :: ps) (e :: code rest) := by
  rw [takenOn_eq (isPlain_seqOf first ps) e hs] at h
  obtain ⟨k, hused, rfl⟩ := Option.map_eq_some_iff.mp h
  refine ⟨_, rfl, ?_⟩
  rw [code_upTo]
  change (readingSeq s.ending ((.word first :: ps).map pattern) none 0 e (code s.toList)).used =
    some k at hused
  cases hfirst : e.isNamed first with
  | false =>
    rw [readingSeq_of_not_fitsOn (p := .word first) hfirst rfl hps] at hused
    cases hused
  | true =>
    -- the first word is used, and the other parts read the code behind it
    refine .word hfirst ?_
    cases hcode : code s.toList with
    | nil =>
      rw [hcode, readingSeq_of_nil (p := .word first) hfirst hps] at hused
      cases hused
    | cons x xs =>
      rw [hcode, readingSeq_of_cons (p := .word first) hfirst hps] at hused
      cases hread : readingSeq s.ending (ps.map pattern) (some 0) (0 + 1) x xs with
      | fits j =>
        rw [hread] at hused
        obtain rfl := Option.some.inj hused
        obtain ⟨m, hm, huses⟩ := uses_of_readingSeq false hps (n := 0 + 1) rfl hread
        obtain rfl : m = j := by omega
        exact huses
      | refused | stopped =>
        rw [hread] at hused
        cases hused

/-- Where the parts are not tidy, something can be taken that they do not cover. -/
theorem exists_takenOn_not_covers (htidy : isTidy ps = false)
    (hcode : HaveCode (.word first :: ps)) :
    ∃ e s rest, s.looking = false ∧ (seqOf first ps).takenOn e s = some (e :: rest) ∧
      ¬ Covers (.word first :: ps) (e :: code rest) := by
  have hps : ps ≠ [] := by
    rintro rfl
    cases htidy
  obtain ⟨e, -, he⟩ := hcode first mem_cons_self
  obtain ⟨x, xs, k, hxs, hread, hmem⟩ := exists_uses_stranger .exhausted htidy hcode.tail 0 (0 + 1)
  have hall : code (x :: xs) = x :: xs := filter_eq_self.mpr hxs
  refine ⟨e, .ofList (x :: xs), upTo k (x :: xs), rfl, ?_, fun hcovers => ?_⟩
  · have hfits : (seqOf first ps).reading .exhausted e (code (x :: xs)) = .fits k := by
      rw [hall]
      exact (readingSeq_of_cons (p := .word first) he hps x xs).trans hread
    rw [takenOn_eq (isPlain_seqOf first ps) e rfl]
    exact congrArg (fun outcome : Outcome => outcome.used.map fun k => e :: upTo k (x :: xs)) hfits
  · rw [code_upTo, hall] at hcovers
    obtain ⟨text, hnamed⟩ := hcovers.exists_isNamed (mem_cons_of_mem e hmem)
    cases hnamed

/-- **What a sequence of words, options and barriers takes.** The code that is taken is used by the
parts in the way of `Uses`. If no barrier stands before the last part and the sequence does not end
in two parts that both may use nothing, it is one element for each word and for each of some
options, and nothing for the barriers. For any other sequence whose words can be found there is
something to be taken of which this is not true. -/
theorem takenOn_parts (first : String) (hps : ps ≠ []) :
    (∀ e s taken, s.looking = false → (seqOf first ps).takenOn e s = some taken →
      ∃ rest, taken = e :: rest ∧ Uses false (.word first :: ps) (e :: code rest)) ∧
    (isTidy ps = true → ∀ e s rest, s.looking = false →
      (seqOf first ps).takenOn e s = some (e :: rest) →
        Covers (.word first :: ps) (e :: code rest)) ∧
    (isTidy ps = false → HaveCode (.word first :: ps) →
      ∃ e s rest, s.looking = false ∧ (seqOf first ps).takenOn e s = some (e :: rest) ∧
        ¬ Covers (.word first :: ps) (e :: code rest)) := by
  refine ⟨fun e s taken hs htaken => uses_of_takenOn hps hs htaken, ?_, exists_takenOn_not_covers⟩
  intro htidy e s rest hs htaken
  obtain ⟨rest', hrest, huses⟩ := uses_of_takenOn hps hs htaken
  obtain ⟨-, rfl⟩ := List.cons.inj hrest
  exact huses.covers htidy Bool.noConfusion

/-- A word, one that may be left out, another word and a barrier at the end: the parts cover what is
taken of `A C D`. With the barrier in front of the other word, they do not cover all that can be
taken. -/
theorem takenOn_parts_tidy :
    let ps := [SeqPart.option "b", .word "c", .barrier "x"]
    let untidy := [SeqPart.option "b", .barrier "x", .word "c"]
    (seqOf "a" ps).takenOn (ofWord "A") (.ofList [ofWord "C", ofWord "D"]) =
        some [ofWord "A", ofWord "C"] ∧
      Covers (.word "a" :: ps) [ofWord "A", ofWord "C"] ∧
      ∃ e s rest, s.looking = false ∧ (seqOf "a" untidy).takenOn e s = some (e :: rest) ∧
        ¬ Covers (.word "a" :: untidy) (e :: code rest) := by
  intro ps untidy
  have hcode : HaveCode (.word "a" :: untidy) := by
    intro text htext
    simp only [untidy, mem_cons, SeqPart.word.injEq, reduceCtorEq, not_mem_nil, or_false,
      false_or] at htext
    rcases htext with rfl | rfl
    · exact ⟨ofWord "a", rfl, rfl⟩
    · exact ⟨ofWord "c", rfl, rfl⟩
  obtain ⟨-, hcovers, -⟩ := takenOn_parts "a" (show ps ≠ [] from cons_ne_nil _ _)
  obtain ⟨-, -, hnot⟩ := takenOn_parts "a" (show untidy ≠ [] from cons_ne_nil _ _)
  exact ⟨rfl, hcovers rfl (ofWord "A") (.ofList [ofWord "C", ofWord "D"]) [ofWord "C"] rfl rfl,
    hnot rfl hcode⟩

/-- A barrier in the middle takes the element that it lets pass, and of two options at the end that
are both left out the element that they were tried on stays taken. In neither case do the parts
cover what is taken. -/
theorem takenOn_parts_not_covers :
    (seqOf "a" [.barrier "b", .word "c"]).takenOn (ofWord "a") (.ofList [ofWord "x", ofWord "c"]) =
        some [ofWord "a", ofWord "x", ofWord "c"] ∧
      ¬ Covers [.word "a", .barrier "b", .word "c"] [ofWord "a", ofWord "x", ofWord "c"] ∧
      (seqOf "a" [.option "b", .option "c"]).takenOn (ofWord "a")
        (.ofList [ofWord "x"]) = some [ofWord "a", ofWord "x"] ∧
      ¬ Covers [.word "a", .option "b", .option "c"] [ofWord "a", ofWord "x"] := by
  refine ⟨rfl, fun hcovers => ?_, rfl, fun hcovers => ?_⟩
  · cases hcovers with
    | word _ hcovers =>
      cases hcovers with
      | barrier hcovers =>
        cases hcovers with
        | word hx => cases hx
  · cases hcovers with
    | word _ hcovers =>
      cases hcovers with
      | taken hx => cases hx
      | leftOut hcovers =>
        cases hcovers with
        | taken hx => cases hx
        | leftOut hcovers => cases hcovers

end SeqPart

end EztScan
