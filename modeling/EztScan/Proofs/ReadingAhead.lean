import EztScan.Proofs.OrderedChoice
import EztScan.Proofs.Stages

/-!
# Reading ahead in any order of requests

A stream has a buffer, a mark whether a lookahead is open, and an index that stays behind when a
lookahead is closed. Requests may come in any order: a lookahead may be opened twice, what it has
seen may be used when none is open, and the stream may end at any time. A `Session` is a stream
together with what its user has got from it: what has been used so far, and what has been read since
the lookahead was opened.

What is used and what the stream still gives are always the elements that there were at the
beginning, in their order, and an open lookahead has seen the first ones of those that the stream
still gives (`Session.Whole`). One request keeps this (`Session.Whole.after`), hence so does every
sequence of requests (`Session.whole_afterAll`). A request that stops with a fault changes neither
what the stream gives nor whether a lookahead is open (`Request.unchanged_of_error`).
-/

namespace EztScan.Lookahead

open List

variable {α : Type}
variable {s t : Lookahead α} {x : α} {xs : List α}

/-! ### Elements one by one -/

theorem Opened.next_of_ahead_nil (hs : s.Opened) (h : s.ahead = []) : s.next = .error s.ending := by
  rw [hs.ahead] at h
  obtain ⟨hb, hu⟩ := append_eq_nil_iff.mp h
  unfold next
  rw [if_pos hs.looking, getElem?_eq_none (drop_eq_nil_iff.mp hb), hu]

theorem Opened.next_of_ahead_cons (hs : s.Opened) (h : s.ahead = x :: xs) :
    ∃ t, s.next = .ok (x, t) ∧ Gone s 1 t ∧ t.ahead = xs := by
  have hgone : ∀ {t : Lookahead α}, Gone s 1 t → t.ahead = xs := fun ht => by
    rw [ht.ahead, h, drop_one, tail_cons]
  rw [hs.ahead] at h
  unfold next
  rw [if_pos hs.looking]
  cases hb : s.buffer.drop s.index with
  | cons y =>
    -- the element has been read before
    rw [hb] at h
    obtain ⟨rfl, -⟩ := List.cons.inj h
    have hget : s.buffer[s.index]? = some y := by rw [← head?_drop, hb, head?_cons]
    have hlt : s.index < s.buffer.length := (List.getElem?_eq_some_iff.mp hget).1
    rw [hget]
    have ht : Gone s 1 { s with index := s.index + 1 } := ⟨⟨hs.looking, hlt⟩, rfl, rfl, rfl⟩
    exact ⟨_, rfl, ht, hgone ht⟩
  | nil =>
    have hle := drop_eq_nil_iff.mp hb
    have hu : s.upcoming = x :: xs := by simpa [hb] using h
    rw [getElem?_eq_none hle, hu]
    have ht : Gone s 1
        { s with upcoming := xs, buffer := s.buffer ++ [x], index := s.index + 1 } := by
      refine ⟨⟨hs.looking, ?_⟩, rfl, ?_, rfl⟩
      · rw [length_append]
        exact Nat.succ_le_succ hs.le
      · simp [toList, hu]
    exact ⟨_, rfl, ht, hgone ht⟩

theorem start_of_looking (hs : s.looking = true) : s.start = .error .lookaheadOpen := by
  unfold start
  rw [hs]
  rfl

/-- A look at the next element opens a lookahead and closes it again, so that the element is still
to come. -/
theorem peek_of_toList_cons (hs : s.looking = false) (h : s.toList = x :: xs) :
    ∃ t, s.peek = .ok (x, t) ∧ t.toList = s.toList ∧ t.looking = false := by
  obtain ⟨t, hnext, hgone, -⟩ :=
    (opened_begun s).next_of_ahead_cons ((ahead_of_index_zero rfl).trans h)
  refine ⟨t.stop, ?_, hgone.toList, rfl⟩
  unfold peek
  rw [start_of_closed hs]
  dsimp only
  rw [hnext]

theorem peek_of_toList_nil (hs : s.looking = false) (h : s.toList = []) :
    s.peek = .error s.ending := by
  unfold peek
  rw [start_of_closed hs]
  dsimp only
  rw [(opened_begun s).next_of_ahead_nil ((ahead_of_index_zero rfl).trans h)]
  rfl

theorem peek_of_looking (hs : s.looking = true) : s.peek = .error .lookaheadOpen := by
  unfold peek
  rw [start_of_looking hs]

theorem toList_afterPeek (s : Lookahead α) : s.afterPeek.toList = s.toList := by
  unfold afterPeek
  split <;> rfl

theorem looking_afterPeek (s : Lookahead α) : s.afterPeek.looking = s.looking := by
  unfold afterPeek
  split <;> rfl

/-- The stream gives these elements one after the other, and is then the second one. -/
inductive Gives : Lookahead α → List α → Lookahead α → Prop
  | nil (s : Lookahead α) : Gives s [] s
  | cons {s t u : Lookahead α} {x : α} {xs : List α} (first : s.next = .ok (x, t))
      (others : Gives t xs u) : Gives s (x :: xs) u

/-- While no lookahead is open, what is given is gone. -/
theorem Gives.toList (h : Gives s xs t) (hs : s.looking = false) :
    s.toList = xs ++ t.toList ∧ t.looking = false := by
  induction h with
  | nil => exact ⟨rfl, hs⟩
  | @cons s t u x xs first _ ih =>
    cases hl : s.toList with
    | nil =>
      rw [next_of_toList_nil hs hl] at first
      cases first
    | cons =>
      obtain ⟨t', hnext, ht, hlooking, -⟩ := next_of_toList_cons hs hl
      obtain ⟨rfl, rfl⟩ := Prod.mk.inj (Except.ok.inj (hnext.symm.trans first))
      obtain ⟨hrest, hu⟩ := ih hlooking
      exact ⟨by rw [← ht, hrest, cons_append], hu⟩

/-- While a lookahead is open, what is given is what comes next in it. -/
theorem Gives.gone (h : Gives s xs t) (hs : s.Opened) :
    Gone s xs.length t ∧ s.ahead = xs ++ t.ahead := by
  induction h with
  | nil => exact ⟨.refl hs, rfl⟩
  | @cons s t u x xs first _ ih =>
    cases hl : s.ahead with
    | nil =>
      rw [hs.next_of_ahead_nil hl] at first
      cases first
    | cons =>
      obtain ⟨t', hnext, hgone, ht⟩ := hs.next_of_ahead_cons hl
      obtain ⟨rfl, rfl⟩ := Prod.mk.inj (Except.ok.inj (hnext.symm.trans first))
      obtain ⟨hu, hrest⟩ := ih hgone.opened
      refine ⟨?_, by rw [← ht, hrest, cons_append]⟩
      rw [length_cons, Nat.add_comm]
      exact hgone.trans hu

/-- The elements that are read on the way to a target, over at most `fuel` of them, with the one at
which the way ends. -/
def passedWithin (targets : List Target) : Nat → Lookahead Element → List Element
  | 0, _ => []
  | fuel + 1, s =>
    match s.next with
    | .error _ => []
    | .ok (e, s) =>
      match e.isTarget targets with
      | .ok false => e :: passedWithin targets fuel s
      | _ => [e]

/-- The elements that are read on the way to a target. -/
def passed (targets : List Target) (s : Lookahead Element) : List Element :=
  passedWithin targets (s.toList.length + 1) s

theorem gives_moveToWithin (targets : List Target) (fuel : Nat) (s : Lookahead Element) :
    Gives s (passedWithin targets fuel s) (moveToWithin targets fuel s).2 := by
  induction fuel generalizing s with
  | zero => exact .nil s
  | succ fuel ih =>
    unfold passedWithin moveToWithin
    cases hnext : s.next with
    | error => exact .nil s
    | ok given =>
      obtain ⟨e, t⟩ := given
      dsimp only
      cases e.isTarget targets with
      | error => exact .cons hnext (.nil t)
      | ok found =>
        cases found with
        | true => exact .cons hnext (.nil t)
        | false => exact .cons hnext (ih t)

/-- Moving on reads the elements on the way one by one. -/
theorem gives_moveTo (targets : List Target) (s : Lookahead Element) :
    Gives s (s.passed targets) (s.moveTo targets).2 :=
  gives_moveToWithin targets _ s

/-! ### Requests -/

/-- What can be asked of a stream: the next element, a look at it, moving on to a target, opening a
lookahead, closing it, and using what it has seen. -/
inductive Request where
  | next
  | peek
  | moveTo (targets : List Target)
  | start
  | stop
  | consume

/-- What a request is answered with. -/
inductive Reply where
  /-- An element, or none if there is no target. -/
  | element (e : Option Element)
  /-- The elements that are used now. -/
  | elements (es : List Element)
  | done

namespace Request

/-- The answer to a request, or the fault that stops it, and the stream after it. -/
def serve (s : Lookahead Element) : Request → Except Fault Reply × Lookahead Element
  | .next =>
    match s.next with
    | .ok (e, t) => (.ok (.element (some e)), t)
    | .error f => (.error f, s)
  | .peek =>
    match s.peek with
    | .ok (e, t) => (.ok (.element (some e)), t)
    | .error f => (.error f, s.afterPeek)
  | .moveTo targets => (.ok (.element (s.moveTo targets).1), (s.moveTo targets).2)
  | .start =>
    match s.start with
    | .ok t => (.ok .done, t)
    | .error f => (.error f, s)
  | .stop => (.ok .done, s.stop)
  | .consume => (.ok (.elements s.consume.1), s.consume.2)

/-- The elements that a request reads one by one. A look at the next element is a lookahead of its
own. -/
def reads (s : Lookahead Element) : Request → List Element
  | .next =>
    match s.next with
    | .ok (e, _) => [e]
    | .error _ => []
  | .moveTo targets => s.passed targets
  | _ => []

/-- **A request that stops leaves everything as it was**: what the stream gives, and whether a
lookahead is open. -/
theorem unchanged_of_error {r : Request} {s : Lookahead Element} {f : Fault}
    (h : (r.serve s).1 = .error f) :
    (r.serve s).2.toList = s.toList ∧ (r.serve s).2.looking = s.looking := by
  cases r with
  | next =>
    unfold serve at h ⊢
    cases hnext : s.next with
    | ok =>
      rw [hnext] at h
      cases h
    | error => exact ⟨rfl, rfl⟩
  | peek =>
    unfold serve at h ⊢
    cases hpeek : s.peek with
    | ok =>
      rw [hpeek] at h
      cases h
    | error =>
      exact ⟨s.toList_afterPeek, s.looking_afterPeek⟩
  | start =>
    unfold serve at h ⊢
    cases hstart : s.start with
    | ok =>
      rw [hstart] at h
      cases h
    | error => exact ⟨rfl, rfl⟩
  | moveTo | stop | consume => cases h

end Request

/-! ### Sessions -/

/-- A stream with what its user has got from it. -/
structure Session where
  stream : Lookahead Element
  /-- What has been used so far. -/
  used : List Element := []
  /-- What has been read since the lookahead was opened, if one is open. -/
  seen : List Element := []

namespace Session

/-- The session after a request. Elements that are read are used unless a lookahead is open, and
what a lookahead has seen is used when it is asked for. -/
def after (σ : Session) (r : Request) : Session where
  stream := (r.serve σ.stream).2
  used := σ.used ++
    match (r.serve σ.stream).1 with
    | .ok (.elements es) => es
    | _ => if σ.stream.looking then [] else r.reads σ.stream
  seen := if σ.stream.looking then σ.seen ++ r.reads σ.stream else []

/-- The session after some requests to a stream that gives these elements and then ends or
breaks. -/
def afterAll (xs : List Element) (broken : Option Fault) (requests : List Request) : Session :=
  requests.foldl after { stream := { upcoming := xs, broken } }

/-- What has been used and what the stream still gives are these elements, and an open lookahead has
seen the first ones of those that the stream still gives. -/
structure Whole (xs : List Element) (σ : Session) : Prop where
  order : σ.used ++ σ.stream.toList = xs
  seen : σ.stream.looking = true →
    σ.stream.index ≤ σ.stream.buffer.length ∧ σ.seen = σ.stream.toList.take σ.stream.index

namespace Whole

variable {xs : List Element} {σ : Session}
variable {t : Lookahead Element}

theorem opened (h : Whole xs σ) (hs : σ.stream.looking = true) : σ.stream.Opened :=
  ⟨hs, (h.seen hs).1⟩

/-- Reading elements one by one keeps the session whole, be a lookahead open or not. -/
theorem reads (h : Whole xs σ) {es : List Element} (ht : Gives σ.stream es t) :
    Whole xs ⟨t, σ.used ++ if σ.stream.looking then []
      else es, if σ.stream.looking then σ.seen ++ es else []⟩ := by
  cases hs : σ.stream.looking with
  | true =>
    obtain ⟨hgone, hahead⟩ := ht.gone (h.opened hs)
    rw [if_pos rfl, if_pos rfl, append_nil]
    refine ⟨by rw [hgone.toList]; exact h.order, fun _ => ⟨hgone.opened.le, ?_⟩⟩
    -- the lookahead has seen as many more elements as were read, and these come next
    have htake : (σ.stream.toList.drop σ.stream.index).take es.length = es := by
      change σ.stream.ahead.take es.length = es
      rw [hahead, take_left]
    rw [hgone.toList, hgone.index, take_add, htake, (h.seen hs).2]
  | false =>
    obtain ⟨hlist, hlooking⟩ := ht.toList hs
    rw [if_neg Bool.false_ne_true, if_neg Bool.false_ne_true]
    refine ⟨?_, fun htrue => absurd (hlooking.symm.trans htrue) Bool.false_ne_true⟩
    rw [append_assoc, ← hlist]
    exact h.order

/-- With no lookahead open it is enough that the stream gives the same elements. -/
theorem closed (h : Whole xs σ) (hlist : t.toList = σ.stream.toList) (hlooking : t.looking = false)
    (seen : List Element) : Whole xs ⟨t, σ.used ++ if σ.stream.looking then [] else [], seen⟩ := by
  refine ⟨?_, fun htrue => absurd (hlooking.symm.trans htrue) Bool.false_ne_true⟩
  rw [ite_self, append_nil, hlist]
  exact h.order

/-- **One request keeps the session whole.** -/
theorem after (h : Whole xs σ) (r : Request) : Whole xs (σ.after r) := by
  unfold Session.after Request.serve
  cases r with
  | next =>
    unfold Request.reads
    cases hnext : σ.stream.next with
    | ok => exact h.reads (.cons hnext (.nil _))
    | error => exact h.reads (.nil _)
  | moveTo targets => exact h.reads (gives_moveTo targets σ.stream)
  | stop => exact h.closed (t := σ.stream.stop) rfl rfl _
  | consume =>
    refine ⟨?_, fun htrue => absurd htrue Bool.false_ne_true⟩
    change σ.used ++ σ.stream.consume.1 ++ σ.stream.consume.2.toList = xs
    rw [append_assoc, consume_append]
    exact h.order
  | start =>
    cases hs : σ.stream.looking with
    | true =>
      -- a second lookahead is refused, and the first one goes on
      rw [start_of_looking hs]
      have hsame := h.reads (.nil σ.stream)
      rw [hs] at hsame
      exact hsame
    | false =>
      rw [start_of_closed hs]
      refine ⟨?_, fun _ => ⟨Nat.zero_le _, rfl⟩⟩
      change σ.used ++ [] ++ σ.stream.toList = xs
      rw [append_nil]
      exact h.order
  | peek =>
    cases hs : σ.stream.looking with
    | true =>
      rw [peek_of_looking hs]
      have hsame := h.reads (.nil σ.stream)
      rw [hs] at hsame
      unfold afterPeek
      rw [if_pos hs]
      exact hsame
    | false =>
      cases hl : σ.stream.toList with
      | nil =>
        rw [peek_of_toList_nil hs hl]
        have hsame := h.closed σ.stream.toList_afterPeek (σ.stream.looking_afterPeek.trans hs) []
        rw [hs] at hsame
        exact hsame
      | cons =>
        obtain ⟨t, hpeek, hlist, hlooking⟩ := peek_of_toList_cons hs hl
        rw [hpeek]
        have hsame := h.closed hlist hlooking []
        rw [hs] at hsame
        exact hsame

end Whole

/-- Every sequence of requests keeps the session whole. -/
theorem whole_afterAll (xs : List Element) (broken : Option Fault) (requests : List Request) :
    Whole xs (afterAll xs broken requests) := by
  have hrun : ∀ σ, Whole xs σ → Whole xs (requests.foldl Session.after σ) := by
    induction requests with
    | nil => exact fun σ h => h
    | cons r rs ih => exact fun σ h => ih _ (h.after r)
  exact hrun _ ⟨rfl, fun hs => by cases hs⟩

/-- The next element is the one behind those that an open lookahead has seen, or the first one if
none is open. -/
theorem Whole.serve_next {xs : List Element} {σ : Session} (h : Whole xs σ) (e : Element) :
    (Request.next.serve σ.stream).1 = .ok (.element (some e)) ↔
      σ.stream.toList[if σ.stream.looking then σ.seen.length else 0]? = some e := by
  unfold Request.serve
  cases hs : σ.stream.looking with
  | true =>
    have hlength : σ.seen.length = σ.stream.index := by
      have hle : σ.stream.index ≤ σ.stream.toList.length := by
        rw [toList, length_append]
        exact Nat.le_add_right_of_le (h.seen hs).1
      rw [(h.seen hs).2, length_take, Nat.min_eq_left hle]
    rw [if_pos rfl, hlength, ← head?_drop]
    change _ ↔ σ.stream.ahead.head? = some e
    cases hl : σ.stream.ahead with
    | nil => simp [(h.opened hs).next_of_ahead_nil hl]
    | cons =>
      obtain ⟨t, hnext, -⟩ := (h.opened hs).next_of_ahead_cons hl
      simp [hnext]
  | false =>
    rw [if_neg Bool.false_ne_true]
    cases hl : σ.stream.toList with
    | nil => simp [next_of_toList_nil hs hl]
    | cons =>
      obtain ⟨t, hnext, -⟩ := next_of_toList_cons hs hl
      simp [hnext]

end Session

/-- **Nothing is lost, doubled or put in another order**, whatever is asked of a stream and in
whatever order. What has been used so far, followed by what is in the buffer and what has not been
read, is what there was at the beginning. An open lookahead has been given the first elements of
those that are left, one after the other: the next one is given if and only if there is one more.
With no lookahead open, the next element is the first one that is left. And a request that stops
with a fault leaves the elements and the lookahead as they are. -/
theorem session_keeps_elements (xs : List Element) (broken : Option Fault)
    (requests : List Request) : let σ := Session.afterAll xs broken requests
    σ.used ++ σ.stream.toList = xs ∧
      (σ.stream.looking = true → σ.seen <+: σ.stream.toList) ∧
      (∀ e, (Request.next.serve σ.stream).1 = .ok (.element (some e)) ↔
        σ.stream.toList[if σ.stream.looking then σ.seen.length else 0]? = some e) ∧
      ∀ (r : Request) (f : Fault), (r.serve σ.stream).1 = .error f →
        (r.serve σ.stream).2.toList = σ.stream.toList ∧
          (r.serve σ.stream).2.looking = σ.stream.looking := by
  intro σ
  have hwhole : σ.Whole xs := Session.whole_afterAll xs broken requests
  refine ⟨hwhole.order, fun hs => ?_, hwhole.serve_next,
    fun r f hfault => Request.unchanged_of_error hfault⟩
  rw [(hwhole.seen hs).2]
  exact List.take_prefix _ _

/-- Some words to read. -/
def threeWords : List Element :=
  ["a", "b", "c"].map fun t => .token { text := some t, kind := none }

/-- One word has been used and the next one is looked at; a second lookahead is refused. -/
theorem session_keeps_elements_looking :
    let σ := Session.afterAll threeWords none [.next, .start, .next]
    σ.used ++ σ.stream.toList = threeWords ∧ σ.used.map Element.text = [some "a"] ∧
      (σ.stream.looking = true ∧ σ.seen.map Element.text = [some "b"] ∧
        σ.seen <+: σ.stream.toList) ∧
      (Request.start.serve σ.stream).1 = .error .lookaheadOpen ∧
        (Request.start.serve σ.stream).2.toList = σ.stream.toList ∧
        (Request.start.serve σ.stream).2.looking = σ.stream.looking := by
  intro σ
  obtain ⟨horder, hseen, -, hfault⟩ := session_keeps_elements threeWords none [.next, .start, .next]
  exact ⟨horder, by decide, ⟨by decide, by decide, hseen rfl⟩, rfl, hfault .start _ rfl⟩

end EztScan.Lookahead
