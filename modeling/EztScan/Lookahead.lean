import EztScan.Fault

/-!
# Lookahead

A stream of elements that can be read ahead of its use. While a lookahead is open, elements that are
read are kept in a buffer, and `index` says how many of them have been seen; when it is closed, what
has been seen is either given back (`stop`) or used (`consume`). What the stream still gives is
`toList`: reading ahead and giving back leaves it as it was.

A stream may end in a fault of whatever feeds it instead of just ending.
-/

namespace EztScan

/-- A stream of elements that can be read ahead of its use. -/
structure Lookahead (α : Type) where
  /-- What has not been read at all. -/
  upcoming : List α
  /-- What comes instead of the end, if what feeds the stream stopped. -/
  broken : Option Fault := none
  /-- Is a lookahead open? -/
  looking : Bool := false
  /-- What has been read but not used. -/
  buffer : List α := []
  /-- How many elements of the buffer the last lookahead has seen. -/
  index : Nat := 0

namespace Lookahead

variable {α : Type}

/-- The stream of the elements of a list. -/
def ofList (xs : List α) : Lookahead α :=
  { upcoming := xs }

/-- What the stream still gives. -/
def toList (s : Lookahead α) : List α :=
  s.buffer ++ s.upcoming

/-- The fault at the end of the stream. -/
def ending (s : Lookahead α) : Fault :=
  s.broken.getD .exhausted

/-- The next element. A lookahead goes through the buffer first and keeps what it reads. -/
def next (s : Lookahead α) : Except Fault (α × Lookahead α) :=
  if s.looking then
    match s.buffer[s.index]? with
    | some x => .ok (x, { s with index := s.index + 1 })
    | none =>
      match s.upcoming with
      | x :: xs =>
        .ok (x, { s with upcoming := xs, buffer := s.buffer ++ [x], index := s.index + 1 })
      | [] => .error s.ending
  else
    match s.buffer with
    | x :: xs => .ok (x, { s with buffer := xs })
    | [] =>
      match s.upcoming with
      | x :: xs => .ok (x, { s with upcoming := xs })
      | [] => .error s.ending

/-- The elements up to the first one with a property, that one included, and the ones after it.
Without any such element, all of them. -/
def spanTo (p : α → Bool) : List α → List α × Option (α × List α)
  | [] => ([], none)
  | x :: xs =>
    if p x then ([x], some (x, xs))
    else
      let (skipped, found) := spanTo p xs
      (x :: skipped, found)

/-- The next element with a property. Those before it are read, too. -/
def nextThat (p : α → Bool) (s : Lookahead α) : Except Fault α × Lookahead α :=
  match spanTo p (if s.looking then s.buffer.drop s.index else s.buffer) with
  | (read, some (x, rest)) =>
    (.ok x, if s.looking then { s with index := s.index + read.length }
      else { s with buffer := rest })
  | (read, none) =>
    let (more, found) := spanTo p s.upcoming
    let left := (found.map (·.2)).getD []
    (match found with
      | some (x, _) => .ok x
      | none => .error s.ending,
      if s.looking then
        { s with
          upcoming := left
          buffer := s.buffer ++ more
          index := s.index + read.length + more.length }
      else { s with upcoming := left, buffer := [] })

/-- Reads at most `fuel` elements, as many as there are. -/
def drainWithin : Nat → Lookahead α → List α × Lookahead α
  | 0, s => ([], s)
  | fuel + 1, s =>
    match s.next with
    | .error _ => ([], s)
    | .ok (x, s) =>
      let (xs, s) := drainWithin fuel s
      (x :: xs, s)

/-- Reads all elements that there are. -/
def drain (s : Lookahead α) : List α × Lookahead α :=
  drainWithin s.toList.length s

/-- Opens a lookahead. -/
def start (s : Lookahead α) : Except Fault (Lookahead α) :=
  if s.looking then .error .lookaheadOpen else .ok { s with looking := true, index := 0 }

/-- Closes a lookahead and gives back what it has seen. -/
def stop (s : Lookahead α) : Lookahead α :=
  { s with looking := false }

/-- Closes a lookahead and uses what it has seen. -/
def consume (s : Lookahead α) : List α × Lookahead α :=
  (s.buffer.take s.index, { s with looking := false, buffer := s.buffer.drop s.index })

/-- Puts an element back in front. -/
def unread (s : Lookahead α) (x : α) : Lookahead α :=
  { s with buffer := x :: s.buffer }

/-- The next element, without using it. -/
def peek (s : Lookahead α) : Except Fault (α × Lookahead α) :=
  match s.start with
  | .error f => .error f
  | .ok s =>
    match s.next with
    | .error f => .error f
    | .ok (x, s) => .ok (x, s.stop)

/-- The stream after a failed `peek`: a lookahead that was open stays open, and otherwise one has
been opened and closed. -/
def afterPeek (s : Lookahead α) : Lookahead α :=
  if s.looking then s else { s with index := 0 }

@[simp] theorem toList_ofList (xs : List α) : (ofList xs).toList = xs := rfl

@[simp] theorem toList_stop (s : Lookahead α) : s.stop.toList = s.toList := rfl

@[simp] theorem toList_unread (s : Lookahead α) (x : α) : (s.unread x).toList = x :: s.toList := rfl

/-- Used elements are the first ones that the stream would have given. -/
theorem consume_append (s : Lookahead α) : s.consume.1 ++ s.consume.2.toList = s.toList := by
  simp [consume, toList, ← List.append_assoc, List.take_append_drop]

end Lookahead

end EztScan
