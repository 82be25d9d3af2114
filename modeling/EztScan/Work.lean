import EztScan.Fault

/-!
# Work

Operations that go on from a state and may stop with a fault. The state that was reached is kept in
both cases: what an operation has done before it stopped is not undone.
-/

namespace EztScan

/-- An operation on a state that gives a value or stops with a fault. -/
abbrev Work (σ α : Type) : Type :=
  ExceptT Fault (StateM σ) α

namespace Work

variable {σ τ α : Type}

/-- The outcome and the state that an operation reaches from a state. -/
def runOn (w : Work σ α) (s : σ) : Except Fault α × σ :=
  w.run s

/-- The operation that takes a state to this outcome and state. -/
def of (f : σ → Except Fault α × σ) : Work σ α :=
  ExceptT.mk f

/-- The operation that gives this outcome and leaves the state alone. -/
def ofExcept (outcome : Except Fault α) : Work σ α :=
  of fun s => (outcome, s)

/-- Does the work and gives its outcome as a value, so that a fault does not stop what comes
next. -/
def attempt (w : Work σ α) : Work σ (Except Fault α) :=
  of fun s =>
    let (outcome, s) := w.runOn s
    (.ok outcome, s)

/-- Does work on a part of the state. -/
def within (get : τ → σ) (put : σ → τ → τ) (w : Work σ α) : Work τ α :=
  of fun t =>
    let (outcome, s) := w.runOn (get t)
    (outcome, put s t)

/-! ### What runs reach -/

@[simp] theorem runOn_of (f : σ → Except Fault α × σ) (s : σ) : (of f).runOn s = f s := rfl

@[simp] theorem runOn_pure (a : α) (s : σ) : (pure a : Work σ α).runOn s = (.ok a, s) := rfl

@[simp] theorem runOn_throw (f : Fault) (s : σ) :
    (throw f : Work σ α).runOn s = (.error f, s) := rfl

@[simp] theorem runOn_get (s : σ) : (get : Work σ σ).runOn s = (.ok s, s) := rfl

@[simp] theorem runOn_set (s t : σ) : (set t : Work σ PUnit).runOn s = (.ok ⟨⟩, t) := rfl

@[simp] theorem runOn_modify (f : σ → σ) (s : σ) :
    (modify f : Work σ PUnit).runOn s = (.ok ⟨⟩, f s) := rfl

@[simp] theorem runOn_ofExcept (outcome : Except Fault α) (s : σ) :
    (ofExcept outcome : Work σ α).runOn s = (outcome, s) := rfl

/-- One operation after another: the second goes on from the state that the first has reached,
unless the first stops. -/
theorem runOn_bind {β : Type} (w : Work σ α) (f : α → Work σ β) (s : σ) :
    (w >>= f).runOn s =
      match w.runOn s with
      | (.ok a, t) => (f a).runOn t
      | (.error e, t) => (.error e, t) := by
  change ExceptT.bindCont f (w.runOn s).1 (w.runOn s).2 = _
  rcases w.runOn s with ⟨outcome, t⟩
  cases outcome with
  | ok => rfl
  | error => rfl

/-- An attempt never stops, and reaches the state that the work reaches. -/
@[simp] theorem runOn_attempt (w : Work σ α) (s : σ) :
    w.attempt.runOn s = (.ok (w.runOn s).1, (w.runOn s).2) := rfl

@[simp] theorem runOn_within (read : τ → σ) (put : σ → τ → τ) (w : Work σ α) (t : τ) :
    (within read put w).runOn t = ((w.runOn (read t)).1, put (w.runOn (read t)).2 t) := rfl

end Work

end EztScan
