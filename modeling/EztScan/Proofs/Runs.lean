import EztScan.Work

/-!
# Runs that succeed

`Work.Runs w s a t` says that the work `w`, begun in the state `s`, gives the value `a` and ends in
the state `t`. A run of several operations one after the other is taken apart by `runs_bind`: what
is known about each of the operations gives what is known about all of them. Work that stops with a
fault has no such run.

For what holds whether or not the work stops there is `Work.Keeps`: all states that the work can
reach from a state are related to it. `Work.AgreeOn` says that two pieces of work do the same in
certain states, and `Work.Beside` compares two that go the same way: begun in related states, they
have one outcome and end in related states. `Work.Upholds` is the case of work beside itself: it
says what the work makes of states with a property, and what is known about its value.
-/

namespace EztScan.Work

variable {σ τ α β : Type}
variable {w : Work σ α} {s t u : σ} {a : α} {b : β} {f : α → Work σ β} {x : Except Fault α}
variable {read : τ → σ} {put : σ → τ → τ} {fault : Fault} {as : List α}

/-- The work, begun in `s`, gives `a` and ends in `t`. -/
def Runs (w : Work σ α) (s : σ) (a : α) (t : σ) : Prop :=
  w.runOn s = (.ok a, t)

/-- Work that is begun in the same state comes to the same. -/
theorem Runs.unique {b : α} (h : Runs w s a t) (h' : Runs w s b u) : a = b ∧ t = u := by
  obtain ⟨ha, ht⟩ := Prod.mk.inj (h.symm.trans h')
  exact ⟨Except.ok.inj ha, ht⟩

/-- Work that is known to succeed has a run. -/
theorem runs_of_isOk {w : Work σ Unit} (h : (w.runOn s).1.isOk = true) :
    Runs w s () (w.runOn s).2 := by
  refine Prod.ext ?_ rfl
  cases hw : (w.runOn s).1 with
  | ok => rfl
  | error =>
    rw [hw] at h
    cases h

/-! ### Runs of single operations -/

theorem runs_of {f : σ → Except Fault α × σ} : Runs (of f) s a t ↔ f s = (.ok a, t) := Iff.rfl

theorem runs_pure {b : α} : Runs (pure a : Work σ α) s b t ↔ a = b ∧ s = t := by
  unfold Runs
  rw [runOn_pure, Prod.mk.injEq, Except.ok.injEq]

theorem not_runs_throw {f : Fault} : ¬ Runs (throw f : Work σ α) s a t := by
  intro h
  unfold Runs at h
  rw [runOn_throw, Prod.mk.injEq] at h
  exact nomatch h.1

theorem runs_get : Runs (get : Work σ σ) s u t ↔ s = u ∧ s = t := by
  unfold Runs
  rw [runOn_get, Prod.mk.injEq, Except.ok.injEq]

theorem runs_modify {f : σ → σ} {a : PUnit} : Runs (modify f : Work σ PUnit) s a t ↔ f s = t := by
  unfold Runs
  rw [runOn_modify, Prod.mk.injEq]
  exact and_iff_right rfl

theorem runs_ofExcept : Runs (ofExcept x : Work σ α) s a t ↔ x = .ok a ∧ s = t := by
  unfold Runs
  rw [runOn_ofExcept, Prod.mk.injEq]

/-- An attempt always succeeds, with the outcome of the work as its value. -/
theorem runs_attempt : Runs w.attempt s x t ↔ w.runOn s = (x, t) := by
  unfold Runs
  rw [runOn_attempt, Prod.mk.injEq, Except.ok.injEq, Prod.ext_iff]

/-- A run on a part of the state: the part goes where the work takes it, and `put` says what becomes
of the whole. -/
theorem runs_within {s t : τ} :
    Runs (within read put w) s a t ↔ ∃ u, Runs w (read s) a u ∧ put u s = t := by
  unfold Runs
  rw [runOn_within, Prod.mk.injEq]
  constructor
  · rintro ⟨ha, ht⟩
    exact ⟨(w.runOn (read s)).2, Prod.ext ha rfl, ht⟩
  · rintro ⟨u, hu, ht⟩
    rw [hu]
    exact ⟨rfl, ht⟩

/-! ### One operation after another -/

/-- A run of two operations is a run of the first one and then a run of the second one. -/
theorem runs_bind : Runs (w >>= f) s b u ↔ ∃ a t, Runs w s a t ∧ Runs (f a) t b u := by
  unfold Runs
  rw [runOn_bind]
  constructor
  · intro h
    rcases hw : w.runOn s with ⟨outcome, t⟩
    rw [hw] at h
    cases outcome with
    | ok a => exact ⟨a, t, rfl, h⟩
    | error => exact nomatch (Prod.mk.inj h).1
  · rintro ⟨a, t, hw, hf⟩
    rw [hw]
    exact hf

/-- After a run of the first operation, it is up to the second one. -/
theorem Runs.runOn_bind (h : Runs w s a t) (f : α → Work σ β) :
    (w >>= f).runOn s = (f a).runOn t := by
  rw [Work.runOn_bind, h]

/-- Two operations end where the first one stops, or else where the second one ends. -/
theorem of_runOn_bind {P : σ → Prop} (hstop : P (w.runOn s).2)
    (hgoOn : ∀ a t, Runs w s a t → P ((f a).runOn t).2) : P ((w >>= f).runOn s).2 := by
  rcases hw : w.runOn s with ⟨outcome, t⟩
  cases outcome with
  | ok a =>
    rw [Runs.runOn_bind hw]
    exact hgoOn a t hw
  | error =>
    rw [Work.runOn_bind, hw]
    rw [hw] at hstop
    exact hstop

theorem runs_bind_pure {g : α → β} :
    Runs (w >>= fun a => pure (g a)) s b t ↔ ∃ a, Runs w s a t ∧ g a = b := by
  rw [runs_bind]
  constructor
  · rintro ⟨a, u, hw, h⟩
    obtain ⟨rfl, rfl⟩ := runs_pure.mp h
    exact ⟨a, hw, rfl⟩
  · rintro ⟨a, hw, rfl⟩
    exact ⟨a, t, hw, runs_pure.mpr ⟨rfl, rfl⟩⟩

/-- What goes on after reading the state goes on from that state. -/
theorem runs_get_bind {f : σ → Work σ β} : Runs (get >>= f) s b t ↔ Runs (f s) s b t := by
  rw [runs_bind]
  constructor
  · rintro ⟨_, _, hget, h⟩
    obtain ⟨rfl, rfl⟩ := runs_get.mp hget
    exact h
  · exact fun h => ⟨s, s, runs_get.mpr ⟨rfl, rfl⟩, h⟩

/-- What goes on with a value that may be missing goes on if it is there. -/
theorem runs_ofExcept_bind : Runs (ofExcept x >>= f) s b t ↔ ∃ a, x = .ok a ∧ Runs (f a) s b t := by
  rw [runs_bind]
  simp only [runs_ofExcept, and_assoc, exists_and_left, exists_eq_left']

theorem runs_discard {u : Unit} : Runs (discard w) s u t ↔ ∃ a, Runs w s a t := by
  change Runs ((fun _ => ()) <$> w) s u t ↔ _
  rw [map_eq_pure_bind, runs_bind]
  constructor
  · rintro ⟨a, _, hw, hpure⟩
    obtain ⟨-, rfl⟩ := runs_pure.mp hpure
    exact ⟨a, hw⟩
  · exact fun ⟨a, hw⟩ => ⟨a, t, hw, runs_pure.mpr ⟨rfl, rfl⟩⟩

theorem not_runs_throw_bind : ¬ Runs ((throw fault : Work σ α) >>= f) s b t := by
  intro h
  obtain ⟨_, _, hthrow, -⟩ := runs_bind.mp h
  exact not_runs_throw hthrow

/-! ### What all runs keep -/

/-- Wherever the work ends, with a value or with a fault, the state there is related by `R` to the
one it began in. -/
def Keeps (R : σ → σ → Prop) (w : Work σ α) : Prop :=
  ∀ s, R s (w.runOn s).2

/-- The relation between states that carries a property over. -/
def Preserves (I : σ → Prop) (s t : σ) : Prop :=
  I s → I t

instance (I : σ → Prop) : Std.Refl (Preserves I) := ⟨fun _ h => h⟩

instance (I : σ → Prop) : Trans (Preserves I) (Preserves I) (Preserves I) :=
  ⟨fun hst htu h => htu (hst h)⟩

section Keeps

variable {R : σ → σ → Prop} [Std.Refl R]
variable {f : α → Work σ β} {w : Work σ α}

theorem keeps_pure (a : α) : Keeps R (pure a : Work σ α) :=
  fun s => Std.Refl.refl s

theorem keeps_throw (f : Fault) : Keeps R (throw f : Work σ α) :=
  fun s => Std.Refl.refl s

theorem keeps_get : Keeps R (get : Work σ σ) :=
  fun s => Std.Refl.refl s

theorem keeps_ofExcept (x : Except Fault α) : Keeps R (ofExcept x : Work σ α) :=
  fun s => Std.Refl.refl s

omit [Std.Refl R] in
theorem keeps_modify {f : σ → σ} (h : ∀ s, R s (f s)) : Keeps R (modify f : Work σ PUnit) :=
  h

omit [Std.Refl R] in
theorem Keeps.of_runs (hw : Keeps R w) (h : Runs w s a t) : R s t := by
  have hst := hw s
  rw [h] at hst
  exact hst

omit [Std.Refl R] in
theorem Keeps.attempt (hw : Keeps R w) : Keeps R w.attempt :=
  hw

omit [Std.Refl R] in
theorem Keeps.bind [Trans R R R] (hw : Keeps R w) (hf : ∀ a, Keeps R (f a)) :
    Keeps R (w >>= f) := by
  intro s
  rw [runOn_bind]
  have hst := hw s
  rcases hr : w.runOn s with ⟨outcome, t⟩
  rw [hr] at hst
  cases outcome with
  | ok a => exact Trans.trans hst (hf a t)
  | error => exact hst

/-- What an outcome that is given says may be used for what comes next. -/
theorem keeps_ofExcept_bind (h : ∀ a, x = .ok a → Keeps R (f a)) : Keeps R (ofExcept x >>= f) := by
  intro s
  rw [runOn_bind, runOn_ofExcept]
  cases x with
  | ok a => exact h a rfl s
  | error => exact Std.Refl.refl s

theorem Keeps.discard [Trans R R R] (hw : Keeps R w) : Keeps R (discard w) := by
  change Keeps R ((fun _ => ()) <$> w)
  rw [map_eq_pure_bind]
  exact hw.bind fun _ => keeps_pure _

theorem keeps_forM [Trans R R R] {f : α → Work σ PUnit} (h : ∀ a ∈ as, Keeps R (f a)) :
    Keeps R (as.forM f) := by
  induction as with
  | nil => exact keeps_pure _
  | cons a as ih =>
    change Keeps R (f a >>= fun _ => as.forM f)
    exact (h a List.mem_cons_self).bind fun _ => ih fun b hb => h b (List.mem_cons_of_mem a hb)

end Keeps

/-! ### Work that does the same -/

section AgreeOn

variable {I : σ → Prop}
variable {w v : Work σ α} {f g : α → Work σ β}

/-- It is enough if the second operations do the same wherever the first one can end. -/
theorem runOn_bind_congr (h : ∀ a t, Runs w s a t → (f a).runOn t = (g a).runOn t) :
    (w >>= f).runOn s = (w >>= g).runOn s := by
  rw [runOn_bind, runOn_bind]
  rcases hw : w.runOn s with ⟨outcome, t⟩
  cases outcome with
  | ok a => exact h a t hw
  | error => rfl

/-- Two pieces of work do the same in states with the property `I`. -/
def AgreeOn (I : σ → Prop) (v w : Work σ α) : Prop :=
  ∀ s, I s → v.runOn s = w.runOn s

theorem agreeOn_refl (w : Work σ α) : AgreeOn I w w :=
  fun _ _ => rfl

theorem AgreeOn.bind_left (h : AgreeOn I v w) (f : α → Work σ β) :
    AgreeOn I (v >>= f) (w >>= f) := by
  intro s hs
  rw [runOn_bind, runOn_bind, h s hs]

/-- What follows is begun in a state with the property too. -/
theorem AgreeOn.bind (h : AgreeOn I v w) (hkeeps : Keeps (Preserves I) v)
    (hfg : ∀ a, AgreeOn I (f a) (g a)) : AgreeOn I (v >>= f) (w >>= g) := by
  intro s hs
  rw [← h.bind_left g s hs]
  exact runOn_bind_congr fun a t ht => hfg a t (hkeeps.of_runs ht hs)

theorem AgreeOn.attempt (h : AgreeOn I v w) : AgreeOn I v.attempt w.attempt := by
  intro s hs
  rw [runOn_attempt, runOn_attempt, h s hs]

end AgreeOn

/-! ### Two runs side by side -/

/-- Two pieces of work, begun in states related by `R`, have the same outcome and end in states
related by `R`. A value that they give has the property `Q`. -/
def Beside (R : σ → τ → Prop) (Q : α → Prop) (v : Work σ α) (w : Work τ α) : Prop :=
  ∀ s t, R s t →
    (v.runOn s).1 = (w.runOn t).1 ∧ (∀ a, (v.runOn s).1 = .ok a → Q a) ∧
      R (v.runOn s).2 (w.runOn t).2

section Beside

variable {R : σ → τ → Prop} {P : β → Prop} {Q : α → Prop}
variable {f : α → Work σ β} {g : α → Work τ β} {v : Work σ α} {w : Work τ α}

theorem beside_pure (ha : Q a) : Beside R Q (pure a) (pure a) := by
  intro s t hst
  refine ⟨rfl, fun b hb => ?_, hst⟩
  rw [← Except.ok.inj hb]
  exact ha

theorem beside_throw (f : Fault) : Beside R Q (throw f) (throw f) :=
  fun _ _ hst => ⟨rfl, fun _ h => (nomatch h), hst⟩

theorem beside_ofExcept (hx : ∀ a, x = .ok a → Q a) : Beside R Q (ofExcept x) (ofExcept x) :=
  fun _ _ hst => ⟨rfl, hx, hst⟩

theorem beside_modify {f : σ → σ} {g : τ → τ} (h : ∀ s t, R s t → R (f s) (g t)) :
    Beside R (fun _ => True) (modify f : Work σ PUnit) (modify g : Work τ PUnit) :=
  fun s t hst => ⟨rfl, fun _ _ => trivial, h s t hst⟩

theorem Beside.mono {Q' : α → Prop} (h : Beside R Q v w) (hq : ∀ a, Q a → Q' a) :
    Beside R Q' v w := by
  intro s t hst
  obtain ⟨ho, ha, hr⟩ := h s t hst
  exact ⟨ho, fun a hv => hq a (ha a hv), hr⟩

/-- What the first operations give may be used for the second ones. -/
theorem Beside.bind (h : Beside R Q v w) (hfg : ∀ a, Q a → Beside R P (f a) (g a)) :
    Beside R P (v >>= f) (w >>= g) := by
  intro s t hst
  obtain ⟨ho, ha, hr⟩ := h s t hst
  rw [runOn_bind, runOn_bind]
  rcases hv : v.runOn s with ⟨outcome, s'⟩
  rcases hw : w.runOn t with ⟨outcome', t'⟩
  rw [hv, hw] at ho hr
  rw [hv] at ha
  obtain rfl : outcome = outcome' := ho
  cases outcome with
  | ok a => exact hfg a (ha a rfl) s' t' hr
  | error => exact ⟨rfl, fun _ h => (nomatch h), hr⟩

/-- What comes after a fault does not matter. -/
theorem beside_throw_bind : Beside R P (throw fault >>= f) (throw fault >>= g) :=
  (beside_throw (Q := fun _ => False) fault).bind fun _ h => h.elim

theorem Beside.map {f : α → β} (h : Beside R Q v w) (hf : ∀ a, Q a → P (f a)) :
    Beside R P (f <$> v) (f <$> w) := by
  rw [map_eq_pure_bind, map_eq_pure_bind]
  exact h.bind fun a ha => beside_pure (hf a ha)

theorem Beside.discard (h : Beside R Q v w) : Beside R (fun _ => True) (discard v) (discard w) :=
  h.map fun _ _ => trivial

theorem Beside.attempt (h : Beside R Q v w) :
    Beside R (fun x => ∀ a, x = .ok a → Q a) v.attempt w.attempt := by
  intro s t hst
  obtain ⟨ho, ha, hr⟩ := h s t hst
  refine ⟨congrArg Except.ok ho, fun x hx => ?_, hr⟩
  rw [← Except.ok.inj hx]
  exact ha

/-- Work for each element of a list goes side by side if it does so for each of them. -/
theorem beside_forM {f : α → Work σ PUnit} {g : α → Work τ PUnit}
    (h : ∀ a ∈ as, Beside R (fun _ => True) (f a) (g a)) :
    Beside R (fun _ => True) (as.forM f) (as.forM g) := by
  induction as with
  | nil => exact beside_pure trivial
  | cons a as ih =>
    change Beside R _ (f a >>= fun _ => as.forM f) (g a >>= fun _ => as.forM g)
    exact (h a List.mem_cons_self).bind fun _ _ => ih fun b hb => h b (List.mem_cons_of_mem a hb)

end Beside

/-! ### What work upholds -/

/-- Begun in a state with the property `I`, the work ends in such a state, with a value or with a
fault, and a value that it gives has the property `Q`. -/
abbrev Upholds (I : σ → Prop) (Q : α → Prop) (w : Work σ α) : Prop :=
  Beside (fun s t => s = t ∧ I s) Q w w

section Upholds

variable {I : σ → Prop} {Q : α → Prop}
variable {w : Work σ α}

theorem upholds_iff :
    Upholds I Q w ↔ ∀ s, I s → I (w.runOn s).2 ∧ ∀ a, (w.runOn s).1 = .ok a → Q a := by
  constructor
  · intro h s hs
    obtain ⟨-, ha, -, ht⟩ := h s s ⟨rfl, hs⟩
    exact ⟨ht, ha⟩
  · rintro h s _ ⟨rfl, hs⟩
    obtain ⟨ht, ha⟩ := h s hs
    exact ⟨rfl, ha, rfl, ht⟩

theorem upholds_get : Upholds I I (get : Work σ σ) :=
  upholds_iff.mpr fun _ hs => ⟨hs, fun _ ha => Except.ok.inj ha ▸ hs⟩

theorem upholds_modify {f : σ → σ} (h : ∀ s, I s → I (f s)) :
    Upholds I (fun _ => True) (modify f : Work σ PUnit) :=
  upholds_iff.mpr fun s hs => ⟨h s hs, fun _ _ => trivial⟩

/-- Work on a part upholds what is said about the whole if it goes together with what is said about
the part. -/
theorem Upholds.within {J : τ → Prop} (hw : Upholds I Q w) (hread : ∀ t, J t → I (read t))
    (hput : ∀ s t, I s → J t → J (put s t)) : Upholds J Q (within read put w) := by
  refine upholds_iff.mpr fun t ht => ?_
  obtain ⟨hs, ha⟩ := upholds_iff.mp hw (read t) (hread t ht)
  exact ⟨hput _ _ hs ht, ha⟩

end Upholds

end EztScan.Work
