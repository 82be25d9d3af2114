import EztScan.Proofs.Readings

/-!
# Stages that stop on a fault

`Move` says what a step does that succeeds. Here is said what a step has come to that stops, for
stages with statements and terms only, all of whose patterns come down to ordered choice
(`Index.IsPlain`). Trying a pattern never stops by itself then: it fits, or it does not, or the
stream ends in a fault that it has brought along. What remains are nodes whose regrouping stops, and
statements and terms that cannot be completed. `Break` lists these ways.

A whole run stops where one of its steps does, or at the end, with the statement that is left open.
So what is known about faults is found by an invariant that moves keep (`Guard`): it has to say what
a break under it can be, and then it holds of all runs (`Guard.fault_of_run`) and of regrouping at
any depth.
-/

namespace EztScan

open List

variable {f : Fault} {d : Desk} {b : Bench} {es rest : List Element} {n : Node} {o : OpenNode}
  {l : Ledger}
variable {h : Desk → Desk} {p : Pattern} {depth : Nat}

/-! ### Work that stops -/

namespace Work

variable {σ τ α β : Type} {f g : Fault} {s : σ}
variable {w : Work σ α} {k : α → Work σ β}

/-- The work, begun in `s`, stops with the fault `f`. -/
def Stops (w : Work σ α) (s : σ) (f : Fault) : Prop :=
  (w.runOn s).1 = .error f

theorem not_stops_pure {a : α} : ¬ Stops (pure a : Work σ α) s f :=
  nofun

theorem not_stops_get : ¬ Stops (get : Work σ σ) s f :=
  nofun

theorem not_stops_modify {h : σ → σ} : ¬ Stops (modify h : Work σ PUnit) s f :=
  nofun

theorem not_stops_attempt : ¬ Stops w.attempt s f :=
  nofun

theorem stops_throw : Stops (throw f : Work σ α) s g ↔ f = g := by
  unfold Stops
  rw [runOn_throw, Except.error.injEq]

theorem stops_within {read : τ → σ} {put : σ → τ → τ} {t : τ} :
    Stops (within read put w) t f ↔ Stops w (read t) f :=
  Iff.rfl

/-- Of two operations the first one stops, or it succeeds and the second one stops. -/
theorem stops_bind : Stops (w >>= k) s f ↔ Stops w s f ∨ ∃ a t, Runs w s a t ∧ Stops (k a) t f := by
  unfold Stops Runs
  rw [runOn_bind]
  rcases hw : w.runOn s with ⟨outcome, t⟩
  cases outcome with
  | error =>
    constructor
    · intro h
      cases h
      exact .inl rfl
    · rintro (h | ⟨a, u, hrun, -⟩)
      · cases h
        rfl
      · cases hrun
  | ok a =>
    constructor
    · exact fun h => .inr ⟨a, t, rfl, h⟩
    · rintro (h | ⟨a', u, hrun, h⟩)
      · cases h
      · cases hrun
        exact h

theorem stops_get_bind {k : σ → Work σ β} : Stops (get >>= k) s f ↔ Stops (k s) s f := by
  rw [stops_bind]
  constructor
  · rintro (h | ⟨a, t, hget, h⟩)
    · exact absurd h not_stops_get
    · obtain ⟨rfl, rfl⟩ := runs_get.mp hget
      exact h
  · exact fun h => .inr ⟨s, s, runs_get.mpr ⟨rfl, rfl⟩, h⟩

theorem stops_throw_bind : Stops ((throw f : Work σ α) >>= k) s g ↔ f = g := by
  rw [stops_bind, stops_throw]
  refine or_iff_left ?_
  rintro ⟨a, t, hthrow, -⟩
  exact not_runs_throw hthrow

/-- Behind an operation that never stops, only the next one does. -/
theorem exists_of_stops_bind (hw : ¬ Stops w s f) (h : Stops (w >>= k) s f) :
    ∃ a t, Runs w s a t ∧ Stops (k a) t f :=
  (stops_bind.mp h).resolve_left hw

/-- In front of an operation that never stops, only the first one does. -/
theorem stops_of_bind (hk : ∀ a t, ¬ Stops (k a) t f) (h : Stops (w >>= k) s f) : Stops w s f :=
  (stops_bind.mp h).resolve_right fun ⟨a, t, _, h⟩ => hk a t h

theorem not_stops_bind (hw : ¬ Stops w s f) (hk : ∀ a t, ¬ Stops (k a) t f) :
    ¬ Stops (w >>= k) s f :=
  fun h => hw (stops_of_bind hk h)

theorem not_stops_forM {k : α → Work σ PUnit} (hk : ∀ a s, ¬ Stops (k a) s f) :
    ∀ (as : List α) (s : σ), ¬ Stops (as.forM k) s f := by
  intro as
  induction as with
  | nil => exact fun s => not_stops_pure
  | cons a as ih => exact fun s => not_stops_bind (hk a s) fun _ => ih

end Work

open Work Element

/-! ### Attempts -/

/-- **An attempt never stops by itself**: if it does, the stream has ended in a fault of its own. -/
theorem Pattern.ending_of_stops_tryOn (hp : p.isOrdered = true) {e : Element} {take : Bool}
    {s : Lookahead Element} (hs : s.looking = false) (h : Stops (p.tryOn e take) s f) :
    f = s.ending ∧ f ≠ .exhausted := by
  unfold Stops at h
  rw [runOn_tryOn p e take hs] at h
  obtain ⟨outcome, hagrees, hmeets⟩ := agrees_fits hp e s.opened_begun
  generalize (p.fits e).runOn s.begun = reached at h hmeets
  cases hmeets with
  | fits => cases take <;> cases h
  | refused => cases h
  | @stopped m g =>
    -- running out of elements is an answer, all other faults go on
    cases g with
    | exhausted => cases h
    | _ =>
      cases h
      refine ⟨hagrees.1, fun heq => ?_⟩
      cases heq

/-- Rules for statements and terms only, with patterns that come down to ordered choice. -/
structure Index.IsPlain (index : Index) : Prop where
  blocks : index.blocks = {}
  openings : Grouping.areAll Pattern.isOrdered Rule.opening
    (index.statements.byWord.map (·.2) ++ index.statements.others) = true
  closings : Grouping.areAll Pattern.isOrdered Rule.closing
    (index.statements.byWord.map (·.2) ++ index.statements.others) = true
  shapes : Grouping.areAll Pattern.isOrdered Rule.shape
    (index.terms.byWord.map (·.2) ++ index.terms.others) = true

/-- There are no blocks on the desk, what waits are blanks and comments, and the open statement is
one of the grammar. -/
structure Desk.Follows (d : Desk) (index : Index) : Prop where
  stack : d.stack = []
  comments : ∀ x ∈ d.comments, x.isCode = false
  rule : ∀ o, d.statement = some o →
    o.rule ∈ index.statements.byWord.map (·.2) ++ index.statements.others

theorem Desk.follows_of_statement_eq_none (index : Index) (hs : d.stack = [])
    (hc : ∀ x ∈ d.comments, x.isCode = false) (h : d.statement = none) : d.Follows index := by
  refine ⟨hs, hc, fun o ho => ?_⟩
  rw [h] at ho
  cases ho

theorem Desk.follows_empty (index : Index) : Desk.Follows {} index :=
  follows_of_statement_eq_none index rfl (forall_mem_nil _) rfl

namespace Grouping

variable {b' : Bench} {d' : Desk} {out rest' : List Element}

/-! ### Breaks -/

/-- The stream of the bench ends in this fault, and not just so. -/
def Ended (b : Bench) (f : Fault) : Prop :=
  f = b.stream.ending ∧ f ≠ .exhausted

theorem Ended.of_goes (hg : b.Goes d rest k b') (h : Ended b' f) : Ended b f := by
  refine ⟨h.1.trans ?_, h.2⟩
  unfold Lookahead.ending
  rw [hg.broken]

/-- The ways to stop on an element `e` with a desk `d`, if no block is open. The last index are the
elements that come after `e`. -/
inductive Break (index : Index) (regroup : Node → Work Ledger Node) (d : Desk) (e : Element)
    (f : Fault) : List Element → Prop
  /-- It ends the open statement and is taken in by it, but the statement cannot be completed. -/
  | close (o : OpenNode) (taken rest : List Element) (hd : d.statement = some o)
      (htakes : o.rule.takesEnd = true)
      (hclose : Pattern.Takes o.rule.closing e taken rest)
      (hf : (((o.pushAll d.comments).setClosing (e :: taken).length).pushAll
        (e :: taken)).complete.2 = some f) :
      Break index regroup d e f (taken ++ rest)
  /-- It ends the open statement, which does not take it in and cannot be completed. -/
  | leave (o : OpenNode) (rest : List Element) (hd : d.statement = some o)
      (htakes : o.rule.takesEnd = false)
      (hf : o.complete.2 = some f) : Break index regroup d e f rest
  /-- It begins a statement in place of the open one, which cannot be completed. -/
  | interrupt (o : OpenNode) (r : Rule) (taken rest : List Element) (hd : d.statement = some o)
      (hr : FirstFit Rule.opening (index.statements.rulesFor e) e r taken rest)
      (hopen : StaysOpen o e (taken ++ rest))
      (hf : o.complete.2 = some f) : Break index regroup d e f (taken ++ rest)
  /-- It is a term, together with some that come next, and one of these cannot be regrouped. -/
  | inside (r : Rule) (taken rest : List Element) (hd : d.statement = none)
      (hr : FirstFit Rule.shape (index.terms.rulesFor e) e r taken rest) (h : Head)
      (cs : List Element) (l : Ledger)
      (hmem : .node h cs ∈ d.comments ++ e :: taken) (hf : Stops (regroup ⟨h, cs⟩) l f) :
      Break index regroup d e f (taken ++ rest)
  /-- It is a term, together with some that come next, and cannot be completed. -/
  | term (r : Rule) (number : Nat) (o : OpenNode) (taken children rest : List Element)
      (hd : d.statement = none)
      (hr : FirstFit Rule.shape (index.terms.rulesFor e) e r taken rest)
      (ho : o = .begin r number .open d.comments (e :: taken))
      (hch : Forall₂ (Rebuilt regroup) o.node.children children)
      (hf : (o.withNode { o.node with children }).complete.2 = some f) :
      Break index regroup d e f (taken ++ rest)

variable {index : Index} {regroup : Node → Work Ledger Node} {e : Element} {b : Bench} {f : Fault}

/-- A step that stops does so at the end of the stream, or it breaks. -/
def Broken (index : Index) (regroup : Node → Work Ledger Node) (b : Bench) (e : Element)
    (f : Fault) : Prop :=
  Ended b f ∨ Break index regroup b.desk e f b.stream.toList

theorem Broken.of_goes (hg : b.Stays b') (h : Broken index regroup b' e f) :
    Broken index regroup b e f := by
  unfold Broken at h
  rw [hg.desk, hg.rest] at h
  exact h.imp_left (.of_goes hg)

/-! ### What never stops -/

theorem not_stops_onDesk : ¬ Stops (onDesk h) b f :=
  not_stops_modify

theorem not_stops_note : ¬ Stops (note n) b f :=
  nofun

theorem not_stops_takeComments : ¬ Stops takeComments b f :=
  nofun

theorem not_stops_openWith {r : Rule} {sections : Nat → Sections → Sections} :
    ¬ Stops (openWith r es sections) b f :=
  nofun

theorem not_stops_onDesk_pure {α : Type} {a : α} : ¬ Stops (onDesk h >>= fun _ => pure a) b f :=
  not_stops_bind not_stops_onDesk fun _ _ => not_stops_pure

theorem not_stops_deliver : ¬ Stops (deliver n) b f := by
  unfold deliver
  rw [stops_get_bind]
  split
  · exact not_stops_pure
  · exact not_stops_onDesk_pure

theorem not_stops_addToStatement : ¬ Stops (addToStatement o e) b f := by
  unfold addToStatement
  rw [stops_get_bind]
  dsimp only
  split
  · exact not_stops_onDesk_pure
  · exact not_stops_onDesk_pure

theorem not_stops_place : ¬ Stops (place e) b f := by
  unfold place
  rw [stops_get_bind]
  dsimp only
  split
  · exact not_stops_onDesk_pure
  · split
    · exact not_stops_onDesk_pure
    · split
      · exact not_stops_onDesk_pure
      · exact not_stops_pure

/-! ### Trying rules -/

theorem ended_of_stops_take? (hp : p.isOrdered = true) (hb : b.stream.looking = false)
    (h : Stops (take? (some p) e) b f) : Ended b f := by
  unfold take? at h
  refine Pattern.ending_of_stops_tryOn hp hb
    (stops_within.mp (stops_of_bind (fun answer _ => ?_) h))
  split <;> exact not_stops_pure

/-- Looking for a rule stops only where the stream has ended in a fault. -/
theorem ended_of_stops_firstRule? {pattern : Rule → Option Pattern} :
    ∀ {rs : List Rule} {b : Bench}, areAll Pattern.isOrdered pattern rs = true →
      b.stream.looking = false →
      Stops (firstRule? pattern e rs) b f → Ended b f := by
  intro rs
  induction rs with
  | nil => exact fun _ _ h => absurd h not_stops_pure
  | cons r rs ih =>
    intro b hrs hb h
    obtain ⟨p, hp, hordered⟩ := exists_of_areAll hrs mem_cons_self
    have hrest : areAll Pattern.isOrdered pattern rs = true :=
      all_eq_true.mpr fun r' hr' => all_eq_true.mp hrs r' (mem_cons_of_mem r hr')
    unfold firstRule? at h
    rw [hp] at h
    rcases stops_bind.mp h with h | ⟨x, b₁, hx, h⟩
    · exact ended_of_stops_take? hordered hb h
    · cases x with
      | some => exact absurd h not_stops_pure
      | none =>
        -- a pattern that does not fit leaves the stream as it was
        obtain ⟨-, hg⟩ := taken_of_runs_take? hb hx
        exact .of_goes hg (ih hrest hg.looking h)

section Reading

variable (hindex : index.IsPlain) (hb : b.stream.looking = false)

include hindex hb

theorem ended_of_stops_beginStatement (h : Stops (beginStatement index e) b f) : Ended b f := by
  unfold beginStatement at h
  refine ended_of_stops_firstRule? (areAll_rulesFor hindex.openings e) hb
    (stops_of_bind (fun found _ => ?_) h)
  cases found with
  | none => exact not_stops_pure
  | some => exact not_stops_bind not_stops_openWith fun _ _ => not_stops_onDesk_pure

/-! ### Inside a statement -/

omit hindex hb in
/-- A statement that has come to its end stops a stage only if it cannot be completed. -/
theorem fault_of_stops_completeStatement (h : Stops (completeStatement o) b f) :
    o.complete.2 = some f := by
  unfold completeStatement at h
  rcases hc : o.complete with ⟨o', fault⟩
  rw [hc] at h
  obtain ⟨_, b₁, -, h⟩ := exists_of_stops_bind not_stops_onDesk h
  cases fault with
  | some => rw [stops_throw_bind.mp h]
  | none =>
    refine absurd h (not_stops_bind not_stops_onDesk fun _ _ => ?_)
    exact not_stops_bind not_stops_note fun _ _ => not_stops_deliver

omit hindex hb in
theorem fault_of_stops_endStatement (h : Stops (endStatement o es) b f) :
    (o.rule.takesEnd = true →
      (((o.pushAll b.desk.comments).setClosing es.length).pushAll es).complete.2 = some f) ∧
    (o.rule.takesEnd = false → o.complete.2 = some f) := by
  unfold endStatement at h
  split at h
  next htakes =>
    obtain ⟨comments, b₁, hcs, h⟩ := exists_of_stops_bind not_stops_takeComments h
    obtain ⟨rfl, -⟩ := becomes_of_runs_takeComments hcs
    exact ⟨fun _ => fault_of_stops_completeStatement h, fun hf => nomatch htakes.symm.trans hf⟩
  next htakes => exact ⟨fun ht => absurd ht htakes, fun _ => fault_of_stops_completeStatement h⟩

theorem broken_of_stops_interruptStatement (hd : b.desk.statement = some o)
    (hopen : StaysOpen o e b.stream.toList) (h : Stops (interruptStatement index o e) b f) :
    Broken index regroup b e f := by
  unfold interruptStatement at h
  obtain ⟨_, b₁, h₁, h⟩ := exists_of_stops_bind not_stops_onDesk h
  have hb₁ := (becomes_of_runs_onDesk h₁).goes hb
  -- the open statement is off the desk while another one is tried
  rcases stops_bind.mp h with h | ⟨began, b₂, h₂, h⟩
  · exact .inl (.of_goes hb₁ (ended_of_stops_beginStatement hindex hb₁.looking h))
  · have hbegin := goes_of_runs_beginStatement hb₁.looking h₂
    rw [hb₁.desk, hb₁.rest] at hbegin
    obtain ⟨rfl, -, -⟩ | ⟨rfl, r, taken, rest, hl, hfirst, -⟩ := hbegin
    · exact absurd h not_stops_onDesk_pure
    · -- another statement has begun, so that the open one has to be complete
      rw [if_pos rfl] at h
      rcases hc : o.complete with ⟨o', fault⟩
      rw [hc] at h
      cases fault with
      | some =>
        obtain rfl := stops_throw_bind.mp h
        unfold Broken
        rw [hl] at hopen ⊢
        exact .inr (.interrupt o r taken rest hd hfirst hopen (by rw [hc]))
      | none =>
        refine absurd h (not_stops_bind not_stops_note fun _ _ => ?_)
        exact not_stops_bind not_stops_deliver fun _ _ => not_stops_pure

theorem broken_of_stops_goOnWithStatement (hd : b.desk.statement = some o)
    (hopen : StaysOpen o e b.stream.toList) (h : Stops (goOnWithStatement index o e) b f) :
    Broken index regroup b e f := by
  unfold goOnWithStatement at h
  split at h
  next =>
    refine broken_of_stops_interruptStatement hindex hb hd hopen (stops_of_bind (fun x _ => ?_) h)
    cases x with
    | some => exact not_stops_pure
    | none => exact not_stops_addToStatement
  next => exact absurd h not_stops_addToStatement

theorem broken_of_stops_inStatement (hd : b.desk.statement = some o) (ho : b.desk.Follows index)
    (h : Stops (inStatement index o e) b f) : Broken index regroup b e f := by
  obtain ⟨closing, hclosing, hordered⟩ := exists_of_areAll hindex.closings (ho.rule o hd)
  unfold inStatement at h
  simp only [hclosing, pure_bind] at h
  rcases stops_bind.mp h with h | ⟨answer, b₁, h₁, h⟩
  · exact .inl (Pattern.ending_of_stops_tryOn hordered hb (stops_within.mp h))
  have ha := answered_of_runs_onStream hb h₁
  rw [← hclosing] at ha
  cases answer with
  | taken =>
    obtain ⟨htakes, taken, rest, rfl, hl, hclose, hg₁⟩ := ha
    have hf := (fault_of_stops_endStatement h).1 htakes
    rw [hg₁.desk] at hf
    unfold Broken
    rw [hl]
    exact .inr (.close o taken rest hd htakes hclose hf)
  | seen => exact .inr (.leave o _ hd ha.1 ((fault_of_stops_endStatement h).2 ha.1))
  | refused | none =>
    -- the statement stays open, with the stream as it was
    obtain ⟨hopen, hg₁⟩ := ha
    have hd₁ : b₁.desk.statement = some o := by rw [hg₁.desk, hd]
    rw [← hg₁.rest] at hopen
    exact .of_goes hg₁ (broken_of_stops_goOnWithStatement hindex hg₁.looking hd₁ hopen h)

/-! ### Outside of statements -/

omit hindex hb in
/-- Work on some elements, one after the other, stops at one of them. -/
theorem of_stops_mapM {P : Prop} {g : Element → Work Ledger Element}
    (hg : ∀ e ∈ es, ∀ {l : Ledger}, Stops (g e) l f → P) (h : Stops (es.mapM g) l f) : P := by
  induction es generalizing l with
  | nil =>
    rw [mapM_nil] at h
    exact absurd h not_stops_pure
  | cons e es ih =>
    obtain ⟨he, hes⟩ := forall_mem_cons.mp hg
    rw [mapM_cons] at h
    rcases stops_bind.mp h with h | ⟨e', l₁, -, h⟩
    · exact he h
    · exact ih hes (stops_of_bind (fun _ _ => not_stops_pure) h)

omit hindex hb in
/-- Regrouping some elements stops at one of their nodes. -/
theorem exists_of_stops_regroupAll (h : Stops (regroupAll regroup es) l f) :
    ∃ hd cs l', .node hd cs ∈ es ∧ Stops (regroup ⟨hd, cs⟩) l' f := by
  rw [regroupAll_eq] at h
  refine of_stops_mapM (fun e he l h => ?_) h
  cases e with
  | token => exact absurd h not_stops_pure
  | node hd cs => exact ⟨hd, cs, l, he, stops_of_bind (fun _ _ => not_stops_pure) h⟩

/-- A term stops a stage by a node in it, or since it cannot be completed. -/
theorem broken_of_stops_readTerm (hd : b.desk.statement = none)
    (h : Stops (readTerm index regroup e) b f) : Broken index regroup b e f := by
  unfold readTerm at h
  rcases stops_bind.mp h with h | ⟨found, b₁, h₁, h⟩
  · exact .inl (ended_of_stops_firstRule? (areAll_rulesFor hindex.shapes e) hb h)
  have hfound := found_of_runs_firstRule? hb h₁
  cases found with
  | none => exact absurd h not_stops_pure
  | some found =>
    obtain ⟨r, es⟩ := found
    obtain ⟨taken, rest, rfl, hl, hfirst, hg₁⟩ := hfound
    obtain ⟨o, b₂, h₂, h⟩ := exists_of_stops_bind not_stops_openWith h
    obtain ⟨ho, -⟩ := becomes_of_runs_openWith h₂
    rw [hg₁.desk] at ho
    unfold Broken
    rw [hl]
    rcases stops_bind.mp h with h | ⟨children, b₃, h₃, h⟩
    · -- a node among the children cannot be regrouped
      obtain ⟨hd', cs, l, hmem, hf⟩ := exists_of_stops_regroupAll (stops_within.mp h)
      have hchildren : o.node.children = b.desk.comments ++ e :: taken := by
        rw [ho]
        exact reverse_reverse _
      rw [hchildren] at hmem
      exact .inr (.inside r taken rest hd hfirst hd' cs l hmem hf)
    · obtain ⟨l, hl₃, -⟩ := runs_within.mp h₃
      have hch := rebuilt_of_runs_regroupAll hl₃
      rcases hc : (o.withNode { o.node with children }).complete with ⟨o', fault⟩
      rw [hc] at h
      cases fault with
      | some =>
        obtain rfl := stops_throw_bind.mp h
        exact .inr (.term r _ o taken children rest hd hfirst ho hch (by rw [hc]))
      | none => exact absurd h (not_stops_bind not_stops_deliver fun _ _ => not_stops_pure)

omit hb in
theorem not_stops_outsideBlocks : ¬ Stops (outsideBlocks index e) b f := by
  intro h
  -- there are no rules for blocks, so that none begins and the element is placed
  have hrules : index.blocks.rulesFor e = [] := by
    rw [hindex.blocks]
    unfold Candidates.rulesFor
    cases e.lowerText <;> rfl
  have hnone : beginBlock index e = pure none := by
    unfold beginBlock
    rw [hrules]
    rfl
  unfold outsideBlocks at h
  rw [hnone] at h
  exact not_stops_place h

theorem broken_of_stops_outsideStatement (hd : b.desk.statement = none) (hs : b.desk.stack = [])
    (h : Stops (outsideStatement index regroup e) b f) : Broken index regroup b e f := by
  unfold outsideStatement at h
  -- a term is tried first, and if there is none, a statement
  rcases stops_bind.mp h with h | ⟨x, b₁, h₁, h⟩
  · exact broken_of_stops_readTerm hindex hb hd h
  have hterm : Tried index regroup b e _ x b₁ := tried_of_runs_readTerm hb hd h₁
  cases x with
  | some => exact absurd h not_stops_pure
  | none =>
    obtain ⟨-, hg₁⟩ := hterm
    rcases stops_bind.mp h with h | ⟨began, b₂, h₂, h⟩
    · exact .inl (.of_goes hg₁ (ended_of_stops_beginStatement hindex hg₁.looking h))
    cases began with
    | true => exact absurd h not_stops_pure
    | false =>
      rcases goes_of_runs_beginStatement hg₁.looking h₂ with ⟨-, -, hg₂⟩ | ⟨hbegan, -⟩
      · -- no block is open, so none ends here
        have hs₂ : b₂.desk.stack = [] := by rw [hg₂.desk, hg₁.desk, hs]
        rw [if_neg Bool.false_ne_true] at h
        unfold endBlock at h
        rcases stops_bind.mp h with h | ⟨x, b₃, h₃, h⟩
        · rw [stops_get_bind, hs₂] at h
          exact absurd h not_stops_pure
        · rw [runs_get_bind, hs₂] at h₃
          obtain ⟨rfl, rfl⟩ := runs_pure.mp h₃
          rw [stops_get_bind] at h
          dsimp only at h
          rw [hs₂] at h
          split at h
          next hstack => cases hstack
          next => exact absurd h (not_stops_outsideBlocks hindex)
      · cases hbegan

/-- **A step that stops breaks**, unless the node that it takes cannot be regrouped, or the stream
has ended in a fault. -/
theorem broken_of_stops_step (hd : b.desk.Follows index) (h : Stops (step index regroup e) b f) :
    (∃ hd cs, e = .node hd cs ∧ ∃ l, Stops (regroup ⟨hd, cs⟩) l f) ∨
      ∃ e', Rebuilt regroup e e' ∧ Broken index regroup b e' f := by
  have htake : ∀ {b : Bench} {e : Element}, b.stream.looking = false → b.desk.Follows index →
      Stops (take index regroup e) b f → Broken index regroup b e f := by
    intro b e hb hd h
    unfold take at h
    rw [stops_get_bind] at h
    split at h
    next o ho => exact broken_of_stops_inStatement hindex hb ho hd h
    next ho => exact broken_of_stops_outsideStatement hindex hb ho hd.stack h
  unfold step at h
  cases e with
  | token t => exact .inr ⟨.token t, rfl, htake hb hd h⟩
  | node hd' cs =>
    rcases stops_bind.mp h with h | ⟨n, b₁, hn, h⟩
    · exact .inl ⟨hd', cs, rfl, b.ledger, stops_within.mp h⟩
    · obtain ⟨l, hl, rfl⟩ := runs_within.mp hn
      exact .inr ⟨n.toElement, ⟨b.ledger, n, l, hl, rfl⟩,
        htake (b := { b with ledger := l }) hb hd h⟩

end Reading

/-- Moves keep to the grammar. -/
theorem Move.follows (hindex : index.IsPlain) (h : Move index regroup k d e rest out d' rest' k')
    (hd : d.Follows index) : d'.Follows index := by
  have hstack : ∀ {o below}, d.stack ≠ o :: below := fun h => nomatch hd.stack.symm.trans h
  -- without blocks, what is delivered is handed on, and the desk stays as it is
  have hdeliver : ∀ (d₁ : Desk) {n : Node}, d₁.Follows index → (d₁.deliver n).2.Follows index := by
    intro d₁ n hd₁
    rw [Desk.deliver_of_stack_nil hd₁.stack]
    exact hd₁
  have hawait : awaitsWith d.comments e = true → ∀ x ∈ d.comments ++ [e], x.isCode = false :=
    fun hw => forall_mem_append.mpr
      ⟨hd.comments, forall_mem_singleton.mpr (not_isCode_of_awaitsWith hw)⟩
  have hnil : ∀ x ∈ ([] : List Element), x.isCode = false := forall_mem_nil _
  cases h with
  | close =>
    exact hdeliver _ (Desk.follows_of_statement_eq_none index hd.stack hnil rfl)
  | leave =>
    exact hdeliver _ (Desk.follows_of_statement_eq_none index hd.stack hd.comments rfl)
  | interrupt o o' r taken rest ho hyields hr hc d' hd' =>
    refine hdeliver d' ?_
    rw [hd']
    refine ⟨hd.stack, hnil, fun o'' ho'' => ?_⟩
    obtain rfl := Option.some.inj ho''
    exact mem_of_mem_rulesFor hr.mem
  | await o rest ho hw => exact ⟨hd.stack, hawait hw, hd.rule⟩
  | extend o rest ho =>
    refine ⟨hd.stack, hnil, fun o'' ho'' => ?_⟩
    obtain rfl := Option.some.inj ho''
    exact hd.rule o ho
  | term =>
    exact hdeliver { d with comments := [] } ⟨hd.stack, hnil, hd.rule⟩
  | begin r taken rest ho hr =>
    refine ⟨hd.stack, hnil, fun o'' ho'' => ?_⟩
    obtain rfl := Option.some.inj ho''
    exact mem_of_mem_rulesFor hr.mem
  | finish o o' below taken rest ho hs | restart o o' below taken rest ho hh hs
  | «open» o below taken rest ho hh hs | head o below rest ho hh hs | place o below rest ho hs =>
    exact absurd hs hstack
  | enter r taken rest out inHeader d' ho hr =>
    exact absurd hr (not_firstFit_of_empty hindex.blocks)
  | hold rest ho hs hw => exact ⟨hs, hawait hw, hd.rule⟩
  | flush rest ho hs => exact ⟨hs, hnil, hd.rule⟩
  | pass => exact hd

/-- Behind an element that is taken outside of statements, nothing comes that did not come
before. -/
theorem Move.rest_subset (h : Move index regroup k d e rest out d' rest' k')
    (hd : d.statement = none) : rest' ⊆ rest := by
  cases h with
  | leave o o' rest ho => exact nomatch hd.symm.trans ho
  | close | interrupt | term | begin | finish | restart | «open» | enter =>
    exact subset_append_right _ _
  | await | extend | head | place | hold | flush | pass => exact Subset.refl _

end Grouping

/-! ### Whole runs -/

namespace Stage

open Grouping

variable {index : Index} {regroup : Node → Work Ledger Node} {I : Desk → List Element → Prop}
  {P : Fault → Prop} {f : Fault} {p : Progress}

/-- An invariant on the desk and the elements to come that moves keep, and under which a stage stops
only with faults that have a property. -/
structure Guard (index : Index) (regroup : Node → Work Ledger Node) (I : Desk → List Element → Prop)
    (P : Fault → Prop) : Prop where
  move : ∀ {d e e' rest out d' rest' k k'}, I d (e :: rest) → d.Follows index →
    Rebuilt regroup e e' →
    Move index regroup k d e' rest out d' rest' k' → I d' rest'
  node : ∀ {d h cs rest l f}, I d (.node h cs :: rest) → Stops (regroup ⟨h, cs⟩) l f → P f
  stop : ∀ {d e e' rest f}, I d (e :: rest) → d.Follows index → Rebuilt regroup e e' →
    Break index regroup d e' f rest → P f
  finish : ∀ {d o f}, I d [] → d.Follows index → d.statement = some o → o.complete.2 = some f → P f

theorem keeps_wanted_handOn (es : List Element) :
    Keeps (Preserves fun p : Progress => p.wanted = none) (handOn es) := by
  induction es with
  | nil => exact keeps_pure ()
  | cons e es ih =>
    refine (keeps_modify fun _ h => h).bind fun _ => keeps_get.bind fun p => ?_
    split
    next => exact (keeps_throw _).bind fun _ => ih
    next => exact ih

/-- A run that was to take everything is not told to stop on its way. -/
theorem keeps_wanted_takeAll (index : Index) (regroup : Node → Work Ledger Node) (fuel : Nat) :
    Keeps (Preserves fun p : Progress => p.wanted = none) (takeAll index regroup fuel) := by
  induction fuel with
  | zero => exact keeps_pure ()
  | succ fuel ih =>
    refine keeps_get.bind fun p => ?_
    split
    next => exact keeps_pure ()
    next => exact keeps_throw _
    next =>
      refine (keeps_modify fun _ h => h).bind fun _ => Keeps.bind ?_ fun out =>
        (keeps_wanted_handOn out).bind fun _ => ih
      exact fun _ h => h

theorem not_stops_handOn (hw : p.wanted = none) (es : List Element) : ¬ Stops (handOn es) p f := by
  induction es generalizing p with
  | nil => exact not_stops_pure
  | cons e es ih =>
    intro h
    unfold handOn at h
    obtain ⟨_, p₁, h₁, h⟩ := exists_of_stops_bind not_stops_modify h
    obtain rfl := runs_modify.mp h₁
    rw [stops_get_bind] at h
    rw [hw, if_neg (Option.some_ne_none _).symm] at h
    exact ih rfl h

theorem not_stops_noteOpen : ¬ Stops noteOpen p f := by
  intro h
  have h := stops_within.mp h
  rw [stops_get_bind] at h
  exact not_stops_forM (fun _ _ => not_stops_note) _ _ h

/-- At the end of a stream, a run stops if the open statement cannot be completed. -/
theorem fault_of_stops_finishStatement (hw : p.wanted = none) (h : Stops finishStatement p f) :
    ∃ o, p.bench.desk.statement = some o ∧ o.complete.2 = some f := by
  unfold finishStatement at h
  rw [stops_get_bind] at h
  cases hd : p.bench.desk.statement with
  | none =>
    rw [hd] at h
    exact absurd h not_stops_pure
  | some o =>
    rw [hd] at h
    refine ⟨o, rfl, ?_⟩
    dsimp only at h
    rcases hc : o.complete with ⟨o', fault⟩
    rw [hc] at h
    obtain ⟨_, p₁, h₁, h⟩ := exists_of_stops_bind (stops_within.not.mpr not_stops_onDesk) h
    obtain ⟨b₁, -, rfl⟩ := runs_onBench.mp h₁
    obtain ⟨_, p₂, h₂, h⟩ := exists_of_stops_bind (stops_within.not.mpr not_stops_note) h
    obtain ⟨b₂, -, rfl⟩ := runs_onBench.mp h₂
    cases fault with
    | some => rw [stops_throw_bind.mp h]
    | none =>
      refine absurd h (not_stops_handOn ?_ _)
      exact hw

namespace Guard

variable (hguard : Guard index regroup I P) (hindex : index.IsPlain)

include hguard hindex

/-- A run that takes everything stops where a step does, or at the end of the stream. -/
theorem of_stops_takeAll :
    ∀ {fuel : Nat} {p : Progress}, p.bench.stream.looking = false → p.wanted = none →
      p.bench.desk.Follows index → I p.bench.desk p.bench.stream.toList →
        (p.bench.stream.ending = .exhausted ∨ P p.bench.stream.ending) →
        Stops (takeAll index regroup fuel) p f → P f := by
  intro fuel
  induction fuel with
  | zero => exact fun _ _ _ _ _ h => absurd h not_stops_pure
  | succ fuel ih =>
    intro p hlook hwanted hd hI hend h
    have hended : f = p.bench.stream.ending ∧ f ≠ .exhausted → P f := by
      rintro ⟨rfl, hne⟩
      exact hend.resolve_left hne
    unfold takeAll at h
    rw [stops_get_bind] at h
    cases hl : p.bench.stream.toList with
    | nil =>
      -- the stream is at its end, and what it has ended in goes out if it is more than that
      rw [Lookahead.next_of_toList_nil hlook hl] at h
      cases hending : p.bench.stream.ending with
      | exhausted =>
        rw [hending] at h
        exact absurd h not_stops_pure
      | _ =>
        rw [hending] at h hended
        obtain rfl := stops_throw.mp h
        refine hended ⟨rfl, fun heq => ?_⟩
        cases heq
    | cons e rest =>
      rw [hl] at hI
      obtain ⟨s, hnext, rfl, hlook₁, hbroken₁⟩ := Lookahead.next_of_toList_cons hlook hl
      have hending : s.ending = p.bench.stream.ending := by
        unfold Lookahead.ending
        rw [hbroken₁]
      rw [hnext] at h
      obtain ⟨_, p₁, h₁, h⟩ := exists_of_stops_bind not_stops_modify h
      obtain rfl := runs_modify.mp h₁
      rcases stops_bind.mp h with h | ⟨out, p₂, h₂, h⟩
      · -- the step stops
        have hstep : Stops (step index regroup e) { p.bench with stream := s } f := h
        obtain ⟨hd', cs, rfl, l, hstops⟩ | ⟨e', he, hbroken⟩ :=
          broken_of_stops_step (b := { p.bench with stream := s }) hindex hlook₁ hd hstep
        · exact hguard.node hI hstops
        · rcases hbroken with hended₁ | hbreak
          · exact hended ⟨hended₁.1.trans hending, hended₁.2⟩
          · exact hguard.stop hI hd he hbreak
      · -- the step is a move, and the run goes on
        obtain ⟨b₁, hstep, rfl⟩ := runs_onBench.mp h₂
        obtain ⟨e', _, he, d₁, rest₁, _, hm, hg⟩ := step_moves hlook₁ hstep
        have hwanted₁ : Progress.wanted { p with bench := b₁ } = none := hwanted
        obtain ⟨_, p₃, h₃, h⟩ := exists_of_stops_bind (not_stops_handOn hwanted₁ out) h
        obtain rfl := runs_handOn h₃
        -- the bench after the move is tidy again, and its stream ends as before
        refine ih ?_ ?_ ?_ ?_ ?_ h
        · exact hg.looking
        · exact hwanted
        · rw [hg.desk]
          exact hm.follows hindex hd
        · rw [hg.desk, hg.rest]
          exact hguard.move hI hd he.rebuilt hm
        · have hending₁ : b₁.stream.ending = p.bench.stream.ending := by
            rw [← hending]
            unfold Lookahead.ending
            rw [hg.broken]
          rw [hending₁]
          exact hend

/-- What moves keep holds at the end of a run of moves. -/
theorem of_taking {d' : Desk} {out : List Element} (h : Taking index regroup l d es out d' l')
    (hI : I d es) (hd : d.Follows index) : I d' [] ∧ d'.Follows index := by
  induction h with
  | done => exact ⟨hI, hd⟩
  | step he hm _ ih => exact ih (hguard.move hI hd he.rebuilt hm) (hm.follows hindex hd)

/-- **What a whole run stops with**: in a step, or at the end with the statement that is left open.
-/
theorem of_stops_work (hlook : p.bench.stream.looking = false) (hwanted : p.wanted = none)
    (hd : p.bench.desk.Follows index) (hI : I p.bench.desk p.bench.stream.toList)
    (hend : p.bench.stream.ending = .exhausted ∨ P p.bench.stream.ending)
    (h : Stops (work index regroup) p f) : P f := by
  unfold work at h
  rw [stops_get_bind] at h
  obtain ⟨outcome, p₁, htake, h⟩ := exists_of_stops_bind not_stops_attempt h
  have htake := runs_attempt.mp htake
  cases outcome with
  | error =>
    obtain ⟨_, p₂, -, h⟩ := exists_of_stops_bind not_stops_noteOpen h
    obtain rfl := stops_throw.mp h
    exact hguard.of_stops_takeAll hindex hlook hwanted hd hI hend (congrArg Prod.fst htake)
  | ok =>
    -- the fuel is enough, so that the run has come to the end of the stream
    have hload : load p.bench.desk p.bench.stream.toList < 2 * p.bench.stream.toList.length + 2 :=
      Nat.lt_succ_of_le (load_le _ _)
    obtain ⟨⟨taken, ht, -⟩, -⟩ := taking_of_runs_takeAll hlook hload htake
    obtain ⟨hI₁, hd₁⟩ := hguard.of_taking hindex ht hI hd
    have hwanted₁ : p₁.wanted = none := by
      have hkeeps := keeps_wanted_takeAll index regroup
        (2 * p.bench.stream.toList.length + 2) p hwanted
      rwa [htake] at hkeeps
    rw [stops_get_bind] at h
    obtain ⟨_, p₂, h₂, h⟩ := exists_of_stops_bind (not_stops_handOn hwanted₁ _) h
    obtain rfl := runs_handOn h₂
    rcases stops_bind.mp h with h | ⟨_, p₃, h₃, h⟩
    · -- the statement that is left open, after the comments have been handed on
      obtain ⟨o, ho, hf⟩ :=
        fault_of_stops_finishStatement
          (p := { p₁ with out := p₁.bench.desk.comments.reverse ++ p₁.out }) hwanted₁ h
      exact hguard.finish hI₁ hd₁ ho hf
    · -- no block is left open
      obtain ⟨_, -, -, hstack, -⟩ := closing_of_runs_finishStatement h₃
      unfold finishBlocks at h
      rw [stops_get_bind] at h
      rw [hstack.trans hd₁.stack] at h
      exact absurd h not_stops_pure

/-- **What a stage can stop with.** -/
theorem fault_of_run (hlook : b.stream.looking = false) (hd : b.desk.Follows index)
    (hI : I b.desk b.stream.toList) (hend : b.stream.ending = .exhausted ∨ P b.stream.ending)
    {g : Fault} (h : (run index regroup none b).fault = some g) :
    ∃ f, P f ∧ g = f.leavingStage := by
  unfold run at h
  rcases hr : (work index regroup).runOn { bench := b, wanted := none } with ⟨outcome, p⟩
  rw [hr] at h
  cases outcome with
  | ok => cases h
  | error f =>
    refine ⟨f, ?_, (Option.some.inj h).symm⟩
    have hstops : Stops (work index regroup) { bench := b, wanted := none } f :=
      congrArg Prod.fst hr
    exact hguard.of_stops_work hindex hlook rfl hd hI hend hstops

/-- What grouping can stop with. -/
theorem fault_of_group (hI : I {} es) (h : Stops (group index regroup es) l f) :
    ∃ g, P g ∧ f = g.leavingStage := by
  obtain ⟨b, hb⟩ : ∃ b : Bench, b = { stream := .ofList es, ledger := l } := ⟨_, rfl⟩
  have hfault : (run index regroup none b).fault = some f := by
    unfold Stops group at h
    rw [runOn_of] at h
    dsimp only at h
    rw [← hb] at h
    generalize run index regroup none b = r at h ⊢
    cases hf : r.fault with
    | none =>
      rw [hf] at h
      cases h
    | some =>
      rw [hf] at h
      rw [Except.error.inj h]
  subst hb
  exact hguard.fault_of_run hindex rfl (Desk.follows_empty index) hI (.inl rfl) hfault

end Guard

/-- A stage with nothing to stop with does not stop. -/
theorem Guard.fault_run_eq_none (hguard : Guard index regroup I fun _ => False)
    (hindex : index.IsPlain) (hI : I {} es) (l : Ledger) :
    (run index regroup none { stream := { upcoming := es }, ledger := l }).fault = none := by
  cases hf : (run index regroup none { stream := { upcoming := es }, ledger := l }).fault with
  | none => rfl
  | some =>
    obtain ⟨f, hfalse, -⟩ :=
      hguard.fault_of_run hindex rfl (Desk.follows_empty index) hI (.inl rfl) hf
    exact hfalse.elim

/-! ### Regrouping -/

section Regroup

variable {inner : List NodeKind → Node → Work Ledger (List Element)} {Q : Element → Prop}

/-- A property of elements that those inside of them have, too. -/
def Hereditary (Q : Element → Prop) : Prop :=
  ∀ {h cs}, Q (.node h cs) → ∀ c ∈ cs, Q c

/-- Regrouping stops where the grouping of an inner part does. -/
theorem of_stops_regroupElement (hQ : Hereditary Q)
    (hin : ∀ {way : List NodeKind} {n : Node} {l : Ledger}, Q n.toElement →
      Stops (inner way n) l f → P f)
    (e : Element) :
    ∀ {way : List NodeKind} {l : Ledger}, Q e → Stops (regroupElement inner way e) l f → P f := by
  induction e using Element.induction with
  | token => exact fun _ h => absurd h not_stops_pure
  | node hd cs ih =>
    intro way l he h
    rw [regroupElement_node] at h
    -- the inner part comes first, then what is behind it, then what is in front of it
    rcases stops_bind.mp h with h | ⟨middle, l₁, -, h⟩
    · exact hin (n := ⟨hd, cs⟩) he h
    rcases stops_bind.mp h with h | ⟨back, l₂, -, h⟩
    · exact of_stops_mapM (fun c hc => ih c (mem_of_mem_drop hc) (hQ he c (mem_of_mem_drop hc))) h
    have h := stops_of_bind (fun _ _ => not_stops_bind not_stops_modify fun _ _ => not_stops_pure) h
    exact of_stops_mapM (fun c hc => ih c (mem_of_mem_take hc) (hQ he c (mem_of_mem_take hc))) h

/-- **Regrouping stops where a stage does**: at any depth, on the inner part of some node. The
induction is on the depth. -/
theorem of_stops_regroup (hQ : Hereditary Q)
    (hgroup : ∀ {depth : Nat} {way : List NodeKind} {n : Node} {l : Ledger} {f : Fault},
      (∀ {way : List NodeKind} {n : Node} {l : Ledger} {f : Fault}, Q n.toElement →
        Stops (Stage.regroup (.everywhere index) [] depth way n) l f → P f) → Q n.toElement →
      Stops (group index (Stage.regroup (.everywhere index) [] depth way) n.inner) l f → P f) :
    ∀ {depth : Nat} {way : List NodeKind} {n : Node} {l : Ledger} {f : Fault}, Q n.toElement →
      Stops (Stage.regroup (.everywhere index) [] depth way n) l f → P f := by
  intro depth
  induction depth with
  | zero => exact fun _ h => absurd h not_stops_pure
  | succ depth ih =>
    intro way n l f hn h
    unfold Stage.regroup at h
    rw [stops_get_bind] at h
    -- nothing was shared, so that the node is regrouped as it is
    rw [Ledger.current_nil] at h
    refine of_stops_regroupElement hQ (fun hm hstops => hgroup ih hm hstops) n.toElement hn
      (stops_of_bind (fun e _ => ?_) h)
    cases e with
    | node | token => exact not_stops_pure

end Regroup

/-! ### What all faults are -/

end Stage

/-- How many words a node needs for its operands. -/
def Completion.needs : Completion → Nat
  | .nothing | .input => 0
  | .second _ | .fileAndFourth | .fileAndFrom => 2
  | .sort => 4

/-- **What is missing for a completion are words.** -/
theorem Completion.fault_note (c : Completion) (n : Node) :
    (c.note n).2 = if n.code.length < c.needs then some .exhausted else none := by
  have hsecond : ∀ role : Role, (noteSecond role n).2 = if n.code.length < 2 then some .exhausted
      else none := by
    intro role
    unfold noteSecond
    rcases n.code with _ | ⟨_, _ | ⟨_, rest⟩⟩
    · rfl
    · rfl
    · rw [if_neg (by simp)]
  cases c with
  | nothing | input => exact (if_neg (Nat.not_lt_zero _)).symm
  | second role => exact hsecond role
  | fileAndFourth | fileAndFrom =>
    have hfault := hsecond .file
    unfold note
    generalize noteSecond .file n = stopped at hfault
    obtain ⟨m, fault⟩ := stopped
    obtain rfl : fault = _ := hfault
    change _ = if n.code.length < 2 then some Fault.exhausted else none
    by_cases hlength : n.code.length < 2
    · rw [if_pos hlength]
    · rw [if_neg hlength]
  | sort =>
    change (noteSort n).2 = if n.code.length < 4 then some .exhausted else none
    unfold noteSort
    rcases n.code with _ | ⟨_, _ | ⟨_, _ | ⟨_, _ | ⟨_, rest⟩⟩⟩⟩
    · rfl
    · rfl
    · rfl
    · rfl
    · rw [if_neg (by simp)]

theorem OpenNode.fault_complete (h : o.complete.2 = some f) :
    f = .exhausted ∧ o.node.code.length < o.rule.completion.needs := by
  have hfault : _ = some f := (o.rule.completion.fault_note o.node).symm.trans h
  split at hfault
  next hlength => exact ⟨(Option.some.inj hfault).symm, hlength⟩
  next => cases hfault

namespace Stage

open Grouping

variable {index : Index} {regroup : Node → Work Ledger Node}

/-- Without any invariant: what cannot be completed has run out of words. -/
theorem guard_of_isPlain (hregroup : ∀ {n l f}, Stops (regroup n) l f → f = .exhaustedInside) :
    Guard index regroup (fun _ _ => True) fun f => f = .exhausted ∨ f = .exhaustedInside where
  move _ _ _ _ := trivial
  node _ h := .inr (hregroup h)
  stop _ _ _ h := by
    cases h with
    | close o taken rest ho htakes hclose hf | leave o rest ho htakes hf
    | interrupt o r taken rest ho hr hopen hf => exact .inl (OpenNode.fault_complete hf).1
    | inside r taken rest ho hr hd cs l hmem hf => exact .inr (hregroup hf)
    | term r number o taken children rest ho hr hbegin hch hf =>
      exact .inl (OpenNode.fault_complete hf).1
  finish _ _ _ h := .inl (OpenNode.fault_complete h).1

/-- **A stage with statements and terms stops only because elements have run out**, as far as its
stream does. -/
theorem fault_run_of_isPlain (hindex : index.IsPlain)
    (hregroup : ∀ {n l f}, Stops (regroup n) l f → f = .exhaustedInside)
    (hlook : b.stream.looking = false) (hd : b.desk.Follows index)
    (hend : b.stream.ending = .exhausted ∨ b.stream.ending = .exhaustedInside)
    (h : (run index regroup none b).fault = some f) : f = .exhaustedInside := by
  obtain ⟨g, rfl | rfl, rfl⟩ :=
    (guard_of_isPlain hregroup).fault_of_run hindex hlook hd trivial (.inr hend) h
  · rfl
  · rfl

theorem exhaustedInside_of_stops_regroup (hindex : index.IsPlain) {way : List NodeKind}
    (h : Stops (Stage.regroup (.everywhere index) [] depth way n) l f) : f = .exhaustedInside := by
  refine of_stops_regroup (Q := fun _ => True) (P := (· = .exhaustedInside))
    (fun _ _ _ => trivial) ?_ trivial h
  intro depth way n l f ih _ h
  obtain ⟨g, rfl | rfl, rfl⟩ :=
    (guard_of_isPlain fun h => ih trivial h).fault_of_group hindex trivial h
  · rfl
  · rfl

end Stage

/-! ### Stages one after the other -/

/-- What the first of some stages has done, and what the others make of it. -/
theorem readingOf_runStages_cons (depth : Nat) (scope : Scope) (scopes : List Scope)
    (ledger : Ledger) (input : List Element) (broken : Option Fault) :
    ∃ o, o = Stage.runScope scope [] depth none
        { stream := { upcoming := input, broken }, ledger } ∧
      readingOf (runStages [] depth ((scope :: scopes).map ({ scope := · })) ledger input broken)
        input =
        if scopes = [] then ⟨o.out, o.fault⟩
        else readingOf (runStages [] depth (scopes.map ({ scope := · }))
          o.bench.ledger o.out o.fault) o.out := by
  refine ⟨_, rfl, ?_⟩
  rw [map_cons, runStages, readingOf_cons]
  -- the reading is that of the last stage, so it matters whether there is another one
  have hiff : runStages [] depth (scopes.map ({ scope := · }))
      (StageJob.runOn [] depth { scope }
        { stream := { upcoming := input, broken }, ledger }).outcome.bench.ledger
      (StageJob.runOn [] depth { scope }
        { stream := { upcoming := input, broken }, ledger }).outcome.out
      (StageJob.runOn [] depth { scope }
        { stream := { upcoming := input, broken }, ledger }).outcome.fault = [] ↔
      scopes = [] := by
    rw [runStages_eq_nil, map_eq_nil_iff]
  by_cases hscopes : scopes = []
  · rw [if_pos hscopes]
    exact if_pos (hiff.mpr hscopes)
  · rw [if_neg hscopes]
    exact if_neg (mt hiff.mp hscopes)

/-- **Stages with statements and terms stop only because elements have run out.** -/
theorem fault_readingOf_of_isPlain :
    ∀ {scopes : List Scope} {ledger : Ledger} {input : List Element}
      {broken : Option Fault},
      (∀ scope ∈ scopes, ∃ index, scope = .everywhere index ∧ index.IsPlain) →
      (broken = none ∨ broken = some .exhaustedInside) → ∀ {f : Fault},
      (readingOf (runStages [] depth (scopes.map ({ scope := · })) ledger input broken)
        input).fault = some f → f = .exhaustedInside := by
  intro scopes
  induction scopes with
  | nil =>
    intro ledger input broken _ _ f h
    cases h
  | cons scope scopes ih =>
    intro ledger input broken hscopes hbroken f h
    obtain ⟨⟨index, rfl, hindex⟩, hscopes'⟩ := forall_mem_cons.mp hscopes
    obtain ⟨o, ho, hreading⟩ :=
      readingOf_runStages_cons depth (.everywhere index) scopes ledger input broken
    -- the stage itself stops in this way, and its fault is the end of the next stream
    have hfault : ∀ {f}, o.fault = some f → f = .exhaustedInside := by
      intro f hf
      rw [ho] at hf
      refine Stage.fault_run_of_isPlain hindex (Stage.exhaustedInside_of_stops_regroup hindex) rfl
        (Desk.follows_empty index) ?_ hf
      rcases hbroken with rfl | rfl
      · exact .inl rfl
      · exact .inr rfl
    rw [hreading] at h
    split at h
    next => exact hfault h
    next =>
      refine ih hscopes' ?_ h
      cases hf : o.fault with
      | none => exact .inl rfl
      | some => rw [hfault hf]; exact .inr rfl

end EztScan
