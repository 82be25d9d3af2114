import EztScan.Parser
import EztScan.Proofs.Steps

/-!
# What a whole stage does

A stage makes one move after the other until no element is left (`Taking`), and then hands on what
is still on its desk (`Closing`). `grouped_of_runs_work` says that this is all that a stage which
succeeds has done; in particular the number of steps that it is given is always enough.

Regrouping a node runs a stage on the inner part of the node, and regroups the nodes around the
inner part. What is shown for the rebuilt node from what is shown for its parts holds of all
regrouping, down to any depth (`rebuilt_induction`).
-/

namespace EztScan

open List

variable {es : List Element} {u : Unit} {l l' : Ledger} {way : List NodeKind} {scope : Scope}
  {depth : Nat}
variable {shared : List Nat} {jobs : List StageJob} {ledger : Ledger} {input : List Element}
  {broken : Option Fault} {job : StageJob}

/-- A property of all elements holds of a node if it holds of its children. -/
theorem Element.induction {P : Element → Prop} (token : ∀ t, P (.token t))
    (node : ∀ h cs, (∀ c ∈ cs, P c) → P (.node h cs)) (e : Element) : P e :=
  @Element.rec P (fun cs => ∀ c ∈ cs, P c) token node (forall_mem_nil P)
    (fun _ _ hc hcs => forall_mem_cons.mpr ⟨hc, hcs⟩) e

/-! ### Streams -/

namespace Lookahead

variable {α : Type}
variable {s : Lookahead α}

theorem next_of_toList_nil (hs : s.looking = false) (h : s.toList = []) :
    s.next = .error s.ending := by
  obtain ⟨hb, hu⟩ := append_eq_nil_iff.mp h
  unfold next
  rw [hs, hb, hu]
  rfl

theorem next_of_toList_cons (hs : s.looking = false) {x : α} {xs : List α}
    (h : s.toList = x :: xs) :
    ∃ t, s.next = .ok (x, t) ∧ t.toList = xs ∧ t.looking = false ∧ t.broken = s.broken := by
  unfold toList at h
  unfold next
  rw [hs, if_neg Bool.false_ne_true]
  cases hb : s.buffer with
  | cons =>
    rw [hb] at h
    obtain ⟨rfl, rfl⟩ := List.cons.inj h
    exact ⟨_, rfl, rfl, rfl, rfl⟩
  | nil =>
    rw [hb] at h
    have hu : s.upcoming = x :: xs := h
    rw [hu]
    exact ⟨_, rfl, rfl, rfl, rfl⟩

end Lookahead

namespace Grouping

/-! ### The number of steps -/

/-- How many steps a stage may still take: two for each element, and one for the statement that is
open, which may end in front of an element that is then taken once more. -/
def load (d : Desk) (rest : List Element) : Nat :=
  2 * rest.length + if d.statement.isSome then 1 else 0

theorem load_le (d : Desk) (rest : List Element) : load d rest ≤ 2 * rest.length + 1 := by
  unfold load
  split <;> omega

theorem statement_deliver (d : Desk) (n : Node) : (d.deliver n).2.statement = d.statement := by
  unfold Desk.deliver
  split <;> rfl

/-- Every move makes the load smaller. -/
theorem Move.load_lt {index : Index} {regroup : Node → Work Ledger Node} {d d' : Desk} {e : Element}
    {rest out rest' : List Element} (h : Move index regroup k d e rest out d' rest' k')
    (e₀ : Element) : load d' rest' < load d (e₀ :: rest) := by
  -- the element itself is gone, and that outweighs a statement that has been opened
  have hshort : ∀ taken rest' : List Element, rest = taken ++ rest' →
      load d' rest' < load d (e₀ :: rest) := by
    intro taken rest' hrest
    have h₁ := load_le d' rest'
    have h₂ : 2 * (e₀ :: rest).length ≤ load d (e₀ :: rest) := Nat.le_add_right _ _
    rw [hrest, length_cons, length_append] at h₂
    rw [hrest]
    omega
  cases h with
  | leave o o' rest hd =>
    -- the element comes again, but the statement is not open any more
    unfold load
    rw [statement_deliver, hd]
    simp
  | close | interrupt | term | begin | finish | restart | «open» | enter => exact hshort _ _ rfl
  | await | extend | head | place | hold | flush | pass => exact hshort [] _ rfl

/-! ### Runs of moves -/

/-- Elements are taken one by one until none is left: from the first desk and ledger to the second
ones, handing on the elements of the second list. -/
inductive Taking (index : Index) (regroup : Node → Work Ledger Node) :
    Ledger → Desk → List Element → List Element → Desk → Ledger → Prop
  | done (l : Ledger) (d : Desk) : Taking index regroup l d [] [] d l
  | step {l l₁ l₂ l' : Ledger} {d d₁ d' : Desk} {e e' : Element} {rest rest₁ new out : List Element}
      (he : Rebuilding regroup l e e' l₁)
      (hm : Move index regroup l₁.next d e' rest new d₁ rest₁ l₂.next)
      (ht : Taking index regroup l₂ d₁ rest₁ out d' l') :
      Taking index regroup l d (e :: rest) (new ++ out) d' l'

/-- A statement or block that is left open is complete, without a fault, as this node. -/
def Completed (o : OpenNode) (n : Node) : Prop :=
  ∃ o', o.complete = (o', none) ∧ o'.node = n

/-- What is handed on for the statement that is left open. -/
def ClosingStatement : Option OpenNode → List Element → Prop
  | none, out => out = []
  | some o, out => ∃ n, Completed o n ∧ out = [n.toElement]

/-- What is handed on for the outermost of the blocks that are left open, and the number of the next
node before it is regrouped and afterwards. -/
def ClosingBlock (regroup : Node → Work Ledger Node) (next : Nat) :
    Option OpenNode → List Element → Nat → Prop
  | none, out, next' => out = [] ∧ next = next'
  | some o, out, next' => ∃ n e l l', Completed o n ∧ Rebuilding regroup l n.toElement e l' ∧
      l.next = next ∧ l'.next = next' ∧ out = [e]

/-- What is handed on when no element is left: the comments that wait, the open statement and the
open blocks. -/
def Closing (regroup : Node → Work Ledger Node) (next : Nat) (d : Desk) (out : List Element)
    (next' : Nat) : Prop :=
  ∃ statement blocks, ClosingStatement d.statement statement ∧
    ClosingBlock regroup next (Desk.attachAll d.stack).getLast? blocks next' ∧
      out = d.comments ++ statement ++ blocks

/-- Without blocks, these are the comments and the open statement. -/
theorem Closing.of_stack_nil {regroup : Node → Work Ledger Node} {d : Desk} {out : List Element}
    (h : Closing regroup k d out k') (hs : d.stack = []) :
    (d.statement = none ∧ out = d.comments) ∨ ∃ o o', d.statement = some o ∧
      o.complete = (o', none) ∧ out = d.comments ++ [o'.node.toElement] := by
  obtain ⟨statement, blocks, hst, hbl, rfl⟩ := h
  rw [hs] at hbl
  obtain ⟨rfl, -⟩ : blocks = [] ∧ k = k' := hbl
  rw [append_nil]
  cases hd : d.statement with
  | none =>
    rw [hd] at hst
    obtain rfl : statement = [] := hst
    exact .inl ⟨rfl, append_nil _⟩
  | some o =>
    rw [hd] at hst
    obtain ⟨_, ⟨o', hc, rfl⟩, rfl⟩ := hst
    exact .inr ⟨o, o', rfl, hc, rfl⟩

/-- A stage that begins with this ledger and desk makes the second list of elements out of the first
one, and `next` is the number of the next node then. -/
def GroupedFrom (index : Index) (regroup : Node → Work Ledger Node) (l : Ledger) (d : Desk)
    (es out : List Element) (next : Nat) : Prop :=
  ∃ d' taken closing l', Taking index regroup l d es taken d' l' ∧
    Closing regroup l'.next d' closing next ∧ out = taken ++ closing

/-- A stage that begins with this desk makes the second list of elements out of the first one. -/
def Grouped (index : Index) (regroup : Node → Work Ledger Node) (d : Desk) (es out : List Element) :
    Prop :=
  ∃ l next, GroupedFrom index regroup l d es out next

end Grouping

/-! ### What the work of a stage does -/

namespace Stage

open Work Grouping

variable {index : Index} {regroup : Node → Work Ledger Node} {p p' : Progress}
variable {n n' : Node}

theorem runs_onBench {α : Type} {w : Grouping α} {a : α} :
    Runs (onBench w) p a p' ↔ ∃ b, Runs w p.bench a b ∧ { p with bench := b } = p' :=
  runs_within

/-- Handing on changes nothing but the list of what was handed on. -/
theorem runs_handOn (h : Runs (handOn es) p u p') : p' = { p with out := es.reverse ++ p.out } := by
  induction es generalizing p with
  | nil =>
    obtain ⟨-, rfl⟩ := runs_pure.mp h
    rfl
  | cons e es ih =>
    unfold handOn at h
    simp only [runs_bind, runs_modify, runs_get] at h
    obtain ⟨_, _, rfl, _, _, ⟨rfl, rfl⟩, h⟩ := h
    split at h
    next =>
      -- nobody asks for more, so that the work does not go on
      exact absurd h not_runs_throw_bind
    next =>
      rw [ih h, reverse_cons, append_assoc]
      rfl

/-- Taking everything that comes is a run of moves. The fuel is enough, so it ends with the end of
the stream, and only with an end that is no fault. -/
theorem taking_of_runs_takeAll :
    ∀ {fuel : Nat} {p p' : Progress} {u : Unit}, p.bench.stream.looking = false →
      load p.bench.desk p.bench.stream.toList < fuel → Runs (takeAll index regroup fuel) p u p' →
        (∃ out, Taking index regroup p.bench.ledger p.bench.desk p.bench.stream.toList out
          p'.bench.desk p'.bench.ledger ∧
          p'.out = out.reverse ++ p.out) ∧ p.bench.stream.ending = .exhausted := by
  intro fuel
  -- on the fuel, which stays above the load as every move makes the load smaller
  induction fuel with
  | zero => exact fun _ hload => absurd hload (Nat.not_lt_zero _)
  | succ fuel ih =>
    intro p p' u hlook hload h
    unfold takeAll at h
    rw [runs_get_bind] at h
    cases hl : p.bench.stream.toList with
    | nil =>
      rw [Lookahead.next_of_toList_nil hlook hl] at h
      cases hend : p.bench.stream.ending with
      | exhausted =>
        rw [hend] at h
        obtain ⟨-, rfl⟩ := runs_pure.mp h
        exact ⟨⟨[], .done _ _, rfl⟩, rfl⟩
      | _ =>
        rw [hend] at h
        exact absurd h not_runs_throw
    | cons e rest =>
      obtain ⟨s, hnext, rfl, hlook₁, hbroken₁⟩ := Lookahead.next_of_toList_cons hlook hl
      rw [hnext] at h
      simp only [runs_bind, runs_modify, runs_onBench] at h
      obtain ⟨_, _, rfl, new, _, ⟨b₁, hstep, rfl⟩, _, _, hout, h⟩ := h
      obtain rfl := runs_handOn hout
      obtain ⟨e', l₁, he, d₁, rest₁, next₁, hm, hg⟩ := step_moves hlook₁ hstep
      have hload₁ : load d₁ rest₁ < load p.bench.desk (e :: s.toList) := hm.load_lt e
      rw [hl] at hload
      obtain ⟨⟨out, ht, hp'⟩, hend⟩ := ih hg.looking (by rw [hg.desk, hg.rest]; omega) h
      rw [hg.desk, hg.rest] at ht
      rw [← hg.next] at hm
      refine ⟨⟨new ++ out, .step he hm ht, ?_⟩, ?_⟩
      · rw [hp', reverse_append, append_assoc]
      · unfold Lookahead.ending at hend ⊢
        rwa [hg.broken, hbroken₁] at hend

theorem becomes_of_runs_forM_onBench_note {α : Type} {f : α → Node} {os : List α} {u : PUnit}
    (h : Runs (os.forM fun o => onBench (note (f o))) p u p') :
    ∃ b, p.bench.Becomes p.bench.desk p.bench.ledger.next b ∧ p' = { p with bench := b } := by
  induction os generalizing p with
  | nil =>
    obtain ⟨-, rfl⟩ := runs_pure.mp h
    exact ⟨p.bench, ⟨rfl, rfl, rfl⟩, rfl⟩
  | cons o os ih =>
    obtain ⟨_, _, h₁, h₂⟩ := runs_bind.mp h
    obtain ⟨b₁, hnote, rfl⟩ := runs_onBench.mp h₁
    have hb₁ := becomes_of_runs_note hnote
    obtain ⟨b₂, hb₂, rfl⟩ := ih h₂
    rw [hb₁.desk, hb₁.next] at hb₂
    exact ⟨b₂, hb₁.trans hb₂, rfl⟩

/-- A statement that is left open is completed and handed on. -/
theorem closing_of_runs_finishStatement (h : Runs finishStatement p u p') :
    ∃ out, ClosingStatement p.bench.desk.statement out ∧ p'.out = out.reverse ++ p.out ∧
      p'.bench.desk.stack = p.bench.desk.stack ∧ p'.bench.ledger.next = p.bench.ledger.next := by
  unfold finishStatement at h
  rw [runs_get_bind] at h
  cases hd : p.bench.desk.statement with
  | none =>
    rw [hd] at h
    obtain ⟨-, rfl⟩ := runs_pure.mp h
    exact ⟨[], rfl, rfl, rfl, rfl⟩
  | some o =>
    rw [hd] at h
    dsimp only at h
    rcases hc : o.complete with ⟨o', fault⟩
    rw [hc] at h
    simp only [runs_bind, runs_onBench, runs_onDesk] at h
    obtain ⟨_, _, ⟨_, rfl, rfl⟩, _, _, ⟨b₁, hnote, rfl⟩, h⟩ := h
    have hb₁ := becomes_of_runs_note hnote
    have hstack : b₁.desk.stack = p.bench.desk.stack := by rw [hb₁.desk]
    cases fault with
    | some =>
      exact absurd h not_runs_throw_bind
    | none =>
      obtain rfl := runs_handOn h
      exact ⟨[o'.node.toElement], ⟨_, ⟨o', hc, rfl⟩, rfl⟩, rfl, hstack, hb₁.next⟩

/-- Of the blocks that are left open the outermost one is completed and regrouped. -/
theorem closing_of_runs_finishBlocks (h : Runs (finishBlocks regroup) p u p') :
    ∃ out, ClosingBlock regroup p.bench.ledger.next (Desk.attachAll p.bench.desk.stack).getLast?
      out p'.bench.ledger.next ∧ p'.out = out.reverse ++ p.out := by
  unfold finishBlocks at h
  rw [runs_get_bind] at h
  dsimp only at h
  cases hbottom : (Desk.attachAll p.bench.desk.stack).getLast? with
  | none =>
    rw [hbottom] at h
    obtain ⟨-, rfl⟩ := runs_pure.mp h
    exact ⟨[], ⟨rfl, rfl⟩, rfl⟩
  | some o =>
    rw [hbottom] at h
    dsimp only at h
    rcases hc : o.complete with ⟨o', fault⟩
    rw [hc] at h
    -- the stack is emptied and every block on it is noted; only the outermost one is handed on
    obtain ⟨_, _, hbench, h⟩ := runs_bind.mp h
    obtain ⟨_, hdesk, rfl⟩ := runs_onBench.mp hbench
    obtain rfl := runs_onDesk.mp hdesk
    obtain ⟨_, _, hnotes, h⟩ := runs_bind.mp h
    obtain ⟨b₁, hb₁, rfl⟩ := becomes_of_runs_forM_onBench_note hnotes
    cases fault with
    | some =>
      exact absurd h not_runs_throw_bind
    | none =>
      obtain ⟨n, _, hbench, h⟩ := runs_bind.mp h
      obtain ⟨_, hledger, rfl⟩ := runs_onBench.mp hbench
      obtain ⟨l, hn, rfl⟩ := runs_within.mp hledger
      obtain rfl := runs_handOn h
      exact ⟨[n.toElement], ⟨o'.node, _, b₁.ledger, l, ⟨o', hc, rfl⟩, ⟨n, hn, rfl⟩, hb₁.next, rfl,
        rfl⟩, rfl⟩

/-- **A stage that succeeds groups all that it is given.** -/
theorem grouped_of_runs_work (hlook : p.bench.stream.looking = false)
    (h : Runs (work index regroup) p u p') :
    (∃ out, GroupedFrom index regroup p.bench.ledger p.bench.desk p.bench.stream.toList out
      p'.bench.ledger.next ∧
      p'.out = out.reverse ++ p.out) ∧ p.bench.stream.ending = .exhausted := by
  unfold work at h
  rw [runs_get_bind] at h
  obtain ⟨outcome, p₁, htake, h⟩ := runs_bind.mp h
  cases outcome with
  | error =>
    -- what is open is still noted, and then the fault goes on
    obtain ⟨_, _, -, hthrow⟩ := runs_bind.mp h
    exact absurd hthrow not_runs_throw
  | ok =>
    have hload : load p.bench.desk p.bench.stream.toList < 2 * p.bench.stream.toList.length + 2 :=
      Nat.lt_succ_of_le (load_le _ _)
    obtain ⟨⟨taken, ht, hout₁⟩, hend⟩ := taking_of_runs_takeAll hlook hload (runs_attempt.mp htake)
    rw [runs_get_bind] at h
    obtain ⟨_, _, hcomments, h⟩ := runs_bind.mp h
    obtain rfl := runs_handOn hcomments
    obtain ⟨_, p₂, hstatement, hblocks⟩ := runs_bind.mp h
    obtain ⟨statement, hst, hout₂, hstack, hnext₂⟩ := closing_of_runs_finishStatement hstatement
    obtain ⟨blocks, hbl, hout₃⟩ := closing_of_runs_finishBlocks hblocks
    rw [hstack, hnext₂] at hbl
    refine ⟨⟨_, ⟨_, taken, _, _, ht, ⟨statement, blocks, hst, hbl, rfl⟩, rfl⟩, ?_⟩, hend⟩
    rw [hout₃, hout₂]
    change _ ++ (_ ++ (_ ++ p₁.out)) = _
    rw [hout₁]
    simp only [reverse_append, append_assoc]

theorem grouped_of_run {wanted : Option Nat} {b : Bench} (hlook : b.stream.looking = false)
    (h : (run index regroup wanted b).fault = none) :
    GroupedFrom index regroup b.ledger b.desk b.stream.toList (run index regroup wanted b).out
        (run index regroup wanted b).bench.ledger.next ∧ b.stream.ending = .exhausted := by
  unfold run at h ⊢
  rcases hr : (work index regroup).runOn { bench := b, wanted } with ⟨outcome, p⟩
  rw [hr] at h
  cases outcome with
  | error => exact nomatch h
  | ok =>
    obtain ⟨⟨out, hg, hout⟩, hend⟩ := grouped_of_runs_work (p := { bench := b, wanted }) hlook hr
    rw [append_nil] at hout
    refine ⟨?_, hend⟩
    change GroupedFrom index regroup b.ledger b.desk b.stream.toList p.out.reverse
      p.bench.ledger.next
    rw [hout, reverse_reverse]
    exact hg

/-- A stage never ends with the fault that only says that there are no more elements. -/
theorem fault_run_ne_exhausted (index : Index) (regroup : Node → Work Ledger Node)
    (wanted : Option Nat) (b : Bench) : (run index regroup wanted b).fault ≠ some .exhausted := by
  unfold run
  split
  next => exact nofun
  next f _ _ =>
    cases f with
    | _ => exact nofun

theorem grouped_of_runs_group {out : List Element} (h : Runs (group index regroup es) l out l') :
    GroupedFrom index regroup l {} es out l'.next := by
  unfold group at h
  rw [runs_of] at h
  dsimp only at h
  split at h
  next hf =>
    obtain ⟨hout, rfl⟩ := Prod.mk.inj h
    obtain rfl := Except.ok.inj hout
    exact (grouped_of_run (b := { stream := .ofList es, ledger := l }) rfl hf).1
  next => exact nomatch (Prod.mk.inj h).1

/-! ### Regrouping -/

section Regroup

variable {inner : List NodeKind → Node → Work Ledger (List Element)}
  {Inner : List NodeKind → Node → List Element → Prop}
  {R : List NodeKind → Element → Element → Prop}

/-- What the grouping of inner parts does, as far as it succeeds. -/
def Groups (inner : List NodeKind → Node → Work Ledger (List Element))
    (Inner : List NodeKind → Node → List Element → Prop) : Prop :=
  ∀ {way n l out l'}, Runs (inner way n) l out l' → Inner way n out

/-- A relation between elements and what becomes of them is one of regrouping: it leaves elements as
they are, and holds of a node if it holds of those around its inner part. -/
structure Rebuilds (Inner : List NodeKind → Node → List Element → Prop)
    (R : List NodeKind → Element → Element → Prop) : Prop where
  refl : ∀ way e, R way e e
  node : ∀ {way h cs middle front back}, Inner (way ++ [h.kind]) ⟨h, cs⟩ middle →
    Forall₂ (R (way ++ [h.kind])) (Node.front ⟨h, cs⟩) front →
    Forall₂ (R (way ++ [h.kind])) (Node.back ⟨h, cs⟩) back →
    R way (.node h cs) (.node h (front ++ middle ++ back))

theorem regroupFrom_eq (inner : List NodeKind → Node → Work Ledger (List Element))
    (way : List NodeKind) :
    ∀ (skip : Nat) (es : List Element), regroupFrom inner way skip es =
      (es.drop skip).mapM (regroupElement inner way)
  | skip, [] => by
    unfold regroupFrom
    rw [drop_nil, mapM_nil]
  | 0, e :: es => by
    unfold regroupFrom
    rw [drop_zero, mapM_cons, regroupFrom_eq inner way 0 es, drop_zero]
  | skip + 1, e :: es => by
    unfold regroupFrom
    exact regroupFrom_eq inner way skip es

theorem regroupUpTo_eq (inner : List NodeKind → Node → Work Ledger (List Element))
    (way : List NodeKind) :
    ∀ (count : Nat) (es : List Element), regroupUpTo inner way count es =
      (es.take count).mapM (regroupElement inner way)
  | count, [] => by
    unfold regroupUpTo
    rw [take_nil, mapM_nil]
  | 0, e :: es => by
    unfold regroupUpTo
    rw [take_zero, mapM_nil]
  | count + 1, e :: es => by
    unfold regroupUpTo
    dsimp only
    rw [take_succ_cons, mapM_cons, regroupUpTo_eq inner way count es]

/-- A node is regrouped in three parts: the inner one first, then what is behind it, then what is in
front. -/
theorem regroupElement_node (way : List NodeKind) (hd : Head) (cs : List Element) :
    regroupElement inner way (.node hd cs) = (do
      let middle ← inner (way ++ [hd.kind]) ⟨hd, cs⟩
      let back ← (Node.back ⟨hd, cs⟩).mapM (regroupElement inner (way ++ [hd.kind]))
      let front ← (Node.front ⟨hd, cs⟩).mapM (regroupElement inner (way ++ [hd.kind]))
      let n : Node := ⟨hd, front ++ middle ++ back⟩
      modify (·.note n)
      return n.toElement) := by
  unfold regroupElement
  simp only [regroupFrom_eq, regroupUpTo_eq]
  rfl

theorem of_runs_regroupElement_node {hd : Head} {cs : List Element} {e' : Element}
    (h : Runs (regroupElement inner way (.node hd cs)) l e' l') :
    ∃ middle back front l₁ l₂ l₃, Runs (inner (way ++ [hd.kind]) ⟨hd, cs⟩) l middle l₁ ∧
      Runs ((Node.back ⟨hd, cs⟩).mapM (regroupElement inner (way ++ [hd.kind]))) l₁ back l₂ ∧
      Runs ((Node.front ⟨hd, cs⟩).mapM (regroupElement inner (way ++ [hd.kind]))) l₂ front l₃ ∧
      e' = .node hd (front ++ middle ++ back) ∧ l' = l₃.note ⟨hd, front ++ middle ++ back⟩ := by
  rw [regroupElement_node] at h
  obtain ⟨middle, l₁, hmiddle, h⟩ := runs_bind.mp h
  obtain ⟨back, l₂, hback, h⟩ := runs_bind.mp h
  obtain ⟨front, l₃, hfront, h⟩ := runs_bind.mp h
  obtain ⟨_, hnote, rfl⟩ := runs_bind_pure.mp h
  exact ⟨middle, back, front, l₁, l₂, l₃, hmiddle, hback, hfront, rfl, (runs_modify.mp hnote).symm⟩

theorem regroupElement_rebuilds (hin : Groups inner Inner) (hR : Rebuilds Inner R) (e : Element) :
    ∀ {way : List NodeKind} {e' : Element} {l l' : Ledger},
      Runs (regroupElement inner way e) l e' l' → R way e e' := by
  induction e using Element.induction with
  | token =>
    intro way e' l l' h
    unfold regroupElement at h
    obtain ⟨rfl, -⟩ := runs_pure.mp h
    exact hR.refl _ _
  | node hd cs ih =>
    intro way e' l l' h
    obtain ⟨middle, back, front, l₁, l₂, l₃, hmiddle, hback, hfront, rfl, -⟩ :=
      of_runs_regroupElement_node h
    exact hR.node (hin hmiddle)
      (forall₂_of_runs_mapM (fun c hc => ih c (mem_of_mem_take hc)) hfront)
      (forall₂_of_runs_mapM (fun c hc => ih c (mem_of_mem_drop hc)) hback)

end Regroup

/-- What a grammar makes of the inner part of the node at the end of a way, if nodes in it are
regrouped down to a depth and none is shared. -/
def InnerGrouped (scope : Scope) (depth : Nat) (way : List NodeKind) (n : Node)
    (out : List Element) : Prop :=
  ∃ index, scope.indexAt way = .ok index ∧ Grouped index (Stage.regroup scope [] depth way)
    {} n.inner out

/-- No node is shared, so that a node is regrouped as it stands. -/
theorem runs_regroupElement_of_regroup
    (h : Runs (Stage.regroup scope [] (depth + 1) way n) l n' l') :
    Runs (regroupElement (groupInner scope (Stage.regroup scope [] depth)) way n.toElement)
      l n'.toElement l' := by
  unfold Stage.regroup at h
  obtain ⟨_, _, hget, h⟩ := runs_bind.mp h
  obtain ⟨rfl, rfl⟩ := runs_get.mp hget
  rw [Ledger.current_nil] at h
  obtain ⟨e, l₁, hnode, h⟩ := runs_bind.mp h
  obtain ⟨middle, back, front, l₂, l₃, l₄, -, -, -, rfl, -⟩ := of_runs_regroupElement_node hnode
  obtain ⟨rfl, rfl⟩ := runs_pure.mp h
  exact hnode

/-- What regrouping makes of a node: the inner part is grouped, and the elements around it are
regrouped one by one. -/
theorem parts_of_runs_regroup (h : Runs (Stage.regroup scope [] (depth + 1) way n) l n' l') :
    ∃ front middle back, n' = ⟨n.head, front ++ middle ++ back⟩ ∧
      InnerGrouped scope depth (way ++ [n.head.kind]) n middle ∧
      ∀ {R : List NodeKind → Element → Element → Prop}, Rebuilds (InnerGrouped scope depth) R →
        Forall₂ (R (way ++ [n.head.kind])) n.front front ∧
          Forall₂ (R (way ++ [n.head.kind])) n.back back := by
  have hin : Groups (groupInner scope (Stage.regroup scope [] depth))
      (InnerGrouped scope depth) := by
    intro way n l out l' h
    unfold groupInner at h
    split at h
    next => exact absurd h not_runs_throw
    next index hi => exact ⟨index, hi, _, _, grouped_of_runs_group h⟩
  obtain ⟨middle, back, front, l₁, l₂, l₃, hmiddle, hback, hfront, hnode, -⟩ :=
    of_runs_regroupElement_node (runs_regroupElement_of_regroup h)
  obtain ⟨hd, cs⟩ := n'
  obtain ⟨rfl, rfl⟩ := Element.node.inj hnode
  exact ⟨front, middle, back, rfl, hin hmiddle, fun hR =>
    ⟨forall₂_of_runs_mapM (fun e _ => regroupElement_rebuilds hin hR e) hfront,
      forall₂_of_runs_mapM (fun e _ => regroupElement_rebuilds hin hR e) hback⟩⟩

/-- **Regrouping goes on inside.** A relation between elements and what becomes of them holds for
all regrouping with a grammar if it holds of a node whenever it holds of the nodes in and around its
inner part. The induction is on the depth to which nodes are regrouped. -/
theorem rebuilt_induction {R : List NodeKind → Element → Element → Prop}
    (hrefl : ∀ way e, R way e e)
    (hnode : ∀ {depth way h cs middle front back},
      (∀ {e e'}, Rebuilt (Stage.regroup scope [] depth (way ++ [h.kind])) e e' →
        R (way ++ [h.kind]) e e') → InnerGrouped scope depth (way ++ [h.kind]) ⟨h, cs⟩ middle →
      Forall₂ (R (way ++ [h.kind])) (Node.front ⟨h, cs⟩) front →
      Forall₂ (R (way ++ [h.kind])) (Node.back ⟨h, cs⟩) back →
        R way (.node h cs) (.node h (front ++ middle ++ back))) :
    ∀ {depth : Nat} {way : List NodeKind} {e e' : Element},
      Rebuilt (Stage.regroup scope [] depth way) e e' → R way e e' := by
  intro depth
  induction depth with
  | zero =>
    rintro way (t | ⟨hd, cs⟩) e' he
    · obtain rfl := he
      exact hrefl _ _
    · -- at this depth nodes are left as they are
      obtain ⟨l, n, l', h, rfl⟩ := he
      obtain ⟨rfl, -⟩ := runs_pure.mp h
      exact hrefl _ _
  | succ depth ih =>
    rintro way (t | ⟨hd, cs⟩) e' he
    · obtain rfl := he
      exact hrefl _ _
    · obtain ⟨l, n, l', h, rfl⟩ := he
      obtain ⟨front, middle, back, rfl, hmiddle, haround⟩ := parts_of_runs_regroup h
      obtain ⟨hfront, hback⟩ := haround ⟨hrefl, hnode ih⟩
      exact hnode ih hmiddle hfront hback

end Stage

/-! ### Stages one after the other -/

open Grouping

/-- Stages with these grammars, all with empty desks, make the second list of elements out of the
first one. -/
inductive Passed (depth : Nat) : List Scope → List Element → List Element → Prop
  | nil (es : List Element) : Passed depth [] es es
  | cons {scope : Scope} {scopes : List Scope} {es middle out : List Element}
      (hg : Grouped scope.top (Stage.regroup scope [] depth []) {} es middle)
      (hp : Passed depth scopes middle out) :
      Passed depth (scope :: scopes) es out

theorem readingOf_cons (done : StageDone) (dones : List StageDone) (input : List Element) :
    readingOf (done :: dones) input =
      if dones = [] then ⟨done.outcome.out, done.outcome.fault⟩
        else readingOf dones done.outcome.out := by
  unfold readingOf
  cases dones with
  | nil => rfl
  | cons d ds =>
    rw [if_neg (cons_ne_nil d ds), getLast?_cons_cons,
      getLast?_eq_some_getLast (cons_ne_nil d ds)]

theorem runStages_eq_nil : runStages shared depth jobs ledger input broken = [] ↔ jobs = [] := by
  cases jobs with
  | nil => exact ⟨fun _ => rfl, fun _ => rfl⟩
  | cons => exact ⟨nofun, nofun⟩

/-- A stage that has succeeded was asked to begin, and has grouped all that it was given. -/
theorem StageJob.grouped_of_runOn {b : Bench} (hlook : b.stream.looking = false)
    (h : (job.runOn shared depth b).outcome.fault = none) :
    GroupedFrom job.scope.top (Stage.regroup job.scope shared depth [])
      b.ledger b.desk b.stream.toList
        (job.runOn shared depth b).outcome.out
          (job.runOn shared depth b).outcome.bench.ledger.next ∧
      b.stream.ending = .exhausted := by
  unfold StageJob.runOn at h ⊢
  split at h
  next => exact nomatch h
  next hw =>
    rw [if_neg hw]
    exact Stage.grouped_of_run hlook h

theorem StageJob.fault_runOn_ne_exhausted (job : StageJob) (shared : List Nat) (depth : Nat)
    (b : Bench) : (job.runOn shared depth b).outcome.fault ≠ some .exhausted := by
  unfold StageJob.runOn
  split
  next => exact nofun
  next => exact Stage.fault_run_ne_exhausted _ _ _ _

/-- The last stage ends without a fault only if the first one does, and all that comes to it has
come. -/
theorem done_of_runStages {done : StageDone}
    (hdone : done = job.runOn [] depth
      { desk := job.desk, stream := { upcoming := input, broken }, ledger })
    (h : (readingOf (runStages [] depth (job :: jobs) ledger input broken) input).fault = none) :
    done.outcome.fault = none ∧ broken.getD .exhausted = .exhausted ∧
      readingOf (runStages [] depth (job :: jobs) ledger input broken) input =
        readingOf (runStages [] depth jobs done.outcome.bench.ledger done.outcome.out none)
          done.outcome.out := by
  have hrun : runStages [] depth (job :: jobs) ledger input broken =
      done :: runStages [] depth jobs done.outcome.bench.ledger done.outcome.out
        done.outcome.fault := by
    rw [hdone]
    rfl
  have hend (hfault : done.outcome.fault = none) : broken.getD .exhausted = .exhausted := by
    subst hdone
    exact (StageJob.grouped_of_runOn rfl hfault).2
  induction jobs generalizing job ledger input broken done with
  | nil =>
    rw [hrun] at h ⊢
    exact ⟨h, hend h, congrArg (Reading.mk done.outcome.out) h⟩
  | cons job' jobs ih =>
    rw [hrun, readingOf_cons, if_neg (mt runStages_eq_nil.mp (cons_ne_nil job' jobs))] at h ⊢
    -- the fault of this stage is what breaks the stream of the next one
    have hbroken := (ih rfl h rfl fun hfault => (StageJob.grouped_of_runOn rfl hfault).2).2.1
    have hfault : done.outcome.fault = none := by
      cases hf : done.outcome.fault with
      | none => rfl
      | some f =>
        rw [hf] at hbroken
        rw [show f = .exhausted from hbroken, hdone] at hf
        exact absurd hf (job.fault_runOn_ne_exhausted [] depth _)
    exact ⟨hfault, hend hfault, by rw [hfault]⟩

/-- **Stages that succeed pass everything on.** -/
theorem passed_of_runStages :
    ∀ {jobs : List StageJob} {ledger : Ledger} {input : List Element} {broken : Option Fault},
      (∀ job ∈ jobs, job.desk = {}) →
        (readingOf (runStages [] depth jobs ledger input broken) input).fault = none →
        Passed depth (jobs.map (·.scope)) input
          (readingOf (runStages [] depth jobs ledger input broken) input).elements := by
  intro jobs
  induction jobs with
  | nil => exact fun _ _ => .nil _
  | cons job jobs ih =>
    intro ledger input broken hdesks h
    obtain ⟨hdesk, hrest⟩ := forall_mem_cons.mp hdesks
    obtain ⟨done, hdone⟩ : ∃ done : StageDone, done = _ := ⟨_, rfl⟩
    obtain ⟨hfault, -, hreading⟩ := done_of_runStages hdone h
    rw [hreading] at h ⊢
    have hg : Grouped job.scope.top (Stage.regroup job.scope [] depth [])
        job.desk input done.outcome.out := by
      subst hdone
      exact ⟨_, _, (StageJob.grouped_of_runOn rfl hfault).1⟩
    rw [hdesk] at hg
    exact .cons hg (ih hrest h)

end EztScan
