import EztScan.Proofs.Conservation
import EztScan.Proofs.Rounds
import Mathlib.Logic.Function.Iterate

/-!
# Grouping comes to an end

Regrouping a node runs a stage on its inner part, which regroups the nodes in there, and those that
it has made itself and that are left open. It is written with a depth down to which this goes on.
Here is shown that the depth is never reached: if something else is done there, nothing comes of it
(`alike_regroup`). A node is made when some element begins it, and that element becomes its header
or its opening. So whatever the grammar is, there is something in front of the inner part of every
node (`Element.Begun`), and a node has more tokens than its inner part (`Node.length_inner_lt`). As
a stage makes no tokens, regrouping is about fewer and fewer of them.

Together with the loops of patterns and of stages this is all in grouping that could go on forever
(`grouping_terminates`); everything else goes along patterns, lists of rules and trees.
-/

namespace EztScan

open List Element OpenNode

variable {n : Node} {e : Element} {d : Desk} {b : Bench} {es : List Element}

/-! ### Nodes begin with something -/

/-- The header or the opening is not empty. -/
def Sections.IsBegun (s : Sections) (_ : List Element) : Prop :=
  0 < s.header ∨ 0 < s.opening

instance : Sections.Trait Sections.IsBegun where
  begin _ _ _ := .inr (Int.natCast_pos.mpr (Nat.succ_pos _))
  beginHeader _ _ _ := .inl (Int.natCast_pos.mpr (Nat.succ_pos _))
  pushAll h _ := h
  head h _ := h.imp_left fun hheader => Int.lt_add_one_of_le (Int.le_of_lt hheader)
  «open» _ _ _ := .inr (Int.natCast_pos.mpr (Nat.succ_pos _))
  close h _ := h
  renew _ h _ := h
  replace _ h _ _ := h

/-- All nodes, at all depths, begin with a header or with an opening. -/
abbrev Element.Begun (e : Element) : Prop :=
  e.Everywhere Sections.IsBegun

theorem Node.front_ne_nil (hsound : n.toElement.Sound) (hbegun : n.toElement.Begun) :
    n.front ≠ [] := by
  have hfit : n.head.sections.Fit n.children := hsound.fit
  intro hnil
  have hlength := n.length_front hfit
  obtain ⟨h₁, h₂, h₃, -, -, -⟩ := hfit
  rw [hnil] at hlength
  -- sections may be negative, but not those that fit, so that one of them alone takes up room
  unfold innerStart bodyStart at hlength
  rcases hbegun.fit with hheader | hopening
  · change 0 < n.head.sections.header at hheader
    simp only [length_nil] at hlength
    omega
  · change 0 < n.head.sections.opening at hopening
    simp only [length_nil] at hlength
    omega

/-- Every element has a token. -/
theorem Element.leaves_ne_nil (hsound : e.Sound) (hbegun : e.Begun) : e.leaves ≠ [] := by
  induction hbegun with
  | token =>
    rw [leaves_token]
    exact cons_ne_nil _ _
  | @node h cs sections children ih =>
    obtain ⟨c, front, hfront⟩ :=
      exists_cons_of_ne_nil (Node.front_ne_nil (n := ⟨h, cs⟩) hsound (.node sections children))
    have hc : c ∈ cs := mem_of_mem_take (hfront ▸ mem_cons_self : c ∈ Node.front ⟨h, cs⟩)
    obtain ⟨before, after, rfl⟩ := append_of_mem hc
    rw [leaves_node, leavesOfList_append, leavesOfList_cons]
    intro hnil
    exact ih c hc (hsound.children c hc) (append_eq_nil_iff.mp (append_eq_nil_iff.mp hnil).2).1

/-- **The inner part of a node has fewer tokens than the node.** -/
theorem Node.length_inner_lt (hsound : n.toElement.Sound) (hbegun : n.toElement.Begun) :
    (leavesOfList n.inner).length < n.toElement.leaves.length := by
  obtain ⟨c, front, hfront⟩ := exists_cons_of_ne_nil (n.front_ne_nil hsound hbegun)
  have hc : c ∈ n.children := mem_of_mem_take (hfront ▸ mem_cons_self : c ∈ n.front)
  have hleaf := length_pos_of_ne_nil (leaves_ne_nil (hsound.children c hc) (hbegun.children c hc))
  have hparts : leavesOfList (n.front ++ n.inner ++ n.back) = n.toElement.leaves := by
    rw [n.front_append_inner_append_back hsound.fit]
    exact (leaves_node n.head n.children).symm
  rw [← hparts, hfront]
  simp only [cons_append, leavesOfList_cons, leavesOfList_append, length_append]
  omega

/-! ### Firm elements -/

/-- The sections of all nodes fit their children, and every node begins with something. -/
def Element.Firm (e : Element) : Prop :=
  e.Sound ∧ e.Begun

/-- Everything on the desk is firm. -/
def Desk.Firm (d : Desk) : Prop :=
  d.Sound ∧ d.Everywhere Sections.IsBegun

theorem Element.Firm.token (t : Token) : Element.Firm (.token t) :=
  ⟨.token t, .token t⟩

theorem Element.Firm.children {h : Head} {cs : List Element} (hn : Element.Firm (.node h cs)) :
    ∀ e ∈ cs, e.Firm :=
  fun e he => ⟨hn.1.children e he, hn.2.children e he⟩

/-- Each token weighs one. -/
def Weights.tokens : Weights :=
  .ofTokens fun _ => 1

theorem Element.content_tokens (es : List Element) :
    content .tokens es = (leavesOfList es).length := by
  rw [Weights.tokens, content_ofTokens, map_const', sum_replicate_nat, Nat.mul_one]

theorem Desk.Firm.empty : Desk.Firm {} :=
  ⟨.empty, .empty⟩

theorem Desk.Firm.comments (hd : d.Firm) : ∀ e ∈ d.comments, e.Firm :=
  fun e he => ⟨everywhere_of_not_isCode (hd.1.comments e he),
    everywhere_of_not_isCode (hd.1.comments e he)⟩

/-- The outermost open block is firm, and has the tokens of all open blocks. -/
theorem Desk.Firm.outermost (hd : d.Firm) {o : OpenNode}
    (h : (attachAll d.stack).getLast? = some o) :
    (o.Sound ∧ o.Everywhere Sections.IsBegun) ∧ o.content w = contents w d.stack := by
  obtain ⟨top, below, hs, rfl⟩ := hd.1.getLast?_attachAll h
  refine ⟨⟨hd.1.outermost hs, hd.2.outermost hs⟩, ?_⟩
  rw [content_outermost, hs, contents_cons]

/-- No lookahead is open, and everything on the desk and everything that comes is firm. -/
structure Bench.Firm (b : Bench) : Prop where
  looking : b.stream.looking = false
  desk : b.desk.Firm
  stream : ∀ e ∈ b.stream.toList, e.Firm

/-- How many tokens there are on the desk and in what comes. -/
def Bench.tokens (b : Bench) : Nat :=
  b.desk.content .tokens + content .tokens b.stream.toList

/-- The next element is taken off the stream. -/
theorem Bench.Firm.next (hb : b.Firm) {rest : List Element} (hl : b.stream.toList = e :: rest) :
    ∃ s, b.stream.next = .ok (e, s) ∧ e.Firm ∧ Bench.Firm { b with stream := s } ∧
      content .tokens [e] + Bench.tokens { b with stream := s } = b.tokens := by
  obtain ⟨s, hnext, rfl, hlook, -⟩ := Lookahead.next_of_toList_cons hb.looking hl
  obtain ⟨he, hrest⟩ := forall_mem_cons.mp (hl ▸ hb.stream)
  refine ⟨s, hnext, he, ⟨hlook, hb.desk, hrest⟩, ?_⟩
  unfold tokens
  rw [hl, content_cons .tokens e s.toList]
  exact Nat.add_left_comm _ _ _

/-! ### Ways to regroup that do the same -/

namespace Grouping

open Work

variable {index : Index} {size : Nat} {f g : Node → Work Ledger Node}
variable {out : List Element}

/-- Regrouping keeps elements firm, and keeps their tokens. -/
structure Conserves (regroup : Node → Work Ledger Node) : Prop where
  content : Respects (Balanced .tokens) regroup
  begun : RebuildsEverywhere Sections.IsBegun regroup

theorem conserves_regroup (scope : Scope) (depth : Nat) (way : List NodeKind) :
    Conserves (Stage.regroup scope [] depth way) :=
  ⟨balanced_regroup scope depth way, rebuilt_everywhere scope depth way⟩

theorem Conserves.firm (hg : Conserves g) {e' : Element} (h : Rebuilding g l e e' l')
    (he : e.Firm) : e'.Firm ∧ Element.content .tokens [e'] = Element.content .tokens [e] :=
  ⟨⟨hg.content.sound h.rebuilt he.1, hg.begun h.rebuilt he.2⟩, hg.content.related h he.1⟩

theorem Move.firm {d' : Desk} {rest rest' : List Element} (hg : Conserves g)
    (h : Move index g k d e rest out d' rest' k') (hd : d.Firm) (he : e.Firm)
    (hrest : ∀ x ∈ rest, x.Firm) : (∀ x ∈ out, x.Firm) ∧ d'.Firm ∧ ∀ x ∈ rest', x.Firm := by
  obtain ⟨hout, hd', hrest'⟩ := h.everywhere hg.content.sound hd.1 he.1 fun x hx => (hrest x hx).1
  obtain ⟨hout₂, hd₂', hrest₂'⟩ := h.everywhere hg.begun hd.2 he.2 fun x hx => (hrest x hx).2
  exact ⟨fun x hx => ⟨hout x hx, hout₂ x hx⟩, ⟨hd', hd₂'⟩, fun x hx => ⟨hrest' x hx, hrest₂' x hx⟩⟩

/-- Two ways to regroup do the same with firm nodes of at most this many tokens. -/
def AlikeUpTo (size : Nat) (f g : Node → Work Ledger Node) : Prop :=
  ∀ n : Node, n.toElement.Firm → content .tokens [n.toElement] ≤ size → f n = g n

theorem content_le_of_mem (h : e ∈ es) : content .tokens [e] ≤ content .tokens es := by
  obtain ⟨as, bs, rfl⟩ := append_of_mem h
  rw [content_append, content_cons .tokens e bs]
  omega

theorem mapM_congr {f g : Element → Work Ledger Element} (h : ∀ e ∈ es, f e = g e) :
    es.mapM f = es.mapM g := by
  induction es with
  | nil => rfl
  | cons e es ih =>
    obtain ⟨he, hes⟩ := forall_mem_cons.mp h
    rw [mapM_cons, mapM_cons, he, ih hes]

theorem AlikeUpTo.regroupAll (h : AlikeUpTo size f g) (hes : ∀ e ∈ es, e.Firm)
    (hsize : content .tokens es ≤ size) : regroupAll f es = regroupAll g es := by
  rw [regroupAll_eq, regroupAll_eq]
  refine mapM_congr fun e he => ?_
  cases e with
  | token => rfl
  | node hd cs =>
    rw [rebuild, rebuild, h ⟨hd, cs⟩ (hes _ he) (Nat.le_trans (content_le_of_mem he) hsize)]

/-! ### Steps -/

section Steps

variable (hfg : AlikeUpTo size f g) {e : Element} {b : Bench} (hb : b.Firm) (he : e.Firm)
  (hsize : content .tokens [e] + b.tokens ≤ size)

include hfg hb he hsize

/-- Only elements that wait or that come next are regrouped for a term. -/
theorem AlikeUpTo.readTerm : (readTerm index f e).runOn b = (readTerm index g e).runOn b := by
  unfold Grouping.readTerm
  refine runOn_bind_congr fun found b₁ h₁ => ?_
  have hfound := found_of_runs_firstRule? hb.looking h₁
  cases found with
  | none => rfl
  | some found =>
    obtain ⟨r, es⟩ := found
    obtain ⟨taken, rest, rfl, hl, -, hg₁⟩ := hfound
    refine runOn_bind_congr fun o b₂ h₂ => ?_
    obtain ⟨ho, -⟩ := becomes_of_runs_openWith h₂
    -- what is regrouped has been waiting or has been taken, so that it counts among the tokens of
    -- the bench
    have hchildren : o.node.children = b.desk.comments ++ e :: taken := by
      rw [ho, hg₁.desk]
      exact reverse_reverse _
    have htaken : ∀ x ∈ taken, x.Firm := (forall_mem_append.mp (hl ▸ hb.stream)).1
    have hsame : Grouping.regroupAll f o.node.children = Grouping.regroupAll g o.node.children := by
      rw [hchildren]
      refine hfg.regroupAll (forall_mem_append.mpr
        ⟨hb.desk.comments, forall_mem_cons.mpr ⟨he, htaken⟩⟩) ?_
      unfold Bench.tokens Desk.content at hsize
      rw [hl, content_append] at hsize
      rw [content_append, content_cons]
      omega
    rw [hsame]

theorem AlikeUpTo.take : (take index f e).runOn b = (take index g e).runOn b := by
  have hterm : (Grouping.readTerm index f e).runOn b = (Grouping.readTerm index g e).runOn b :=
    hfg.readTerm hb he hsize
  unfold Grouping.take
  rw [runOn_bind, runOn_bind, runOn_get]
  dsimp only
  cases b.desk.statement with
  | some => rfl
  | none =>
    unfold outsideStatement
    rw [runOn_bind, runOn_bind, hterm]

/-- A step does the same if it can be about no more tokens than that. -/
theorem AlikeUpTo.step (hg : Conserves g) :
    (step index f e).runOn b = (step index g e).runOn b := by
  unfold Grouping.step
  cases e with
  | token => exact hfg.take hb he hsize
  | node hd cs =>
    have hnode : f ⟨hd, cs⟩ = g ⟨hd, cs⟩ :=
      hfg ⟨hd, cs⟩ he (Nat.le_trans (Nat.le_add_right _ _) hsize)
    dsimp only
    rw [hnode]
    refine runOn_bind_congr fun n b₁ h₁ => ?_
    obtain ⟨l, hl, rfl⟩ := runs_within.mp h₁
    obtain ⟨hn, hcontent⟩ := hg.firm (e := .node hd cs) ⟨n, hl, rfl⟩ he
    rw [← hcontent] at hsize
    exact hfg.take (b := { b with ledger := l }) ⟨hb.looking, hb.desk, hb.stream⟩ hn hsize

end Steps

/-- A step keeps all firm, and neither makes nor loses tokens. -/
theorem Conserves.step (hg : Conserves g) {b' : Bench} (hb : b.Firm) (he : e.Firm)
    (h : Runs (step index g e) b out b') :
    b'.Firm ∧ (∀ x ∈ out, x.Firm) ∧
      Element.content .tokens out + b'.tokens = Element.content .tokens [e] + b.tokens := by
  obtain ⟨e', _, he', d', rest', _, hm, hgoes⟩ := step_moves hb.looking h
  obtain ⟨rfl, rfl, rfl, hlook', -⟩ := hgoes
  obtain ⟨hfirm, hcontent⟩ := hg.firm he' he
  obtain ⟨hout, hd', hrest'⟩ := hm.firm hg hb.desk hfirm hb.stream
  refine ⟨⟨hlook', hd', hrest'⟩, hout, ?_⟩
  have hall : _ + _ + _ + 0 = _ + _ + _ + 0 :=
    hm.content hg.content hb.desk.1 hfirm.1 fun x hx => (hb.stream x hx).1
  rw [hcontent] at hall
  unfold Bench.tokens
  dsimp only at hall
  omega

end Grouping

/-! ### Stages -/

namespace Stage

open Work Grouping

variable {index : Index} {size room : Nat} {f g : Node → Work Ledger Node} {p q : Progress}
variable {input : List Element} {wanted : Option Nat} {scope : Scope}
  {deeper deeper' : List NodeKind → Node → Work Ledger Node}

/-- What has been handed on is firm, and so few tokens that there is room for some more. -/
def Room (size room : Nat) (p : Progress) : Prop :=
  (∀ e ∈ p.out, e.Firm) ∧ content .tokens p.out + room ≤ size

theorem Room.mono (h : Room size room p) {room' : Nat} (hle : room' ≤ room) : Room size room' p :=
  ⟨h.1, Nat.le_trans (Nat.add_le_add_left hle _) h.2⟩

/-- There is room if elements that there was room for have been handed on. -/
theorem room_handOn (h : Room size (room + content .tokens es) p) (hes : ∀ e ∈ es, e.Firm) :
    Room size room ((handOn es).runOn p).2 := by
  induction es generalizing p with
  | nil => exact h
  | cons e es ih =>
    obtain ⟨he, hrest⟩ := forall_mem_cons.mp hes
    obtain ⟨hout, hsize⟩ := h
    rw [content_cons .tokens e es] at hsize
    have hnext : Room size (room + content .tokens es) { p with out := e :: p.out } := by
      refine ⟨forall_mem_cons.mpr ⟨he, hout⟩, ?_⟩
      rw [content_cons .tokens e p.out]
      omega
    unfold handOn
    refine of_runOn_bind (hnext.mono (Nat.le_add_right _ _)) fun _ q hq => ?_
    obtain rfl := runs_modify.mp hq
    refine of_runOn_bind (hnext.mono (Nat.le_add_right _ _)) fun q' q hq => ?_
    obtain ⟨rfl, rfl⟩ := runs_get.mp hq
    split
    · exact hnext.mono (Nat.le_add_right _ _)
    · exact ih hnext hrest

/-- Work on the bench hands nothing on. -/
theorem room_onBench {α : Type} (w : Grouping α) : Keeps (Preserves (Room size room)) (onBench w) :=
  fun _ h => h

/-- Where a stage is that is about at most so many tokens, all of them in firm elements. -/
structure Within (size : Nat) (p : Progress) : Prop where
  bench : p.bench.Firm
  room : Room size p.bench.tokens p

section Rounds

variable (hg : Conserves g) (hp : Within size p)

include hg hp

theorem round_congr (hfg : AlikeUpTo size f g) :
    (round index f).runOn p = (round index g).runOn p := by
  unfold round
  rw [runOn_bind, runOn_bind, runOn_get]
  dsimp only
  cases hl : p.bench.stream.toList with
  | nil =>
    rw [Lookahead.next_of_toList_nil hp.bench.looking hl]
    cases p.bench.stream.ending <;> rfl
  | cons e =>
    obtain ⟨s, hnext, he, hb, htokens⟩ := hp.bench.next hl
    have hstep : (onBench (step index f e)).runOn { p with bench := { p.bench with stream := s } } =
        (onBench (step index g e)).runOn { p with bench := { p.bench with stream := s } } := by
      unfold onBench
      rw [runOn_within, runOn_within]
      rw [hfg.step hb he (htokens ▸ Nat.le_trans (Nat.le_add_left _ _) hp.room.2) hg]
    rw [hnext]
    rw [runOn_bind, runOn_bind, runOn_modify]
    dsimp only
    rw [runOn_bind, runOn_bind, hstep]

/-- A round does not go beyond the tokens that the stage is about, even if it stops. -/
theorem within_round :
    Room size 0 ((round index g).runOn p).2 ∧ ∀ x q, Runs (round index g) p x q →
      Within size q := by
  unfold round
  rw [runOn_bind, runOn_get]
  simp only [runs_get_bind]
  cases hl : p.bench.stream.toList with
  | nil =>
    rw [Lookahead.next_of_toList_nil hp.bench.looking hl]
    refine ⟨?_, fun x q h => ?_⟩
    · cases p.bench.stream.ending <;> exact hp.room.mono (Nat.zero_le _)
    · cases hend : p.bench.stream.ending with
      | exhausted =>
        rw [hend] at h
        exact (runs_pure.mp h).2 ▸ hp
      | _ =>
        rw [hend] at h
        exact absurd h not_runs_throw
  | cons e =>
    obtain ⟨s, hnext, he, hb, htokens⟩ := hp.bench.next hl
    -- there is room for what the step gives, and for all that is left then
    have hstep : ∀ out b, Runs (step index g e) { p.bench with stream := s } out b →
        b.Firm ∧ (∀ x ∈ out, x.Firm) ∧ Room size (b.tokens + content .tokens out) p := by
      intro out b hrun
      obtain ⟨hb', hout, hcard⟩ := hg.step hb he hrun
      exact ⟨hb', hout, hp.room.mono (by omega)⟩
    rw [hnext]
    constructor
    · refine of_runOn_bind (hp.room.mono (Nat.zero_le _)) fun _ q hq => ?_
      obtain rfl := runs_modify.mp hq
      refine of_runOn_bind (hp.room.mono (Nat.zero_le _)) fun out q hq => ?_
      obtain ⟨b, hrun, rfl⟩ := runs_onBench.mp hq
      obtain ⟨-, hout, hroom⟩ := hstep out b hrun
      have hhanded := room_handOn (p := { p with bench := b }) hroom hout
      refine of_runOn_bind (hhanded.mono (Nat.zero_le _)) fun _ r hr => ?_
      rw [hr] at hhanded
      exact hhanded.mono (Nat.zero_le _)
    · intro x q h
      simp only [runs_bind, runs_modify, runs_onBench] at h
      obtain ⟨_, _, rfl, out, _, ⟨b, hrun, rfl⟩, _, _, hr, h⟩ := h
      obtain ⟨-, rfl⟩ := runs_pure.mp h
      obtain ⟨hb', hout, hroom⟩ := hstep out b hrun
      have hhanded := room_handOn (p := { p with bench := b }) hroom hout
      rw [hr] at hhanded
      obtain rfl := runs_handOn hr
      exact ⟨hb', hhanded⟩

end Rounds

theorem takeAll_congr (hg : Conserves g) (hfg : AlikeUpTo size f g) (fuel : Nat)
    (hp : Within size p) : (takeAll index f fuel).runOn p = (takeAll index g fuel).runOn p := by
  induction fuel generalizing p with
  | zero => rfl
  | succ fuel ih =>
    rw [runOn_takeAll_succ, runOn_takeAll_succ]
    have hround : AgreeOn (Within size) (round index f) (round index g) :=
      fun q hq => round_congr hg hq hfg
    refine (hround.bind_left _ p hp).trans (runOn_bind_congr fun x q hq => ?_)
    cases x with
    | inl => exact ih ((within_round hg hp).2 _ q hq)
    | inr => rw [Sum.elim_inr, Sum.elim_inr]

/-- The run lemma: as long as no round stops, the stage stays within its tokens. -/
theorem within_takeAll (hg : Conserves g) (fuel : Nat) (hp : Within size p) :
    Room size 0 ((takeAll index g fuel).runOn p).2 ∧ ∀ u q, Runs (takeAll index g fuel) p u q →
      Within size q := by
  induction fuel generalizing p with
  | zero => exact ⟨hp.room.mono (Nat.zero_le _), fun u q h => (runs_pure.mp h).2 ▸ hp⟩
  | succ fuel ih =>
    obtain ⟨hroom, hnext⟩ := within_round hg hp
    constructor
    · rw [runOn_takeAll_succ]
      refine of_runOn_bind hroom fun x q hq => ?_
      cases x with
      | inl => exact (ih (hnext _ q hq)).1
      | inr => exact (hnext _ q hq).room.mono (Nat.zero_le _)
    · intro u q h
      unfold Runs at h
      rw [runOn_takeAll_succ] at h
      obtain ⟨x, q₁, hq₁, h⟩ := runs_bind.mp h
      cases x with
      | inl => exact (ih (hnext _ q₁ hq₁)).2 u q h
      | inr => exact (runs_pure.mp h).2 ▸ hnext _ q₁ hq₁

/-- There is room for the statement that is left open. -/
theorem room_finishStatement (hd : p.bench.desk.Firm)
    (h : Room size (room + contents .tokens p.bench.desk.statement.toList) p) :
    Room size room (finishStatement.runOn p).2 := by
  unfold finishStatement
  rw [runOn_bind, runOn_get]
  dsimp only
  cases hs : p.bench.desk.statement with
  | none => exact h.mono (Nat.le_add_right _ _)
  | some o =>
    rw [hs, Option.toList_some, contents_cons, contents_nil, Nat.add_zero] at h
    dsimp only
    rcases hc : o.complete with ⟨o', fault⟩
    have hfirm : o'.node.toElement.Firm :=
      ⟨(hd.1.statement o hs).complete hc, (hd.2.statement o hs).complete hc⟩
    refine of_runOn_bind (h.mono (Nat.le_add_right _ _)) fun _ q hq => ?_
    have hroom := (room_onBench _).of_runs hq h
    refine of_runOn_bind (hroom.mono (Nat.le_add_right _ _)) fun _ q' hq' => ?_
    have hroom' := (room_onBench _).of_runs hq' hroom
    cases fault with
    | some => exact hroom'.mono (Nat.le_add_right _ _)
    | none =>
      rw [← content_complete .tokens hc, ← content_toElement] at hroom'
      exact room_handOn hroom' fun e he => mem_singleton.mp he ▸ hfirm

theorem finishBlocks_congr (hfg : AlikeUpTo size f g) (hd : d.Firm)
    (hs : p.bench.desk.stack = d.stack) (hsize : contents .tokens d.stack ≤ size) :
    (finishBlocks f).runOn p = (finishBlocks g).runOn p := by
  unfold finishBlocks
  rw [runOn_bind, runOn_bind, runOn_get]
  dsimp only
  rw [hs]
  cases hl : (Desk.attachAll d.stack).getLast? with
  | none => rfl
  | some o =>
    obtain ⟨⟨hsound, hbegun⟩, hcontent⟩ := hd.outermost hl
    dsimp only
    rcases hc : o.complete with ⟨o', fault⟩
    -- this is where a block that was made here is grouped once more
    have hsame : f o'.node = g o'.node := by
      refine hfg o'.node ⟨hsound.complete hc, hbegun.complete hc⟩ ?_
      rw [content_toElement, content_complete .tokens hc, hcontent]
      exact hsize
    rw [hsame]

/-- There is room for the blocks that are left open. -/
theorem room_finishBlocks (hg : Conserves g) (hd : d.Firm) (hs : p.bench.desk.stack = d.stack)
    (h : Room size (room + contents .tokens d.stack) p) :
    Room size room ((finishBlocks g).runOn p).2 := by
  unfold finishBlocks
  rw [runOn_bind, runOn_get]
  dsimp only
  rw [hs]
  cases hl : (Desk.attachAll d.stack).getLast? with
  | none => exact h.mono (Nat.le_add_right _ _)
  | some o =>
    obtain ⟨⟨hsound, hbegun⟩, hcontent⟩ := hd.outermost hl
    dsimp only
    rcases hc : o.complete with ⟨o', fault⟩
    have hfirm : o'.node.toElement.Firm := ⟨hsound.complete hc, hbegun.complete hc⟩
    refine of_runOn_bind (h.mono (Nat.le_add_right _ _)) fun _ q₁ hq₁ => ?_
    have hroom₁ := (room_onBench _).of_runs hq₁ h
    have hnotes : Keeps (Preserves (Room size (room + contents .tokens d.stack)))
        (((Desk.attachAll d.stack).dropLast ++ [o']).forM fun o => onBench (note o.node)) :=
      keeps_forM fun o _ => room_onBench (note o.node)
    refine of_runOn_bind ((hnotes q₁ hroom₁).mono (Nat.le_add_right _ _)) fun _ q₂ hq₂ => ?_
    have hroom₂ := hnotes.of_runs hq₂ hroom₁
    cases fault with
    | some => exact hroom₂.mono (Nat.le_add_right _ _)
    | none =>
      refine of_runOn_bind (hroom₂.mono (Nat.le_add_right _ _)) fun n q₃ hq₃ => ?_
      have hroom₃ := (room_onBench _).of_runs hq₃ hroom₂
      obtain ⟨b, hb, rfl⟩ := runs_onBench.mp hq₃
      obtain ⟨l, hn, -⟩ := runs_within.mp hb
      obtain ⟨hfirm', hcontent'⟩ := hg.firm (e := o'.node.toElement) ⟨n, hn, rfl⟩ hfirm
      -- what is handed on has the content of the stack, for which there is room
      rw [← hcontent, ← content_complete .tokens hc, ← content_toElement, ← hcontent'] at hroom₃
      exact room_handOn hroom₃ fun e he => mem_singleton.mp he ▸ hfirm'

/-- **A stage does the same** with both ways to regroup if it is about no more tokens than they are
alike for. -/
theorem work_congr (hg : Conserves g) (hfg : AlikeUpTo size f g) (hp : Within size p) :
    (work index f).runOn p = (work index g).runOn p := by
  unfold work
  rw [runOn_bind, runOn_bind, runOn_get]
  have htake : AgreeOn (Within size) (takeAll index f (2 * p.bench.stream.toList.length + 2))
      (takeAll index g (2 * p.bench.stream.toList.length + 2)) :=
        fun q hq => takeAll_congr hg hfg _ hq
  refine (htake.attempt.bind_left _ p hp).trans (runOn_bind_congr fun x q hq => ?_)
  cases x with
  | error => rfl
  | ok u =>
    have hq' : Within size q := (within_takeAll hg _ hp).2 u q (runs_attempt.mp hq)
    have hsize := hq'.room.2
    unfold Bench.tokens Desk.content at hsize
    refine runOn_bind_congr fun _ q₀ hq₀ => ?_
    obtain ⟨rfl, rfl⟩ := runs_get.mp hq₀
    refine runOn_bind_congr fun _ q₁ hq₁ => runOn_bind_congr fun _ q₂ hq₂ => ?_
    obtain rfl := runs_handOn hq₁
    obtain ⟨-, -, -, hstack, -⟩ := closing_of_runs_finishStatement hq₂
    exact finishBlocks_congr hfg hq'.bench.desk hstack (by omega)

/-- What a stage hands on is firm and has no more tokens than the stage is about, even if it
stops. -/
theorem room_work (hg : Conserves g) (hp : Within size p) :
    Room size 0 ((work index g).runOn p).2 := by
  unfold work
  rw [runOn_bind, runOn_get]
  have hroom : Room size 0 ((takeAll index g (2 * p.bench.stream.toList.length + 2)).runOn p).2 :=
    (within_takeAll hg _ hp).1
  refine of_runOn_bind hroom fun x q hq => ?_
  cases x with
  | error =>
    rw [runs_attempt.mp hq] at hroom
    exact of_runOn_bind hroom fun _ q' hq' => (room_onBench _).of_runs hq' hroom
  | ok u =>
    have hq' : Within size q := (within_takeAll hg _ hp).2 u q (runs_attempt.mp hq)
    have hall := hq'.room
    unfold Bench.tokens Desk.content at hall
    refine of_runOn_bind (hall.mono (Nat.zero_le _)) fun _ q₀ hq₀ => ?_
    obtain ⟨rfl, rfl⟩ := runs_get.mp hq₀
    -- there is room for the comments, then for the statement, and then for the blocks
    have hcomments : Room size
        (contents .tokens q.bench.desk.stack + contents .tokens q.bench.desk.statement.toList)
        ((handOn q.bench.desk.comments).runOn q).2 :=
      room_handOn (hall.mono (by omega)) hq'.bench.desk.comments
    refine of_runOn_bind (hcomments.mono (Nat.zero_le _)) fun _ q₁ hq₁ => ?_
    rw [hq₁] at hcomments
    obtain rfl := runs_handOn hq₁
    have hstatement :=
      room_finishStatement (p := { q with out := q.bench.desk.comments.reverse ++ q.out })
        hq'.bench.desk hcomments
    refine of_runOn_bind (hstatement.mono (Nat.zero_le _)) fun _ q₂ hq₂ => ?_
    rw [hq₂] at hstatement
    obtain ⟨-, -, -, hstack, -⟩ := closing_of_runs_finishStatement hq₂
    exact room_finishBlocks hg hq'.bench.desk hstack (hstatement.mono (by omega))

/-- A stage with an empty desk is about the tokens of the elements that come. -/
theorem within_fresh (hinput : ∀ e ∈ input, e.Firm) (hsize : content .tokens input ≤ size)
    (broken : Option Fault) (ledger : Ledger) :
    Within size { bench := { stream := { upcoming := input, broken }, ledger } } := by
  refine ⟨⟨rfl, .empty, hinput⟩, forall_mem_nil _, ?_⟩
  change 0 + (0 + content .tokens input) ≤ size
  rw [Nat.zero_add, Nat.zero_add]
  exact hsize

theorem run_congr (hg : Conserves g) (hfg : AlikeUpTo size f g)
    (hb : Within size { bench := b, wanted }) : run index f wanted b = run index g wanted b := by
  unfold run
  rw [work_congr hg hfg hb]

theorem out_run (hg : Conserves g) (hb : Within size { bench := b, wanted }) :
    (∀ e ∈ (run index g wanted b).out, e.Firm) ∧
      content .tokens (run index g wanted b).out ≤ size := by
  have hroom : Room size 0 ((work index g).runOn { bench := b, wanted }).2 := room_work hg hb
  unfold run
  rcases hr : (work index g).runOn { bench := b, wanted } with ⟨outcome, p⟩
  rw [hr] at hroom
  have hout : (∀ e ∈ p.out.reverse, e.Firm) ∧ content .tokens p.out.reverse ≤ size := by
    rw [content_reverse]
    exact ⟨fun e he => hroom.1 e (mem_reverse.mp he), hroom.2⟩
  cases outcome with
  | ok | error => exact hout

/-! ### Regrouping, level by level -/

/-- One level of regrouping: the inner part of a node is grouped, with the nodes in it regrouped by
`deeper`, and so are those of the nodes around it. -/
def regroupLevel (scope : Scope) (shared : List Nat)
    (deeper : List NodeKind → Node → Work Ledger Node) (way : List NodeKind) (n : Node) :
    Work Ledger Node := do
  let n := (← get).current shared n
  match ← regroupElement (groupInner scope deeper) way n.toElement with
  | .node h cs => return ⟨h, cs⟩
  | .token _ => return n

theorem regroup_succ (scope : Scope) (shared : List Nat) (depth : Nat) :
    regroup scope shared (depth + 1) = regroupLevel scope shared (regroup scope shared depth) :=
  rfl

theorem group_congr (hg : Conserves g) (hfg : AlikeUpTo size f g) (hes : ∀ e ∈ es, e.Firm)
    (hsize : content .tokens es ≤ size) : group index f es = group index g es := by
  unfold group
  refine congrArg Work.of (funext fun l => ?_)
  have hfresh : Within size { bench := { stream := .ofList es, ledger := l } } :=
    within_fresh hes hsize none l
  rw [run_congr hg hfg hfresh]

/-- Grouping inner parts is alike for inner parts of nodes with at most one token more. -/
theorem groupInner_congr (hg : ∀ way, Conserves (deeper' way))
    (hfg : ∀ way, AlikeUpTo size (deeper way) (deeper' way)) (way : List NodeKind)
    (hn : n.toElement.Firm) (hsize : content .tokens [n.toElement] ≤ size + 1) :
    groupInner scope deeper way n = groupInner scope deeper' way n := by
  have hinner : content .tokens n.inner < content .tokens [n.toElement] := by
    rw [content_tokens, content_tokens, leavesOfList_cons, leavesOfList_nil, append_nil]
    exact n.length_inner_lt hn.1 hn.2
  unfold groupInner
  cases scope.indexAt way with
  | error => rfl
  | ok =>
    exact group_congr (hg way) (hfg way) (fun e he => hn.children e (n.inner_subset he)) (by omega)

/-- What is done to the inner parts of firm nodes up to this size. -/
def InnerAlike (size : Nat) (inner inner' : List NodeKind → Node → Work Ledger (List Element)) :
    Prop :=
  ∀ way (n : Node), n.toElement.Firm → content .tokens [n.toElement] ≤ size →
    inner way n = inner' way n

section Regroup

variable {inner inner' : List NodeKind → Node → Work Ledger (List Element)}

theorem regroupElement_congr (hin : InnerAlike size inner inner') (e : Element) :
    ∀ way : List NodeKind,
    e.Firm → content .tokens [e] ≤ size →
      regroupElement inner way e = regroupElement inner' way e := by
  induction e using induction with
  | token =>
    intro way _ _
    unfold regroupElement
    rfl
  | node hd cs ih =>
    intro way he hsize
    have hcs : content .tokens cs ≤ size := by
      rw [content_node] at hsize
      exact Nat.le_trans (Nat.le_add_right _ _) hsize
    have hall : ∀ es ⊆ cs, es.mapM (regroupElement inner (way ++ [hd.kind])) =
        es.mapM (regroupElement inner' (way ++ [hd.kind])) := by
      refine fun es hes => mapM_congr fun c hc => ih c (hes hc) _ (he.children c (hes hc)) ?_
      exact Nat.le_trans (content_le_of_mem (hes hc)) hcs
    rw [regroupElement_node, regroupElement_node, hin _ ⟨hd, cs⟩ he hsize,
      hall (Node.back ⟨hd, cs⟩) (drop_subset _ _), hall (Node.front ⟨hd, cs⟩) (take_subset _ _)]

end Regroup

/-- One more level, and one more token. -/
theorem regroupLevel_congr (hg : ∀ way, Conserves (deeper' way))
    (hfg : ∀ way, AlikeUpTo size (deeper way) (deeper' way)) (way : List NodeKind) :
    AlikeUpTo (size + 1) (regroupLevel scope [] deeper way)
      (regroupLevel scope [] deeper' way) := by
  intro n hn hsize
  have hinner : InnerAlike (size + 1) (groupInner scope deeper) (groupInner scope deeper') :=
    fun way n hn hsize => groupInner_congr hg hfg way hn hsize
  unfold regroupLevel
  simp only [Ledger.current_nil]
  rw [regroupElement_congr hinner n.toElement way hn hsize]

/-- **The depth is never reached.** Whatever is done there, regrouping a firm node does the same if
it has no more tokens than levels are left. -/
theorem alike_regroup (scope : Scope) (beyond : List NodeKind → Node → Work Ledger Node)
    (depth : Nat) (way : List NodeKind) :
    AlikeUpTo depth ((regroupLevel scope [])^[depth] beyond way) (regroup scope [] depth way) := by
  induction depth generalizing way with
  | zero =>
    -- every node has a token
    intro n hn hsize
    rw [content_tokens, leavesOfList_cons, leavesOfList_nil, append_nil] at hsize
    exact absurd hsize (Nat.not_le_of_lt (length_pos_of_ne_nil (leaves_ne_nil hn.1 hn.2)))
  | succ depth ih =>
    intro n hn hsize
    rw [Function.iterate_succ_apply', regroup_succ]
    exact regroupLevel_congr (conserves_regroup scope depth) ih way n hn hsize

/-- Every one of some stages comes to the same, whatever is done at the depth down to which it
regroups nodes. -/
theorem outcomes_runStages (beyond : List NodeKind → Node → Work Ledger Node) {depth : Nat}
    (scopes : List Scope) {ledger : Ledger} {broken : Option Fault} (hinput : ∀ e ∈ input, e.Firm)
    (hsize : content .tokens input ≤ depth) :
    (runStages [] depth (scopes.map ({ scope := · })) ledger input broken).map
        (fun d => run d.job.scope.top ((regroupLevel d.job.scope [])^[depth] beyond [])
          d.job.wanted d.bench) =
      (runStages [] depth (scopes.map ({ scope := · })) ledger input broken).map (·.outcome) := by
  induction scopes generalizing ledger input broken with
  | nil => rfl
  | cons scope scopes ih =>
    -- the bench stands for itself, lest the stage be computed
    obtain ⟨b, hb⟩ : ∃ b : Bench, b = { stream := { upcoming := input, broken }, ledger } :=
      ⟨_, rfl⟩
    have hwithin : Within depth { bench := b } := hb ▸ within_fresh hinput hsize broken ledger
    have hrun : runStages [] depth ((scope :: scopes).map ({ scope := · })) ledger input broken =
        ⟨{ scope }, b, run scope.top (regroup scope [] depth []) none b⟩ ::
          runStages [] depth (scopes.map ({ scope := · }))
            (run scope.top (regroup scope [] depth []) none b).bench.ledger
            (run scope.top (regroup scope [] depth []) none b).out
              (run scope.top (regroup scope [] depth []) none b).fault := by
      subst hb
      rfl
    have hreg := conserves_regroup scope depth []
    obtain ⟨hout, hless⟩ : (∀ e ∈ (run scope.top (regroup scope [] depth []) none b).out, e.Firm) ∧
        content .tokens (run scope.top (regroup scope [] depth []) none b).out ≤ depth :=
          out_run hreg hwithin
    rw [hrun, map_cons, map_cons, run_congr hreg (alike_regroup scope beyond depth []) hwithin,
      ih hout hless]

/-- **Grouping comes to an end**, whatever the grammar is, and whatever comes. A pattern that is
repeated stops fitting, or the elements run out. A stage, whatever is on its desk and however nodes
are regrouped, takes at most two rounds for each element, and two more. And however grouping inner
parts goes on, in none of the stages that a sequence of tokens is sent through by `Scope.parseAll`
does it go down to the depth that is set for it: what is done there makes no difference. -/
theorem grouping_terminates :
    (∀ (p : Pattern) (e : Element) (s : Lookahead Element), s.Opened →
      ∃ n, n ≤ s.toList.length + 1 ∧
        Loops (Attempt.round p.fits) n (s.index, false, e) s
          (((Pattern.repeated p).fits e).runOn s)) ∧
    (∀ (index : Index) (regroup : Node → Work Ledger Node) (p : Progress),
      p.bench.stream.looking = false →
      ∃ n, n ≤ 2 * p.bench.stream.toList.length + 2 ∧
        Loops (fun _ : Unit => round index regroup) n () p
          ((takeAll index regroup (2 * p.bench.stream.toList.length + 2)).runOn p)) ∧
    ∀ (scopes : List Scope) (tokens : List Token)
      (beyond : List NodeKind → Node → Work Ledger Node),
      (runStages [] (tokens.length + 1) (scopes.map ({ scope := · })) {}
        (tokens.map .token) none).map
          (fun d => run d.job.scope.top
            ((regroupLevel d.job.scope [])^[tokens.length + 1] beyond []) d.job.wanted d.bench) =
        (runStages [] (tokens.length + 1) (scopes.map ({ scope := · })) {}
          (tokens.map .token) none).map (·.outcome) := by
  refine ⟨fun p e s hs => Attempt.loops_repeated p e hs,
    fun index regroup p hlook => loops_takeAll hlook, ?_⟩
  intro scopes tokens beyond
  refine outcomes_runStages beyond scopes (fun e he => ?_) ?_
  · obtain ⟨t, -, rfl⟩ := mem_map.mp he
    exact .token t
  · rw [content_tokens, leavesOfList_map_token]
    exact Nat.le_succ _

/-- Groups in brackets. -/
def groupIndex : Index where
  blocks.others :=
    [{ kind := ⟨"Group", .block, []⟩, opening := some (.word "("), closing := some (.word ")") }]

/-- A bracket that begins a group. -/
def openBracket : Token :=
  ⟨some "(", some .generic, {}, false⟩

/-- Two groups, one in the other, that are both left open. -/
def openGroups : List Token :=
  [openBracket, openBracket, ⟨some "x", some .generic, {}, false⟩]

/-- A repetition of brackets on a lookahead that has seen none yet, a stage that makes groups, and
grouping the inner parts of groups that are left open, with a fault for what is never reached. -/
theorem grouping_terminates_openGroups :
    (Lookahead.Opened { upcoming := openGroups.map Element.token, looking := true } ∧
      ∃ n, n ≤ 3 + 1 ∧
        Loops (Attempt.round (Pattern.word "(").fits) n (0, false, .token openBracket)
          { upcoming := openGroups.map .token, looking := true }
          (((Pattern.repeated (.word "(")).fits (.token openBracket)).runOn
            { upcoming := openGroups.map .token, looking := true })) ∧
    ((Lookahead.ofList (openGroups.map Element.token)).looking = false ∧
      ∃ n, n ≤ 2 * 3 + 2 ∧
        Loops (fun _ : Unit => round groupIndex pure) n ()
          { bench := { stream := .ofList (openGroups.map .token) } }
          ((takeAll groupIndex pure (2 * 3 + 2)).runOn
            { bench := { stream := .ofList (openGroups.map .token) } })) ∧
    (runStages [] 4 [{ scope := .everywhere groupIndex }] {} (openGroups.map .token) none).map
        (fun d => run d.job.scope.top ((regroupLevel d.job.scope [])^[4]
          (fun _ _ => throw .blockNested) []) d.job.wanted d.bench) =
      (runStages [] 4 [{ scope := .everywhere groupIndex }] {} (openGroups.map .token) none).map
        (·.outcome) :=
  have hopened : Lookahead.Opened { upcoming := openGroups.map token, looking := true } :=
    ⟨rfl, Nat.zero_le _⟩
  ⟨⟨hopened, grouping_terminates.1 (.word "(") (.token openBracket) _ hopened⟩,
    ⟨rfl, grouping_terminates.2.1 groupIndex pure
      { bench := { stream := .ofList (openGroups.map .token) } } rfl⟩,
    grouping_terminates.2.2 [.everywhere groupIndex] openGroups _⟩

end Stage

end EztScan
