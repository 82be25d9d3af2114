import EztScan.Proofs.Outline
import EztScan.Proofs.TidySteps

/-!
# Sections in all readings

A parser that reads one source after another takes up what its desks held at the end of the last
one. The sections of all nodes that it gives fit their children nevertheless, and also if it stops
with a fault.

As each step keeps the bench tidy, so do whole stages (`Stage.tidy_run`) and regrouping, by
induction on its depth (`Stage.regroupsTidily`). Between two sources, nodes are replaced by what
they have become, which is sound (`Ledger.Tidy.refresh`). Hence a parser that keeps only sound nodes
gives only sound elements and still keeps only sound nodes afterwards (`Parser.Tidy.read`), and
`sections_divide_children` says what that means for the children of a node.
-/

namespace EztScan

open Work Element List

variable {es : List Element} {n : Node} {l : Ledger}

/-! ### Stages -/

/-- What is read comes from the stream, and so does what is left. -/
theorem Lookahead.mem_of_next {α : Type} {s t : Lookahead α} {x : α} (h : s.next = .ok (x, t)) :
    x ∈ s.toList ∧ ∀ y ∈ t.toList, y ∈ s.toList := by
  cases hlook : s.looking with
  | false =>
    cases hl : s.toList with
    | nil =>
      rw [next_of_toList_nil hlook hl] at h
      cases h
    | cons y =>
      obtain ⟨u, hu, hys, -, -⟩ := next_of_toList_cons hlook hl
      obtain ⟨rfl, rfl⟩ := Prod.mk.inj (Except.ok.inj (hu.symm.trans h))
      exact ⟨mem_cons_self, fun z hz => mem_cons_of_mem y (hys ▸ hz)⟩
  | true =>
    -- a lookahead keeps what it reads
    unfold next at h
    rw [if_pos hlook] at h
    split at h
    next y hy =>
      obtain ⟨rfl, rfl⟩ := Prod.mk.inj (Except.ok.inj h)
      exact ⟨mem_append_left _ (mem_of_getElem? hy), fun z hz => hz⟩
    next =>
      split at h
      next y ys hu =>
        obtain ⟨rfl, rfl⟩ := Prod.mk.inj (Except.ok.inj h)
        have hlist : s.buffer ++ [y] ++ ys = s.toList := by
          unfold toList
          rw [hu, append_assoc, singleton_append]
        refine ⟨?_, fun z hz => hlist ▸ hz⟩
        rw [← hlist]
        exact mem_append_left _ mem_concat_self
      next => cases h

namespace Stage

open Grouping

variable {index : Index} {regroup : Node → Work Ledger Node} {α : Type}

/-- All that a stage works with is sound, and so is what it has handed on. -/
structure Progress.Tidy (p : Progress) : Prop where
  bench : p.bench.Tidy
  out : AllSound p.out

/-- The work keeps what the stage has and has handed on tidy. -/
abbrev KeepsTidy (w : StageWork α) : Prop :=
  Upholds Progress.Tidy (fun _ => True) w

theorem upholds_onBench {Q : α → Prop} {w : Grouping α} (hw : Grouping.Tidies Q w) :
    Upholds Progress.Tidy Q (onBench w) :=
  hw.within (fun _ hp => hp.bench) fun _ _ hb hp => ⟨hb, hp.out⟩

theorem keepsTidy_handOn (hes : AllSound es) : KeepsTidy (handOn es) := by
  induction es with
  | nil => exact beside_pure trivial
  | cons e es ih =>
    obtain ⟨he, hrest⟩ := forall_mem_cons.mp hes
    unfold handOn
    refine (upholds_modify fun p hp => ⟨hp.bench, forall_mem_cons.mpr ⟨he, hp.out⟩⟩).bind
      fun _ _ => ?_
    refine upholds_get.bind fun p _ => ?_
    split
    next => exact beside_throw_bind
    next => exact ih hrest

/-- The run lemma of stages: whatever the stream gives, one step after the other keeps everything
tidy. -/
theorem keepsTidy_takeAll (index : Index) (hreg : RegroupsTidily regroup) (fuel : Nat) :
    KeepsTidy (takeAll index regroup fuel) := by
  induction fuel with
  | zero => exact beside_pure trivial
  | succ fuel ih =>
    unfold takeAll
    refine upholds_get.bind fun p hp => ?_
    split
    next => exact beside_pure trivial
    next => exact beside_throw _
    next e s hnext =>
      obtain ⟨hmem, hsub⟩ := Lookahead.mem_of_next hnext
      have he : e.Sound := hp.bench.stream e hmem
      have hs : AllSound s.toList := fun x hx => hp.bench.stream x (hsub x hx)
      refine (upholds_modify fun q hq => ⟨⟨hq.bench.desk, hs, hq.bench.ledger⟩, hq.out⟩).bind
        fun _ _ => ?_
      refine (upholds_onBench (tidies_step index hreg he)).bind fun out hout => ?_
      exact (keepsTidy_handOn hout).bind fun _ _ => ih

theorem keepsTidy_noteOpen : KeepsTidy noteOpen := by
  unfold noteOpen
  refine upholds_onBench (upholds_get.bind fun b hb => beside_forM fun n hn => tidies_note ?_)
  obtain ⟨o, ho, rfl⟩ := mem_map.mp hn
  refine (mem_append.mp ho).elim (fun h => ?_) (hb.desk.stack o)
  exact hb.desk.statement o (Option.mem_toList.mp h)

theorem keepsTidy_finishStatement : KeepsTidy finishStatement := by
  unfold finishStatement
  refine upholds_get.bind fun p hp => ?_
  split
  next => exact beside_pure trivial
  next o hs =>
    rcases hc : o.complete with ⟨o', fault⟩
    have ho' := (hp.bench.desk.statement o hs).complete hc
    refine (upholds_onBench (tidies_onDesk fun d hd => hd.setStatement ho')).bind fun _ _ => ?_
    refine (upholds_onBench (tidies_note ho')).bind fun _ _ => ?_
    cases fault with
    | some => exact beside_throw_bind
    | none => exact keepsTidy_handOn (.singleton ho')

/-- The blocks that are left open are put into each other, and the outermost one is regrouped. -/
theorem keepsTidy_finishBlocks (hreg : RegroupsTidily regroup) :
    KeepsTidy (finishBlocks regroup) := by
  unfold finishBlocks
  refine upholds_get.bind fun p hp => ?_
  have hattached := Desk.sound_attachAll hp.bench.desk.stack
  dsimp only
  split
  next => exact beside_pure trivial
  next bottom hlast =>
    rcases hc : bottom.complete with ⟨bottom', fault⟩
    have hbottom := (hattached bottom (mem_of_getLast? hlast)).complete hc
    have hstack : ∀ o ∈ (Desk.attachAll p.bench.desk.stack).dropLast ++ [bottom'], o.Sound :=
      forall_mem_append.mpr
        ⟨fun o ho => hattached o (dropLast_subset _ ho), forall_mem_singleton.mpr hbottom⟩
    refine (upholds_onBench (tidies_onDesk fun d hd => hd.setStack hstack)).bind fun _ _ => ?_
    refine (beside_forM fun o ho => upholds_onBench (tidies_note (hstack o ho))).bind fun _ _ => ?_
    -- all of them have been noted by now, so that a fault loses nothing
    cases fault with
    | some => exact beside_throw_bind
    | none =>
      refine (upholds_onBench (tidies_onLedger (hreg bottom'.node hbottom))).bind fun n hn => ?_
      exact keepsTidy_handOn (.singleton hn)

theorem keepsTidy_work (index : Index) (hreg : RegroupsTidily regroup) :
    KeepsTidy (work index regroup) := by
  unfold work
  refine upholds_get.bind fun p _ => ?_
  refine (keepsTidy_takeAll index hreg _).attempt.bind fun outcome _ => ?_
  cases outcome with
  -- what is open is noted as it is before the fault goes on
  | error f => exact keepsTidy_noteOpen.bind fun _ _ => beside_throw _
  | ok _ =>
    refine upholds_get.bind fun q hq => ?_
    refine (keepsTidy_handOn (.of_idle hq.bench.desk.comments)).bind fun _ _ => ?_
    exact keepsTidy_finishStatement.bind fun _ _ => keepsTidy_finishBlocks hreg

/-- What a stage hands on is sound, and it leaves a tidy bench. -/
structure Outcome.Tidy (o : Outcome) : Prop where
  out : AllSound o.out
  bench : o.bench.Tidy

/-- **A stage on a tidy bench hands on sound elements and leaves a tidy bench**, whether it succeeds
or not. -/
theorem tidy_run (index : Index) (hreg : RegroupsTidily regroup) (wanted : Option Nat) {b : Bench}
    (hb : b.Tidy) : (run index regroup wanted b).Tidy := by
  have hwork := (upholds_iff.mp (keepsTidy_work index hreg) { bench := b, wanted } ⟨hb, .nil⟩).1
  unfold run
  generalize (work index regroup).runOn { bench := b, wanted } = reached at hwork
  obtain ⟨outcome, p⟩ := reached
  have hout : AllSound p.out.reverse := fun e he => hwork.out e (mem_reverse.mp he)
  cases outcome <;> exact ⟨hout, hwork.bench⟩

/-! ### Regrouping -/

theorem upholds_group (index : Index) (hreg : RegroupsTidily regroup) (hes : AllSound es) :
    Upholds Ledger.Tidy AllSound (group index regroup es) := by
  refine upholds_iff.mpr fun l hl => ?_
  have hrun := tidy_run index hreg none (b := { stream := .ofList es, ledger := l })
    ⟨.empty, hes, hl⟩
  unfold group
  rw [runOn_of]
  dsimp only
  split
  next => exact ⟨hrun.bench.ledger, fun out hout => Except.ok.inj hout ▸ hrun.out⟩
  next => exact ⟨hrun.bench.ledger, fun out hout => (by cases hout)⟩

/-- Grouping the inner parts of nodes gives sound elements, if the nodes are sound. -/
def GroupsTidily (inner : List NodeKind → Node → Work Ledger (List Element)) : Prop :=
  ∀ way (n : Node), n.toElement.Sound → Upholds Ledger.Tidy AllSound (inner way n)

/-- A node whose inner part is replaced, and around it something has become of each element. -/
theorem sound_of_parts (hn : n.toElement.Sound) {front middle back : List Element}
    (hfront : Forall₂ Renewed n.front front) (hmiddle : AllSound middle)
    (hback : Forall₂ Renewed n.back back) :
    (Node.mk n.head (front ++ middle ++ back)).toElement.Sound := by
  refine .node (hn.fit.of_parts (n := n) Renewed.idle hfront hback) ?_
  rw [forall_mem_append, forall_mem_append]
  exact ⟨⟨Renewed.allSound hfront, hmiddle⟩, Renewed.allSound hback⟩

section Regroup

variable {inner : List NodeKind → Node → Work Ledger (List Element)}

/-- Around an inner part that is grouped anew, elements are replaced one by one. -/
theorem upholds_regroupElement (hin : GroupsTidily inner) (e : Element) :
    ∀ way : List NodeKind, e.Sound → Upholds Ledger.Tidy (Renewed e)
      (regroupElement inner way e) := by
  induction e using Element.induction with
  | token t =>
    intro way _
    unfold regroupElement
    exact beside_pure (.token t)
  | node hd cs ih =>
    intro way he
    have hall : ∀ c ∈ cs, Upholds Ledger.Tidy (Renewed c)
        (regroupElement inner (way ++ [hd.kind]) c) :=
      fun c hc => ih c hc _ (he.children c hc)
    rw [regroupElement_node]
    refine (hin _ ⟨hd, cs⟩ he).bind fun middle hmiddle => ?_
    refine (upholds_mapM fun c hc => hall c (mem_of_mem_drop hc)).bind fun back hback => ?_
    refine (upholds_mapM fun c hc => hall c (mem_of_mem_take hc)).bind fun front hfront => ?_
    have hnew := sound_of_parts (n := ⟨hd, cs⟩) he hfront hmiddle hback
    exact (upholds_modify fun l hl => Ledger.Tidy.note hl hnew).bind fun _ _ =>
      beside_pure (.node hnew)

end Regroup

theorem groupsTidily_groupInner (scope : Scope) {regroup : List NodeKind → Node → Work Ledger Node}
    (hreg : ∀ way, RegroupsTidily (regroup way)) : GroupsTidily (groupInner scope regroup) := by
  intro way n hn
  unfold groupInner
  split
  next => exact beside_throw _
  next index _ =>
    refine upholds_group index (hreg way) fun e he => hn.children e ?_
    exact mem_of_mem_take (mem_of_mem_drop he)

end Stage

theorem Ledger.Tidy.latest (hl : l.Tidy) (hn : n.toElement.Sound) (number : Nat) :
    ((l.notes.lookup number).getD n).toElement.Sound := by
  cases hlookup : l.notes.lookup number with
  | none => exact hn
  | some m =>
    obtain ⟨before, after, hnotes, -⟩ := List.lookup_eq_some_iff.mp hlookup
    exact hl (number, m) (hnotes ▸ mem_append_right _ mem_cons_self)

/-- Whether a node is taken as it is or as it was noted, it is sound. -/
theorem Ledger.Tidy.current (hl : l.Tidy) (shared : List Nat) (hn : n.toElement.Sound) :
    (l.current shared n).toElement.Sound := by
  unfold Ledger.current
  split
  · exact hl.latest hn _
  · exact hn

/-- **Regrouping keeps nodes sound**, those that are shared included, and whether it succeeds or
not. The induction is on the depth to which nodes are regrouped. -/
theorem Stage.regroupsTidily (scope : Scope) (shared : List Nat) (depth : Nat) :
    ∀ way, Grouping.RegroupsTidily (Stage.regroup scope shared depth way) := by
  induction depth with
  | zero => exact fun way n hn => beside_pure hn
  | succ depth ih =>
    intro way n hn
    unfold Stage.regroup
    refine upholds_get.bind fun l hl => ?_
    -- a shared node is regrouped as it stands in the ledger, where all nodes are sound
    have hcurrent := Ledger.Tidy.current hl shared hn
    refine (upholds_regroupElement (groupsTidily_groupInner scope ih) _ way hcurrent).bind
      fun e he => ?_
    cases e with
    | token => exact beside_pure hcurrent
    | node => exact beside_pure he.sound

/-! ### Nodes that are brought up to date -/

namespace Ledger.Tidy

variable {l : Ledger}

/-- Bringing a node up to date replaces it and then what is in it. The induction is on the depth. -/
theorem renewed_refreshWithin (hl : l.Tidy) (fuel : Nat) :
    ∀ {e : Element}, e.Sound → Grouping.Renewed e (l.refreshWithin fuel e) := by
  induction fuel with
  | zero =>
    intro e he
    cases e with
    | token t => exact .token t
    | node => exact .node he
  | succ fuel ih =>
    intro e he
    cases e with
    | token t => exact .token t
    | node hd cs =>
      have hn := hl.latest (n := ⟨hd, cs⟩) he hd.number
      -- whatever a node has become, something becomes of each of its children then
      have hchildren :=
        forall₂_map_right_iff.mpr (forall₂_same.mpr fun e he => ih (hn.children e he))
      exact .node (.node (hn.fit.of_forall₂ Grouping.Renewed.idle hchildren)
        (Grouping.Renewed.allSound hchildren))

theorem refresh (hl : l.Tidy) {e : Element} (he : e.Sound) : (l.refresh e).Sound :=
  (hl.renewed_refreshWithin _ he).sound

theorem refreshNode (hl : l.Tidy) (hn : n.toElement.Sound) : (l.refreshNode n).toElement.Sound := by
  have hrefreshed := hl.refresh hn
  unfold Ledger.refreshNode
  split
  next h cs heq =>
    rw [heq] at hrefreshed
    exact hrefreshed
  next => exact hn

end Ledger.Tidy

theorem Desk.Tidy.refresh {d : Desk} (hd : d.Tidy) (hl : l.Tidy) : (d.refresh l).Tidy := by
  have hfresh : ∀ {o : OpenNode}, o.Sound → (o.withNode (l.refreshNode o.node)).Sound := by
    intro o ho
    unfold OpenNode.Sound OpenNode.Everywhere
    rw [OpenNode.node_withNode]
    exact hl.refreshNode ho
  refine ⟨hd.comments, fun o ho => ?_, fun o ho => ?_⟩
  · obtain ⟨o', ho', rfl⟩ := Option.map_eq_some_iff.mp ho
    exact hfresh (hd.statement o' ho')
  · obtain ⟨o', ho', rfl⟩ := mem_map.mp ho
    exact hfresh (hd.stack o' ho')

/-! ### Parsers -/

theorem StageJob.tidy_runOn (shared : List Nat) (depth : Nat) (job : StageJob) {b : Bench}
    (hb : b.Tidy) : (job.runOn shared depth b).outcome.Tidy := by
  unfold StageJob.runOn
  split
  · exact ⟨.nil, hb⟩
  · exact Stage.tidy_run _ (Stage.regroupsTidily job.scope shared depth []) _ hb

/-- What stages do one after the other is sound, with a fault in any of them. -/
theorem tidy_of_mem_runStages {shared : List Nat} {depth : Nat} {jobs : List StageJob} :
    ∀ {ledger : Ledger} {input : List Element} {broken : Option Fault},
      (∀ job ∈ jobs, job.desk.Tidy) → ledger.Tidy → AllSound input →
      ∀ done ∈ runStages shared depth jobs ledger input broken, done.outcome.Tidy := by
  induction jobs with
  | nil => exact fun _ _ _ => forall_mem_nil _
  | cons job jobs ih =>
    intro ledger input broken hjobs hledger hinput
    obtain ⟨hjob, hrest⟩ := forall_mem_cons.mp hjobs
    -- what a desk holds is brought up to date before its stage begins
    have hdesk : (if shared.isEmpty then job.desk else job.desk.refresh ledger).Tidy := by
      split
      · exact hjob
      · exact hjob.refresh hledger
    unfold runStages
    have hdone := job.tidy_runOn shared depth
      (b := { desk := _, stream := { upcoming := input, broken }, ledger }) ⟨hdesk, hinput, hledger⟩
    exact forall_mem_cons.mpr ⟨hdone, ih hrest hdone.bench.ledger hdone.out⟩

theorem Parser.tidy_of_mem_runAll {shared : List Nat} {depth : Nat} {jobs : List StageJob}
    {ledger : Ledger} {input : List Element} {broken : Option Fault}
    (hjobs : ∀ job ∈ jobs, job.desk.Tidy) (hledger : ledger.Tidy) (hinput : AllSound input) :
    ∀ done ∈ runAll shared depth jobs ledger input broken, done.outcome.Tidy := by
  unfold runAll
  dsimp only
  split
  next =>
    -- stages that are asked for less begin with the same desks
    refine tidy_of_mem_runStages (fun job hj => ?_) hledger hinput
    obtain ⟨⟨job', i⟩, hmem, rfl⟩ := mem_map.mp hj
    exact hjobs job' (fst_mem_of_mem_zipIdx hmem)
  next => exact tidy_of_mem_runStages hjobs hledger hinput

theorem allSound_readingOf {dones : List StageDone} {input : List Element}
    (hdones : ∀ done ∈ dones, done.outcome.Tidy) (hinput : AllSound input) :
    AllSound (readingOf dones input).elements := by
  unfold readingOf
  split
  next done hlast => exact (hdones done (mem_of_getLast? hlast)).out
  next => exact hinput

theorem allSound_tokens {α : Type} (ts : List α) (f : α → Token) :
    AllSound (ts.map fun t => .token (f t)) := by
  intro e he
  obtain ⟨t, -, rfl⟩ := mem_map.mp he
  exact .token _

namespace Parser

/-- All that the parser keeps from one source to the next is sound. -/
structure Tidy (p : Parser) : Prop where
  desks : ∀ d ∈ p.desks, d.Tidy
  ledger : p.ledger.Tidy

theorem tidy_new (scopes : List Scope) (caseSensitive indents : Bool) :
    (new scopes caseSensitive indents).Tidy := by
  refine ⟨fun d hd => ?_, forall_mem_nil _⟩
  obtain ⟨_, -, rfl⟩ := mem_map.mp hd
  exact .empty

/-- **Every reading is sound**, and leaves a parser that reads on in the same way. -/
theorem Tidy.read {p : Parser} (hp : p.Tidy) (source : Source) :
    AllSound (p.read source).1.elements ∧ (p.read source).2.Tidy := by
  have hinput := allSound_tokens (p.feed source).tokens (·.token)
  have hjobs : ∀ job ∈ (p.scopes.zip p.desks).map fun x =>
      ({ scope := x.1, desk := x.2 } : StageJob), job.desk.Tidy := by
    intro job hj
    obtain ⟨⟨scope, desk⟩, hmem, rfl⟩ := mem_map.mp hj
    exact hp.desks desk (of_mem_zip hmem).2
  -- a name for what the stages have done, lest it be computed
  obtain ⟨dones, hdones⟩ : ∃ dones, dones = runAll p.shared
      (p.tokenCount + ((p.feed source).tokens.map fun t => Element.token t.token).length + 1)
      ((p.scopes.zip p.desks).map fun x => { scope := x.1, desk := x.2 }) p.ledger
      ((p.feed source).tokens.map fun t => Element.token t.token) (p.feed source).fault := ⟨_, rfl⟩
  have htidy : ∀ done ∈ dones, done.outcome.Tidy :=
    hdones ▸ tidy_of_mem_runAll hjobs hp.ledger hinput
  have hledger : (((dones.getLast?).map (·.outcome.bench.ledger)).getD p.ledger).Tidy := by
    cases hlast : dones.getLast? with
    | none => exact hp.ledger
    | some done => exact (htidy done (mem_of_getLast? hlast)).bench.ledger
  have helements := allSound_readingOf htidy hinput
  unfold Parser.read
  dsimp only
  rw [← hdones]
  refine ⟨?_, fun d hd => ?_, forall_mem_nil _⟩
  · split
    · exact helements
    · -- nodes that are shared are given as they have become
      intro e he
      obtain ⟨e', he', rfl⟩ := mem_map.mp he
      exact hledger.refresh (helements e' he')
  · obtain ⟨done, hmem, rfl⟩ := mem_map.mp hd
    exact (htidy done hmem).bench.desk.refresh hledger

/-- The run lemma of parsers: one source after the other. -/
theorem Tidy.readAll (sources : List Source) :
    ∀ {p : Parser}, p.Tidy → ∀ r ∈ p.readAll sources, AllSound r.elements := by
  induction sources with
  | nil => exact fun _ => forall_mem_nil _
  | cons source sources ih =>
    intro p hp
    obtain ⟨hreading, hnext⟩ := hp.read source
    exact forall_mem_cons.mpr ⟨hreading, ih hnext⟩

end Parser

theorem Scope.allSound_parseAll (scopes : List Scope) (tokens : List Token) :
    AllSound (Scope.parseAll scopes tokens).elements := by
  have hinput := allSound_tokens tokens id
  refine allSound_readingOf (tidy_of_mem_runStages (fun job hj => ?_) (forall_mem_nil _) hinput)
    hinput
  obtain ⟨scope, -, rfl⟩ := mem_map.mp hj
  exact .empty

/-! ### The children of a node, section by section -/

/-- The lengths of its sections divide the children of a node: comments in front, header, opening,
inner part, closing. -/
structure Node.Divided (n : Node) : Prop where
  nonneg : 0 ≤ n.head.sections.comments ∧ 0 ≤ n.head.sections.header ∧ 0 ≤ n.head.sections.opening ∧
    0 ≤ n.head.sections.closing
  total : n.head.sections.comments + n.head.sections.header + n.head.sections.opening +
    n.head.sections.closing ≤ n.children.length
  front : (n.front.length : Int) = n.head.sections.comments + n.head.sections.header +
    n.head.sections.opening
  back : (n.back.length : Int) = n.head.sections.closing
  parts : n.front ++ n.inner ++ n.back = n.children
  replace : n.replaceInner n.inner = n
  comments : ∀ e ∈ n.children.take n.head.sections.comments.toNat,
    ∃ t : Token, e = .token t ∧ (t.isBlank = true ∨ t.isComment = true)

theorem Sections.Fit.divided (hn : n.head.sections.Fit n.children) : n.Divided where
  nonneg := ⟨hn.comments, hn.header, hn.opening, hn.closing⟩
  total := hn.total
  front := n.length_front hn
  back := n.length_back hn
  parts := n.front_append_inner_append_back hn
  replace := by
    unfold Node.replaceInner
    rw [n.front_append_inner_append_back hn]
  comments e he := by
    have hidle := hn.idle e he
    cases e with
    | token t =>
      refine ⟨t, rfl, ?_⟩
      unfold isCode Token.isCode at hidle
      cases hblank : t.isBlank <;> cases hcomment : t.isComment <;> simp_all
    | node => cases hidle

theorem Element.Sound.divided {e : Element} (he : e.Sound) : ∀ n ∈ allNodes [e], n.Divided := by
  induction he with
  | token =>
    rw [allNodes_token]
    exact forall_mem_nil _
  | node fit _ ih =>
    intro n hn
    -- the node itself, or one further down
    rcases mem_cons.mp ((allNodes_node ⟨_, _⟩) ▸ hn) with rfl | hn
    · exact fit.divided
    · obtain ⟨e, he, hn⟩ := exists_of_mem_allNodes hn
      exact ih e he n hn

theorem Element.AllSound.divided (hes : AllSound es) : ∀ n ∈ allNodes es, n.Divided := by
  intro n hn
  obtain ⟨e, he, hn⟩ := exists_of_mem_allNodes hn
  exact (hes e he).divided n hn

/-- **Sections divide the children.** Whatever the grammars of a parser are, and whatever it reads:
in every node of every reading, at all depths, no section has a negative length, together they are
no longer than the node, the children before, in and after the inner part are all the children,
putting the inner part back changes nothing, and the comments in front are blanks and comments. This
holds of tokens that are sent through the stages once, and of sources that are read one after the
other, with nodes that stay open in between; no fault changes it. -/
theorem sections_divide_children (scopes : List Scope) :
    (∀ tokens, ∀ n ∈ allNodes (Scope.parseAll scopes tokens).elements, n.Divided) ∧
    ∀ (caseSensitive indents : Bool) (sources : List Source),
      ∀ r ∈ (Parser.new scopes caseSensitive indents).readAll sources, ∀ n ∈ allNodes r.elements,
        n.Divided :=
  ⟨fun tokens => (Scope.allSound_parseAll scopes tokens).divided,
    fun caseSensitive indents sources r hr =>
      ((Parser.tidy_new scopes caseSensitive indents).readAll sources r hr).divided⟩

/-- Groups with a header, which are regrouped by a grammar for statements. -/
def groupStages : List Scope :=
  [.everywhere { blocks := { others := [
      { kind := ⟨"Group", .block, []⟩, header := some (.word "do"), opening := some (.word "("),
        closing := some (.word ")") }] } },
    .everywhere { statements := { others := [
      { kind := ⟨"Call", .statement, []⟩, opening := some (.word "x"),
        closing := some (.word ".") }] } }]

/-- A group with a comment in front, which one source opens and the next one closes. -/
def splitGroup : List Source :=
  [.tokens [(some .comment, some "*"), (some .generic, some "do"), (some .generic, some "y"),
    (some .generic, some "(")],
    .tokens [(some .generic, some "x"), (some .generic, some "."), (some .generic, some ")")]]

theorem sections_divide_split_group :
    ((Parser.new groupStages false false).readAll splitGroup).map
        (fun r => (allNodes r.elements).map fun n =>
          (n.head.kind.name, n.head.sections, n.children.length)) =
      [[("Group", ⟨1, 2, 1, 0⟩, 4)], [("Group", ⟨1, 2, 1, 1⟩, 6), ("Call", ⟨0, 0, 1, 1⟩, 2)]] ∧
    ∀ r ∈ (Parser.new groupStages false false).readAll splitGroup, ∀ n ∈ allNodes r.elements,
      n.Divided :=
  ⟨by decide +kernel, (sections_divide_children groupStages).2 false false splitGroup⟩

end EztScan
