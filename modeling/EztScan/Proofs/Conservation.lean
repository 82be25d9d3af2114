import EztScan.Tree.Walk
import EztScan.Proofs.Sound
import Mathlib.Algebra.GroupWithZero.Nat

/-!
# Nothing is lost, and nothing is doubled

Grouping moves tokens between the stream, the comments that wait, the open statement, the open
blocks and what is handed on, and it makes nodes, each of them with the next number of the ledger.
Whatever a token and a number weigh (`Weights`), all of this together always weighs the same if a
number that has not been given weighs what its node is going to weigh. `Move.content` says so of one
move, `GroupedFrom.content` of a whole stage, and `balanced_regroup` of regrouping, where the inner
part of a node is taken out and put back: the sections have to fit the children for that, so all
elements are supposed to be sound.

Weights that tell one token from all others show that the tokens of what the last stage hands on are
those that the first one was given (`leaves_perm_of_fresh`). Weights that tell one number from all
others show that no two nodes of a tree have the same one (`nodup_numbers_parseAll`), which is what
allows to keep under its number what is known about a node apart from its content.
-/

namespace EztScan

open List Element

variable {o : OpenNode} {d : Desk} {es es' out : List Element} {l l' : Ledger}
variable {depth : Nat} {jobs : List StageJob}

/-- What tokens and numbers of nodes weigh, and what all numbers from some number on weigh that have
not been given yet. -/
structure Weights where
  token : Token → Nat
  number : Nat → Nat
  unused : Nat → Nat
  /-- The weight of a number goes over to the node that it is given to. -/
  spend : ∀ next, number next + unused (next + 1) = unused next

/-- Only tokens weigh something. -/
def Weights.ofTokens (f : Token → Nat) : Weights :=
  ⟨f, fun _ => 0, fun _ => 0, fun _ => rfl⟩

variable (w : Weights)

/-! ### What elements, nodes and desks weigh -/

namespace Element

/-- What some elements weigh: their tokens, and the numbers of all nodes in them. -/
def content (es : List Element) : Nat :=
  ((leavesOfList es).map w.token).sum + ((allNodes es).map (w.number ·.head.number)).sum

@[simp] theorem content_nil : content w [] = 0 := by
  rw [content, leavesOfList_nil, allNodes_nil]
  rfl

@[simp] theorem content_append (as bs : List Element) :
    content w (as ++ bs) = content w as + content w bs := by
  unfold content
  rw [leavesOfList_append, allNodes_append, map_append, map_append, sum_append, sum_append]
  omega

theorem content_cons (e : Element) (es : List Element) :
    content w (e :: es) = content w [e] + content w es := by
  rw [← content_append, singleton_append]

@[simp] theorem content_reverse (es : List Element) : content w es.reverse = content w es := by
  induction es with
  | nil => rfl
  | cons e es ih => rw [reverse_cons, content_append, content_cons w e es, ih, Nat.add_comm]

@[simp] theorem content_node (h : Head) (cs : List Element) :
    content w [.node h cs] = content w cs + w.number h.number := by
  have hnodes : allNodes [.node h cs] = ⟨h, cs⟩ :: allNodes cs := allNodes_node ⟨h, cs⟩
  unfold content
  rw [hnodes, leavesOfList_cons, leaves_node, leavesOfList_nil, append_nil, map_cons, sum_cons]
  dsimp only
  omega

end Element

namespace OpenNode

variable {o' : OpenNode} {fault : Option Fault}

/-- What an open node weighs. -/
def content (o : OpenNode) : Nat :=
  Element.content w o.made + w.number o.head.number

section Content

variable (o)

theorem content_toElement : Element.content w [o.node.toElement] = o.content w := by
  unfold node Node.toElement content
  rw [content_node, content_reverse]

@[simp] theorem content_pushAll (es : List Element) :
    (o.pushAll es).content w = o.content w + Element.content w es := by
  unfold pushAll content
  rw [content_append, content_reverse]
  dsimp only
  omega

@[simp] theorem content_push (e : Element) :
    (o.push e).content w = o.content w + Element.content w [e] :=
  o.content_pushAll w [e]

@[simp] theorem content_mapSections (f : Sections → Sections) :
    (o.mapSections f).content w = o.content w :=
  rfl

@[simp] theorem content_setClosing (count : Nat) : (o.setClosing count).content w = o.content w :=
  rfl

@[simp] theorem content_withHeader (items : List HeaderItem) :
    (o.withHeader items).content w = o.content w :=
  rfl

@[simp] theorem content_withNode (n : Node) :
    (o.withNode n).content w = Element.content w [n.toElement] := by
  rw [← content_toElement, node_withNode]

end Content

@[simp] theorem content_begin (r : Rule) (number : Nat) (sections : Nat → Sections → Sections)
    (comments es : List Element) :
    (OpenNode.begin r number sections comments es).content w =
      Element.content w comments + Element.content w es + w.number number := by
  unfold OpenNode.begin content
  rw [content_reverse, content_append]

@[simp] theorem content_blockFor (r : Rule) (number : Nat) (comments es : List Element) :
    (Grouping.blockFor r number comments es).content w =
      Element.content w comments + Element.content w es + w.number number := by
  unfold Grouping.blockFor
  split
  · rw [content_withHeader, content_begin]
  · rw [content_begin]

theorem attached_complete (h : o.complete = (o', fault)) : o'.attached = o.attached := by
  obtain ⟨operands, rfl⟩ := eq_of_complete h
  rfl

theorem content_complete (h : o.complete = (o', fault)) : o'.content w = o.content w := by
  obtain ⟨operands, rfl⟩ := eq_of_complete h
  rw [content_withNode, ← content_toElement, Node.toElement, Node.toElement, content_node,
    content_node]
  rfl

/-- What some open nodes weigh. -/
def contents (os : List OpenNode) : Nat :=
  (os.map (content w)).sum

@[simp] theorem contents_nil : contents w [] = 0 :=
  rfl

@[simp] theorem contents_cons (o : OpenNode) (os : List OpenNode) :
    contents w (o :: os) = o.content w + contents w os := by
  rw [contents, map_cons, sum_cons]
  rfl

/-- The outermost block weighs as much as all of them. -/
theorem content_outermost (rest : List OpenNode) (o : OpenNode) :
    (o.outermost rest).content w = o.content w + contents w rest := by
  induction rest generalizing o with
  | nil => rw [contents_nil, outermost, Nat.add_zero]
  | cons parent rest ih =>
    rw [outermost, ih, content_push, content_toElement, contents_cons]
    omega

end OpenNode

namespace Desk

open OpenNode

/-- What everything on the desk weighs. -/
def content (d : Desk) : Nat :=
  Element.content w d.comments + contents w d.statement.toList + contents w d.stack

theorem content_cons (d : Desk) (o : OpenNode) :
    content w { d with stack := o :: d.stack } = d.content w + o.content w := by
  simp only [content, contents_cons]
  omega

/-- A complete node goes into the innermost block or is handed on. -/
theorem content_deliver (d : Desk) (n : Node) :
    Element.content w (d.deliver n).1 + (d.deliver n).2.content w =
      d.content w + Element.content w [n.toElement] := by
  unfold deliver
  split
  next => exact Nat.add_comm _ _
  next parent rest hs =>
    have hn : Element.content w [(adopt parent n).toElement] = Element.content w [n.toElement] := by
      rw [Node.toElement, Node.toElement, content_node, content_node]
      rfl
    simp only [content, hs, contents_cons, content_push, hn, content_nil]
    omega

/-- A block that is taken off the stack goes into the one around it or is handed on. -/
theorem content_pop (d : Desk) (ho : o.attached = false) (below : List OpenNode) :
    Element.content w (if below.isEmpty then [o.node.toElement] else []) +
        (d.pop o below).content w =
      Element.content w d.comments + contents w d.statement.toList +
        (o.content w + contents w below) := by
  cases below with
  | nil =>
    simp only [pop, content, isEmpty_nil, if_true, content_toElement, contents_nil]
    omega
  | cons =>
    simp only [pop, content, isEmpty_cons, ho, Bool.false_eq_true, if_false, content_toElement,
      contents_cons, content_push, content_nil]
    omega

/-- A new block is on the stack now, and the blocks that it takes the place of are handed on as
one. -/
theorem content_enter {d' : Desk} (hd : d.Sound) (h : d.enter o = some (out, d')) :
    Element.content w out + d'.content w = d.content w + o.content w := by
  unfold enter at h
  split at h
  next hs =>
    obtain ⟨rfl, rfl⟩ := Prod.mk.inj (Option.some.inj h)
    simp only [content, hs, contents_cons, contents_nil, content_nil]
    omega
  next parent rest hs =>
    split at h
    next =>
      obtain ⟨rfl, rfl⟩ := Prod.mk.inj (Option.some.inj h)
      simp only [content, hs, contents_cons, content_nil]
      -- the block learns what it stands in, which weighs nothing
      unfold OpenNode.content
      dsimp only
      omega
    next =>
      split at h
      next bottom hbottom =>
        split at h
        next =>
          obtain ⟨rfl, rfl⟩ := Prod.mk.inj (Option.some.inj h)
          rw [← hs] at hbottom
          obtain ⟨top, below, hs', rfl⟩ := hd.getLast?_attachAll hbottom
          simp only [content, hs', contents_cons, contents_nil, content_toElement,
            content_outermost]
          omega
        next => exact nomatch h
      next => exact nomatch h

end Desk

namespace Grouping

open OpenNode Work

variable {index : Index} {regroup : Node → Work Ledger Node} {scope : Scope}
variable {d' : Desk}

/-! ### What regrouping keeps -/

/-- A relation between elements, what becomes of them, and the numbers of the next node before that
and afterwards, which holds of elements if it holds of their parts in the order in which those are
regrouped: of a node first the inner part, then what is behind it, and then what is in front. -/
structure Composed (R : Nat → List Element → List Element → Nat → Prop) : Prop where
  refl : ∀ k es, R k es es k
  append : ∀ {k k₁ k₂ as as' bs bs'}, R k as as' k₁ → R k₁ bs bs' k₂ →
    R k (as ++ bs) (as' ++ bs') k₂
  node : ∀ {h k k₁ k₂ k₃ front front' middle middle' back back'}, R k middle middle' k₁ →
    R k₁ back back' k₂ → R k₂ front front' k₃ →
    R k [.node h (front ++ middle ++ back)] [.node h (front' ++ middle' ++ back')] k₃

/-- Regrouping keeps elements sound, and makes of them what is related to them. -/
structure Respects (R : Nat → List Element → List Element → Nat → Prop)
    (regroup : Node → Work Ledger Node) : Prop where
  sound : RebuildsSound regroup
  related : ∀ {l e e' l'}, Rebuilding regroup l e e' l' → e.Sound → R l.next [e] [e'] l'.next

section Composed

variable {R : Nat → List Element → List Element → Nat → Prop} (hR : Composed R)

include hR

theorem Composed.of_runs_mapM {f : Element → Work Ledger Element}
    (hf : ∀ e ∈ es, ∀ {l e' l'}, Runs (f e) l e' l' → R l.next [e] [e'] l'.next)
    (h : Runs (es.mapM f) l es' l') : R l.next es es' l'.next := by
  induction es generalizing es' l l' with
  | nil =>
    rw [mapM_nil] at h
    obtain ⟨rfl, rfl⟩ := runs_pure.mp h
    exact hR.refl _ _
  | cons e es ih =>
    obtain ⟨he, hes⟩ := forall_mem_cons.mp hf
    rw [mapM_cons] at h
    obtain ⟨e₁, l₁, h₁, h⟩ := runs_bind.mp h
    obtain ⟨es₁, h₂, rfl⟩ := runs_bind_pure.mp h
    exact hR.append (he h₁) (ih hes h₂)

theorem Respects.regroupAll (hreg : Respects R regroup) (hes : ∀ e ∈ es, e.Sound)
    (h : Runs (regroupAll regroup es) l es' l') : R l.next es es' l'.next :=
  hR.of_runs_mapM (fun e he _ _ _ h => hreg.related (runs_rebuild h) (hes e he))
    (regroupAll_eq regroup es ▸ h)

theorem Composed.of_runs_regroupElement
    {inner : List NodeKind → Node → Work Ledger (List Element)}
    (hin : ∀ {way n l out l'}, (∀ e ∈ n.inner, e.Sound) → Runs (inner way n) l out l' →
      R l.next n.inner out l'.next) (e : Element) :
    ∀ {way l e' l'}, e.Sound → Runs (Stage.regroupElement inner way e) l e' l' →
      R l.next [e] [e'] l'.next := by
  induction e using Element.induction with
  | token =>
    intro way l e' l' _ h
    unfold Stage.regroupElement at h
    obtain ⟨rfl, rfl⟩ := runs_pure.mp h
    exact hR.refl _ _
  | node hd cs ih =>
    intro way l e' l' hsound h
    obtain ⟨middle, back, front, l₁, l₂, l₃, h₁, h₂, h₃, rfl, rfl⟩ :=
      Stage.of_runs_regroupElement_node h
    -- front, inner part and back are the children, each of them once
    have hcs : Node.front ⟨hd, cs⟩ ++ Node.inner ⟨hd, cs⟩ ++ Node.back ⟨hd, cs⟩ = cs :=
      Node.front_append_inner_append_back (n := ⟨hd, cs⟩) hsound.fit
    have hmiddle := hin (fun e he => hsound.children e (Node.inner_subset ⟨hd, cs⟩ he)) h₁
    have hback : R _ (Node.back ⟨hd, cs⟩) back _ := hR.of_runs_mapM (fun c hc =>
      ih c (mem_of_mem_drop hc) (hsound.children c (mem_of_mem_drop hc))) h₂
    have hfront : R _ (Node.front ⟨hd, cs⟩) front _ := hR.of_runs_mapM (fun c hc =>
      ih c (mem_of_mem_take hc) (hsound.children c (mem_of_mem_take hc))) h₃
    have hnode := hR.node (h := hd) hmiddle hback hfront
    rw [hcs] at hnode
    exact hnode

/-- **Regrouping keeps a relation** if grouping does, down to any depth. -/
theorem Composed.respects
    (hgroup : ∀ {depth way index l es out next}, scope.indexAt way = .ok index →
      Respects R (Stage.regroup scope [] depth way) → (∀ e ∈ es, e.Sound) →
      GroupedFrom index (Stage.regroup scope [] depth way) l {} es out next → R l.next es out next)
    (depth : Nat) (way : List NodeKind) : Respects R (Stage.regroup scope [] depth way) := by
  induction depth generalizing way with
  | zero =>
    refine ⟨rebuilt_sound scope 0 way, ?_⟩
    rintro l (t | ⟨hd, cs⟩) e' l' h -
    · obtain ⟨rfl, rfl⟩ := h
      exact hR.refl _ _
    · -- at this depth nodes are left as they are
      obtain ⟨n, hn, rfl⟩ := h
      obtain ⟨rfl, rfl⟩ := runs_pure.mp hn
      exact hR.refl _ _
  | succ depth ih =>
    refine ⟨rebuilt_sound scope (depth + 1) way, ?_⟩
    rintro l (t | ⟨hd, cs⟩) e' l' h he
    · obtain ⟨rfl, rfl⟩ := h
      exact hR.refl _ _
    · obtain ⟨n, hn, rfl⟩ := h
      refine hR.of_runs_regroupElement ?_ _ he
        (Stage.runs_regroupElement_of_regroup (n := ⟨hd, cs⟩) hn)
      intro way n l out l' hinner h
      unfold Stage.groupInner at h
      split at h
      next => exact absurd h not_runs_throw
      next index hindex => exact hgroup hindex (ih way) hinner (Stage.grouped_of_runs_group h)

end Composed

/-- Nothing is lost and nothing is doubled, counting the numbers that are still to be given. -/
def Balanced (next : Nat) (es es' : List Element) (next' : Nat) : Prop :=
  content w es' + w.unused next' = content w es + w.unused next

variable {w}

theorem composed_balanced : Composed (Balanced w) where
  refl _ _ := rfl
  append h₁ h₂ := by
    unfold Balanced at *
    rw [content_append, content_append]
    omega
  node h₁ h₂ h₃ := by
    unfold Balanced at *
    simp only [content_node, content_append]
    omega

/-! ### Moves, runs and stages -/

section Stages

variable (hreg : Respects (Balanced w) regroup)

include hreg

/-- **No move loses or doubles anything.** -/
theorem Move.content {e : Element} {rest rest' : List Element}
    (h : Move index regroup k d e rest out d' rest' k') (hd : d.Sound) (he : e.Sound)
    (hrest : ∀ x ∈ rest, x.Sound) :
    content w out + d'.content w + content w rest' + w.unused k' =
      d.content w + content w [e] + content w rest + w.unused k := by
  have hspend := w.spend k
  cases h with
  -- in each case both sides come down to the same parts
  | close o o' taken rest ho htakes hc =>
    have ho' := content_complete w hc
    rw [Desk.content_deliver, content_toElement, ho']
    simp only [Desk.content, ho, Option.toList_some, Option.toList_none, contents_cons,
      contents_nil, content_pushAll, content_setClosing, content_cons w e taken, content_append,
      content_nil]
    omega
  | leave o o' rest ho htakes hc =>
    have ho' := content_complete w hc
    rw [Desk.content_deliver, content_toElement, ho', content_cons w e rest]
    simp only [Desk.content, ho, Option.toList_some, Option.toList_none, contents_cons,
      contents_nil]
    omega
  | interrupt o o' r taken rest ho hyields hr hc d' hd' =>
    have ho' := content_complete w hc
    subst hd'
    rw [Desk.content_deliver, content_toElement, ho']
    simp only [Desk.content, ho, Option.toList_some, contents_cons, contents_nil, content_begin,
      content_cons w e taken, content_append, content_nil]
    omega
  | await o rest ho hw | hold rest ho hs hw | flush rest ho hs hw htext =>
    simp only [Desk.content, content_append, content_nil]
    omega
  | extend o rest ho hw =>
    simp only [Desk.content, ho, Option.toList_some, contents_cons, contents_nil, content_push,
      content_pushAll, content_nil]
    omega
  | term r o o' taken children rest ho hr hbegin hch hc l l' hl hrun =>
    have hsound : o.Sound := by
      obtain ⟨htaken, -⟩ := forall_mem_append.mp hrest
      exact hbegin ▸ .begin hd.comments (forall_mem_cons.mpr ⟨he, htaken⟩) r k
    -- what a term has taken is regrouped, which may give more numbers, before it is delivered
    have hchildren : content w children + w.unused l'.next =
        content w o.node.children + w.unused l.next :=
      Respects.regroupAll composed_balanced hreg hsound.children hrun
    have hnode : content w [o'.node.toElement] = content w children + w.number o.head.number := by
      rw [content_toElement, content_complete w hc, content_withNode, Node.toElement, content_node]
      rfl
    have hbefore : content w o.node.children = content w (d.comments ++ e :: taken) := by
      rw [hbegin]
      exact congrArg _ (reverse_reverse _)
    rw [Desk.content_deliver, hnode, show o.head.number = k from hbegin ▸ rfl]
    rw [hbefore, hl] at hchildren
    simp only [Desk.content, content_cons w e taken, content_append, content_nil] at hchildren ⊢
    omega
  | begin r taken rest ho hr =>
    simp only [Desk.content, ho, Option.toList_some, Option.toList_none, contents_cons,
      contents_nil, content_begin, content_cons w e taken, content_append, content_nil]
    omega
  | finish o o' below taken rest ho hs hc =>
    have ho' := content_complete w hc
    rw [Desk.content_pop w d ((attached_complete hc).trans (hd.top hs).2), ho']
    simp only [Desk.content, hs, contents_cons, content_setClosing, content_pushAll,
      content_cons w e taken, content_append]
    omega
  | restart o o' below taken rest ho hh hs hnests hc d' hd' =>
    have ho' := content_complete w hc
    -- the comments that waited are in the new block by the time the old one is taken off
    have hpop := Desk.content_pop w { d with comments := [] }
      ((attached_complete hc).trans (hd.top hs).2) below
    rw [← hd', ho'] at hpop
    rw [Desk.content_cons]
    simp only [Desk.content, hs, contents_cons, content_withHeader, content_begin,
      content_cons w e taken, content_append, content_nil] at hpop ⊢
    omega
  | «open» o below taken rest ho hh hs =>
    simp only [Desk.content, hs, contents_cons, content_pushAll, content_mapSections,
      content_cons w e taken, content_append, content_nil]
    omega
  | head o below rest ho hh hs =>
    simp only [Desk.content, hs, contents_cons, content_withHeader, content_push,
      content_mapSections, content_nil]
    omega
  | enter r taken rest out inHeader d' ho hr hent =>
    have hd₀ : Desk.Sound { d with comments := [], inHeader } :=
      ⟨forall_mem_nil _, hd.statement, hd.stack⟩
    rw [Desk.content_enter w hd₀ hent, content_blockFor]
    simp only [Desk.content, content_cons w e taken, content_append, content_nil]
    omega
  | place o below rest ho hs =>
    simp only [Desk.content, hs, contents_cons, content_push, content_nil]
    omega
  | pass rest ho hs hw htext => rw [Nat.add_comm (Element.content w [e])]

/-- A run of moves takes what comes to the desk and to what is handed on. -/
theorem Taking.content (h : Taking index regroup l d es out d' l') (hd : d.Sound)
    (hes : ∀ e ∈ es, e.Sound) :
    content w out + d'.content w + w.unused l'.next =
      d.content w + content w es + w.unused l.next := by
  induction h with
  | done => rw [content_nil, Nat.zero_add, Nat.add_zero]
  | @step _ _ _ _ d d₁ d' e e' rest rest₁ new out he hm _ ih =>
    obtain ⟨hhead, hrest⟩ := forall_mem_cons.mp hes
    have hsound := hreg.sound he.rebuilt hhead
    obtain ⟨-, hd₁, hrest₁⟩ := hm.everywhere hreg.sound hd hsound hrest
    have hnode : Element.content w [e'] + _ = _ := hreg.related he hhead
    have hmove := hm.content hreg hd hsound hrest
    have hlater := ih hd₁ hrest₁
    rw [content_append, content_cons w e rest]
    omega

omit hreg in
theorem Completed.content {n : Node} (h : Completed o n) :
    content w [n.toElement] = o.content w := by
  obtain ⟨o', hc, rfl⟩ := h
  rw [content_toElement, content_complete w hc]

/-- At the end everything that is on the desk is handed on. -/
theorem Closing.content (h : Closing regroup k d out k') (hd : d.Sound) :
    content w out + w.unused k' = d.content w + w.unused k := by
  obtain ⟨statement, blocks, hst, hbl, rfl⟩ := h
  have hstatement : Element.content w statement = contents w d.statement.toList := by
    cases hs : d.statement with
    | none =>
      rw [hs] at hst
      obtain rfl := hst
      rfl
    | some =>
      rw [hs] at hst
      obtain ⟨n, hn, rfl⟩ := hst
      rw [hn.content, Option.toList_some, contents_cons, contents_nil, Nat.add_zero]
  -- of the blocks the outermost one is left, and it is regrouped
  have hblocks : Element.content w blocks + w.unused k' = contents w d.stack + w.unused k := by
    cases hl : (Desk.attachAll d.stack).getLast? with
    | none =>
      rw [hl] at hbl
      obtain ⟨rfl, rfl⟩ := hbl
      rw [Desk.eq_nil_of_getLast?_attachAll hl]
      rfl
    | some =>
      rw [hl] at hbl
      obtain ⟨n, e', l, l', hn, he', rfl, rfl, rfl⟩ := hbl
      obtain ⟨top, below, hs, rfl⟩ := hd.getLast?_attachAll hl
      have hnode : Element.content w [e'] + _ = _ :=
        hreg.related he' (hn.everywhere (hd.outermost hs))
      rw [hnode, hn.content, content_outermost, hs, contents_cons]
  simp only [Desk.content, content_append]
  omega

/-- **A stage hands on all that it is given.** -/
theorem GroupedFrom.content (h : GroupedFrom index regroup l d es out k) (hd : d.Sound)
    (hes : ∀ e ∈ es, e.Sound) :
    content w out + w.unused k = d.content w + content w es + w.unused l.next := by
  obtain ⟨d', taken, closing, l', ht, hc, rfl⟩ := h
  obtain ⟨-, hd'⟩ := ht.everywhere hreg.sound hd hes
  have htaken := ht.content hreg hd hes
  have hclosing := hc.content hreg hd'
  rw [content_append]
  omega

theorem GroupedFrom.balanced (h : GroupedFrom index regroup l {} es out k)
    (hes : ∀ e ∈ es, e.Sound) : Balanced w l.next es out k := by
  have hall := h.content hreg .empty hes
  have hempty : Desk.content w {} = 0 := rfl
  unfold Balanced
  omega

end Stages

/-- **Regrouping keeps all that it is given.** -/
theorem balanced_regroup (scope : Scope) (depth : Nat) (way : List NodeKind) :
    Respects (Balanced w) (Stage.regroup scope [] depth way) :=
  composed_balanced.respects (fun _ hreg hes h => h.balanced hreg hes) depth way

end Grouping

/-! ### The whole parse -/

open Grouping

/-- Whatever the stages do from empty desks, without a fault at the end nothing is lost. -/
theorem balanced_of_runStages {ledger : Ledger} {input : List Element} {broken : Option Fault}
    (hdesks : ∀ job ∈ jobs, job.desk = {}) (hinput : ∀ e ∈ input, e.Sound)
    (h : (readingOf (runStages [] depth jobs ledger input broken) input).fault = none) :
    ∃ next, Balanced w ledger.next input
      (readingOf (runStages [] depth jobs ledger input broken) input).elements next := by
  induction jobs generalizing ledger input broken with
  | nil => exact ⟨_, composed_balanced.refl _ _⟩
  | cons job jobs ih =>
    obtain ⟨hdesk, hrest⟩ := forall_mem_cons.mp hdesks
    obtain ⟨done, hdone⟩ : ∃ done : StageDone, done = _ := ⟨_, rfl⟩
    obtain ⟨hfault, -, hreading⟩ := done_of_runStages hdone h
    rw [hreading] at h ⊢
    have hreg := balanced_regroup (w := w) job.scope depth []
    have hg : GroupedFrom job.scope.top (Stage.regroup job.scope [] depth []) ledger {} input
        done.outcome.out done.outcome.bench.ledger.next := by
      subst hdone
      exact hdesk ▸ (StageJob.grouped_of_runOn rfl hfault).1
    obtain ⟨next, hnext⟩ :=
      ih hrest (Grouped.everywhere hreg.sound .empty ⟨_, _, hg⟩ hinput) h
    exact ⟨next, hnext.trans (hg.balanced hreg hinput)⟩

/-- Counting one by one. -/
theorem sum_map_eq_count {α : Type} [BEq α] [LawfulBEq α] (a : α) (as : List α) :
    (as.map fun b => if b == a then 1 else 0).sum = as.count a := by
  induction as with
  | nil => rfl
  | cons b as ih => rw [map_cons, sum_cons, ih, count_cons, Nat.add_comm]

theorem sum_map_zero {α : Type} (as : List α) : (as.map fun _ => 0).sum = 0 := by
  simp

theorem content_ofTokens (f : Token → Nat) (es : List Element) :
    content (.ofTokens f) es = ((leavesOfList es).map f).sum := by
  rw [← Nat.add_zero (sum _), ← sum_map_zero (allNodes es)]
  rfl

theorem desk_eq_of_mem_map (scopes : List Scope) :
    ∀ job ∈ scopes.map fun scope => ({ scope } : StageJob), job.desk = {} := by
  intro job hjob
  obtain ⟨scope, -, rfl⟩ := mem_map.mp hjob
  rfl

/-- Without a fault at the end the tokens are the same. -/
theorem perm_of_runStages {ledger : Ledger} {tokens : List Token} {broken : Option Fault}
    (hdesks : ∀ job ∈ jobs, job.desk = {}) {r : Reading}
    (hr : r = readingOf (runStages [] depth jobs ledger (tokens.map .token) broken)
      (tokens.map .token))
    (h : r.fault = none) : (leavesOfList r.elements).Perm tokens := by
  subst hr
  refine perm_iff_count.mpr fun t => ?_
  -- a token weighs one if it is this one, and nothing otherwise
  obtain ⟨next, hnext⟩ := balanced_of_runStages (w := .ofTokens fun u => if u == t then 1 else 0)
    hdesks (fun _ => everywhere_of_mem_map) h
  have hall : content _ _ = content _ _ := hnext
  rwa [content_ofTokens, content_ofTokens, sum_map_eq_count, sum_map_eq_count,
    leavesOfList_map_token] at hall

/-- Running the stages again with fewer elements asked for is a run from the same desks. -/
theorem Parser.runAll_eq_runStages (shared : List Nat) (depth : Nat) (ledger : Ledger)
    (input : List Element) (broken : Option Fault) (hdesks : ∀ job ∈ jobs, job.desk = {}) :
    ∃ jobs' : List StageJob, (∀ job ∈ jobs', job.desk = {}) ∧
      runAll shared depth jobs ledger input broken =
        runStages shared depth jobs' ledger input broken := by
  unfold runAll
  dsimp only
  split
  next =>
    refine ⟨_, fun job hj => ?_, rfl⟩
    obtain ⟨⟨job', i⟩, hmem, rfl⟩ := mem_map.mp hj
    exact hdesks job' (fst_mem_of_mem_zipIdx hmem)
  next => exact ⟨jobs, hdesks, rfl⟩

/-- What a new parser reads without a fault has the tokens that it was fed. -/
theorem Parser.perm_of_read_new {scopes : List Scope} {caseSensitive indents : Bool}
    {source : Source} {p : Parser} (hp : p = new scopes caseSensitive indents)
    (h : (p.read source).1.fault = none) :
    (leavesOfList (p.read source).1.elements).Perm ((p.feed source).tokens.map (·.token)) := by
  -- names for what is read and by which stages, lest they be computed
  obtain ⟨tokens, htokens⟩ : ∃ tokens, tokens = (p.feed source).tokens.map (·.token) := ⟨_, rfl⟩
  obtain ⟨jobs, hjobs⟩ : ∃ jobs : List StageJob,
      jobs = (p.scopes.zip p.desks).map fun x => { scope := x.1, desk := x.2 } := ⟨_, rfl⟩
  have hdesks : ∀ job ∈ jobs, job.desk = {} := by
    intro job hj
    rw [hjobs, hp] at hj
    obtain ⟨⟨scope, desk⟩, hmem, rfl⟩ := mem_map.mp hj
    obtain ⟨_, -, hdesk⟩ := mem_map.mp (of_mem_zip hmem).2
    exact hdesk.symm
  have hinput : (p.feed source).tokens.map (fun t => token t.token) = tokens.map .token := by
    rw [htokens, map_map]
    rfl
  -- a new parser shares no node, so that what the stages give is what is read
  have hread : (p.read source).1 =
      readingOf (runAll [] (p.tokenCount + (tokens.map token).length + 1) jobs p.ledger
        (tokens.map .token) (p.feed source).fault) (tokens.map .token) := by
    rw [hjobs, ← hinput, hp]
    rfl
  obtain ⟨jobs', hdesks', hrun⟩ :=
    runAll_eq_runStages [] (p.tokenCount + (tokens.map token).length + 1)
    p.ledger (tokens.map .token) (p.feed source).fault hdesks
  rw [← htokens]
  rw [hrun] at hread
  exact perm_of_runStages hdesks' hread h

/-- **No token is lost, and none is doubled.** Whatever the grammars of a new parser are: if all its
stages come to their end without a fault, the tokens of what it gives are those that it was given,
be it a sequence of tokens or all that it makes of a source. -/
theorem leaves_perm_of_fresh (scopes : List Scope) :
    (∀ tokens, (Scope.parseAll scopes tokens).fault = none →
      (Element.leavesOfList (Scope.parseAll scopes tokens).elements).Perm tokens) ∧
    ∀ (caseSensitive indents : Bool) (source : Source) (p : Parser),
      p = .new scopes caseSensitive indents →
      (p.read source).1.fault = none →
        (Element.leavesOfList (p.read source).1.elements).Perm
          ((p.feed source).tokens.map (·.token)) := by
  refine ⟨fun tokens h => ?_, fun caseSensitive indents source p hp h =>
    Parser.perm_of_read_new hp h⟩
  exact perm_of_runStages (desk_eq_of_mem_map scopes) rfl h

/-- Groups in brackets, and then statements that begin with `x` and do not end. -/
def bracketStages : List Scope :=
  [.everywhere { blocks := { others := [{
      kind := ⟨"Group", .block, []⟩
      opening := some (.word "(")
      closing := some (.word ")") }] } },
    .everywhere { statements := { others := [{
      kind := ⟨"Rest", .statement, []⟩
      opening := some (.word "x")
      closing := some .never }] } }]

/-- A group that is left open, with a comment and another group in it. -/
def openGroup : List (Option Kind × Option String) :=
  [(some .generic, some "("), (some .generic, some "x"), (some .comment, some "*"),
    (some .generic, some "("), (some .generic, some "y"), (some .generic, some ")")]

theorem leaves_perm_of_open_group :
    ((Scope.parseAll bracketStages (openGroup.map fun t => ⟨t.2, t.1, {}, false⟩)).fault = none ∧
      (Element.leavesOfList (Scope.parseAll bracketStages
        (openGroup.map fun t => ⟨t.2, t.1, {}, false⟩)).elements).Perm
        (openGroup.map fun t => ⟨t.2, t.1, {}, false⟩)) ∧
    ((Parser.new bracketStages false true).read (.tokens openGroup)).1.fault = none ∧
      (Element.leavesOfList ((Parser.new bracketStages false true).read
        (.tokens openGroup)).1.elements).Perm
        (((Parser.new bracketStages false true).feed (.tokens openGroup)).tokens.map
          (·.token)) := by
  have hparse : (Scope.parseAll bracketStages
      (openGroup.map fun t => ⟨t.2, t.1, {}, false⟩)).fault = none := by
    decide +kernel
  have hread : ((Parser.new bracketStages false true).read (.tokens openGroup)).1.fault = none := by
    decide +kernel
  exact ⟨⟨hparse, (leaves_perm_of_fresh _).1 _ hparse⟩, hread,
    (leaves_perm_of_fresh _).2 _ _ _ _ rfl hread⟩

/-! ### Numbers of nodes -/

/-- A node weighs one if it has this number, and so does the number until it is given. -/
def Weights.ofNumber (k : Nat) : Weights where
  token _ := 0
  number n := if n == k then 1 else 0
  unused next := if next ≤ k then 1 else 0
  spend next := by
    simp only [beq_iff_eq]
    split <;> split <;> split <;> omega

theorem content_ofNumber (k : Nat) (es : List Element) :
    content (.ofNumber k) es = ((allNodes es).map (·.head.number)).count k := by
  rw [← sum_map_eq_count, map_map]
  change ((leavesOfList es).map fun _ => 0).sum + _ = _
  rw [sum_map_zero, Nat.zero_add]
  rfl

/-- **Every node has a number of its own**, if the tokens of a source pass all stages. -/
theorem nodup_numbers_parseAll {scopes : List Scope} {tokens : List Token}
    (hfault : (Scope.parseAll scopes tokens).fault = none) :
    ((allNodes (Scope.parseAll scopes tokens).elements).map (·.head.number)).Nodup := by
  refine nodup_iff_count.mpr fun k => ?_
  obtain ⟨next, hnext⟩ := balanced_of_runStages (w := .ofNumber k) (desk_eq_of_mem_map scopes)
    (fun _ => everywhere_of_mem_map) hfault
  have hall : content _ _ + _ = content _ _ + _ := hnext
  -- tokens have no numbers, and at the beginning no number has been given, so each weighs one
  have htokens : allNodes (tokens.map .token) = [] :=
    allNodes_of_tokens fun _ => exists_token_of_mem_map
  have hone : (if 0 ≤ k then 1 else 0) = 1 := if_pos (Nat.zero_le k)
  change _ = _ + (if 0 ≤ k then 1 else 0) at hall
  rw [content_ofNumber, content_ofNumber, htokens, hone, map_nil, count_nil, Nat.zero_add] at hall
  exact hall ▸ Nat.le_add_right _ _

end EztScan
