import EztScan.Proofs.Order

/-!
# Regrouping keeps the order

When a stage gets a node from the stage before, it takes out the inner part and groups it anew. The
order of the tokens survives if the inner part is orderly, at all depths: the node is `Neat`.

Two kinds of stages are shown to hand on neat nodes. One that makes statements of plain tokens does
so because a node with tokens only cannot be anything else (`Grouped.flat_of_plain`). One that makes
terms does so because a term has no inner part (`Grouped.neat_of_terms`). From this follows what
regrouping does to a node by the first kind (`restored_of_plain`) and by the second kind
(`restores_of_terms`).
-/

namespace EztScan

open Element List OpenNode

variable {n : Node} {e e' : Element} {cs es out : List Element} {h : Head}

/-! ### The inner part of a node -/

namespace Node

/-- Between as many elements as before stands the new inner part. -/
theorem inner_of_parts (hn : n.head.sections.Fit n.children) {front middle back : List Element}
    (hfront : front.length = n.front.length) (hback : back.length = n.back.length) :
    Node.inner ⟨n.head, front ++ middle ++ back⟩ = middle := by
  have hstart : (n.head.sections.comments + n.head.sections.header + n.head.sections.opening) =
      front.length := by
    rw [hfront]
    exact (n.length_front hn).symm
  have hclosing : n.head.sections.closing = back.length := by
    rw [hback]
    exact (n.length_back hn).symm
  have hend : Node.innerEnd ⟨n.head, front ++ middle ++ back⟩ =
      ((front ++ middle).length : Int) := by
    unfold innerEnd
    rw [hclosing]
    simp only [length_append]
    omega
  have hbegin : Node.innerStart ⟨n.head, front ++ middle ++ back⟩ = (front.length : Int) := hstart
  unfold inner slice
  rw [hend, hbegin, placeOf_of_le (Int.natCast_nonneg _) (by simp only [length_append]; omega),
    placeOf_of_le (Int.natCast_nonneg _) (by simp only [length_append]; omega), Int.toNat_natCast,
    Int.toNat_natCast, take_left, drop_left]

/-- Behind an opening of one element and without a closing, all is inner part. -/
theorem inner_of_opening (hs : n.head.sections = { opening := 1 }) (hc : n.children = e :: es) :
    n.inner = es := by
  have hstart : n.innerStart = 1 := by
    unfold innerStart bodyStart
    rw [hs]
    rfl
  have hend : n.innerEnd = (e :: es).length := by
    unfold innerEnd
    rw [hs, hc]
    exact Int.sub_zero _
  unfold inner slice
  rw [hstart, hend, hc, placeOf_of_le (Int.natCast_nonneg _) (Int.le_refl _), Int.toNat_natCast,
    take_length, placeOf_of_le (by decide) (by rw [length_cons]; omega)]
  rfl

/-- Without closing, a node that ends with its opening has no inner part. -/
theorem inner_eq_nil (h : n.children.length ≤ n.innerStart) : n.inner = [] := by
  unfold inner slice
  rw [drop_eq_nil_iff]
  have hplace : placeOf n.children.length n.innerStart = n.children.length := by
    unfold placeOf
    rw [if_neg (by omega), Nat.min_eq_right (by omega)]
  rw [hplace]
  exact length_take_le' _ _

end Node

/-! ### Plain and neat elements -/

namespace Element

variable {as bs : List Element}

/-- A token that overtakes nothing. -/
def IsPlain (e : Element) : Prop :=
  (∃ t, e = .token t) ∧ e.overtakes = false

/-- At all depths, tokens overtake nothing and inner parts are orderly. -/
inductive Neat : Element → Prop
  | token {t : Token} (h : (Element.token t).overtakes = false) : Neat (.token t)
  | node {h : Head} {cs : List Element} (inner : Orderly false (Node.inner ⟨h, cs⟩))
      (children : ∀ e ∈ cs, e.Neat) :
    Neat (.node h cs)

theorem IsPlain.neat (h : e.IsPlain) : e.Neat := by
  obtain ⟨⟨t, rfl⟩, ht⟩ := h
  exact .token ht

theorem isPlain_of_not_isCode (h : e.isCode = false) : e.IsPlain := by
  refine ⟨?_, overtakes_of_not_isCode h⟩
  cases e with
  | token t => exact ⟨t, rfl⟩
  | node => exact nomatch h

/-- A node with plain tokens only is neat. -/
theorem neat_of_plain (hcs : ∀ e ∈ cs, e.IsPlain) : Neat (.node h cs) := by
  refine .node (orderly_of_forall fun e he => (hcs e (Node.inner_subset _ he)).2) fun e he =>
    (hcs e he).neat

/-- Plain tokens, and at least one. -/
def ArePlain (es : List Element) : Prop :=
  es ≠ [] ∧ ∀ e ∈ es, e.IsPlain

theorem ArePlain.append (has : ArePlain as) (hbs : ∀ e ∈ bs, e.IsPlain) : ArePlain (as ++ bs) :=
  ⟨append_ne_nil_of_left_ne_nil has.1 bs, forall_mem_append.mpr ⟨has.2, hbs⟩⟩

theorem ArePlain.after (hbs : ArePlain bs) (has : ∀ e ∈ as, e.IsPlain) : ArePlain (as ++ bs) :=
  ⟨append_ne_nil_of_right_ne_nil as hbs.1, forall_mem_append.mpr ⟨has, hbs.2⟩⟩

/-- A plain token, or a node that holds plain tokens only and whose kind has the property `K`. -/
def IsFlat (K : NodeKind → Prop) (e : Element) : Prop :=
  e.IsPlain ∨ ∃ n : Node, e = n.toElement ∧ K n.head.kind ∧ ArePlain n.children

theorem IsFlat.neat {K : NodeKind → Prop} (h : e.IsFlat K) : e.Neat := by
  rcases h with h | ⟨n, rfl, -, hchildren⟩
  · exact h.neat
  · exact neat_of_plain hchildren.2

theorem Neat.children : Neat (.node h cs) → ∀ e ∈ cs, e.Neat
  | .node _ children => children

theorem Neat.inner : Neat (.node h cs) → Orderly false (Node.inner ⟨h, cs⟩)
  | .node inner _ => inner

end Element

namespace Grouping

variable {index : Index} {regroup : Node → Work Ledger Node}
variable {o o' : OpenNode} {fault : Option Fault} {d d' : Desk} {rest rest' : List Element}
  {depth : Nat} {way : List NodeKind}

/-! ### Statements of plain tokens -/

theorem rebuildsInOrder_plain : RebuildsInOrder regroup IsPlain := by
  rintro e e' h ⟨⟨t, rfl⟩, ht⟩
  obtain rfl := h
  exact ⟨⟨⟨t, rfl⟩, ht⟩, rfl⟩

/-- The open statement holds plain tokens only, and its kind has the property `K`. -/
def PlainStatement (K : NodeKind → Prop) (d : Desk) : Prop :=
  ∀ o ∈ d.statement, K o.node.head.kind ∧ ArePlain o.node.children

theorem kind_complete (h : o.complete = (o', fault)) : o'.node.head.kind = o.node.head.kind := by
  obtain ⟨operands, rfl⟩ := eq_of_complete h
  rfl

variable {K : NodeKind → Prop}

/-- What one move hands on is flat, and the open statement stays plain. -/
theorem Move.flat_of_plain (hblocks : index.blocks = {}) (hterms : index.terms = {})
    (hkinds : ∀ {e r}, r ∈ index.statements.rulesFor e → K r.kind)
    (h : Move index regroup k d e rest out d' rest' k') (hd : d.Aligned (e :: rest))
    (hplain : PlainStatement K d) (he : e.IsPlain) (hrest : ∀ x ∈ rest, x.IsPlain) :
    (∀ x ∈ out, x.IsFlat K) ∧ PlainStatement K d' := by
  have hcomments : ∀ x ∈ d.comments, x.IsPlain :=
    fun x hx => isPlain_of_not_isCode (hd.comments x hx)
  have htaken : ∀ {taken rest' : List Element}, rest = taken ++ rest' → ArePlain (e :: taken) :=
    fun hl => ⟨cons_ne_nil _ _, forall_mem_cons.mpr ⟨he, (forall_mem_append.mp (hl ▸ hrest)).1⟩⟩
  -- without a statement there is nothing to show, and with one it is shown of its kind and children
  have hnone : ∀ {d : Desk}, d.statement = none → PlainStatement K d :=
    fun h o ho => absurd (h ▸ ho) (Option.not_mem_none o)
  have hsome : ∀ {d : Desk} {o : OpenNode}, d.statement = some o → K o.node.head.kind →
      ArePlain o.node.children → PlainStatement K d :=
    fun h hkind hplain o ho => Option.some.inj (h.symm.trans ho) ▸ ⟨hkind, hplain⟩
  -- a statement is handed on as a node with plain tokens only
  have hdeliver : ∀ {d : Desk} {o o' : OpenNode} {fault : Option Fault},
      o.complete = (o', fault) → d.stack = [] →
      K o.node.head.kind → ArePlain o.node.children → PlainStatement K d →
      (∀ x ∈ (d.deliver o'.node).1, x.IsFlat K) ∧ PlainStatement K (d.deliver o'.node).2 := by
    intro d o o' fault hc hs hkind hchildren hplain
    rw [← kind_complete hc] at hkind
    rw [← children_complete hc] at hchildren
    rw [Desk.deliver_of_stack_nil hs]
    exact ⟨fun x hx => .inr ⟨o'.node, mem_singleton.mp hx, hkind, hchildren⟩, hplain⟩
  cases h with
  | close o o' taken rest ho htakes hc =>
    obtain ⟨hkind, hchildren⟩ := hplain o ho
    refine hdeliver hc hd.stack hkind ?_ (hnone rfl)
    rw [node_pushAll, children_setClosing, node_pushAll]
    exact (hchildren.append hcomments).append (htaken rfl).2
  | leave o o' rest ho htakes hc =>
    obtain ⟨hkind, hchildren⟩ := hplain o ho
    exact hdeliver hc hd.stack hkind hchildren (hnone rfl)
  | interrupt o o' r taken rest ho hyields hr hc d' hd' =>
    obtain ⟨hkind, hchildren⟩ := hplain o ho
    subst hd'
    refine hdeliver hc hd.stack hkind hchildren (hsome rfl (hkinds hr.mem) ?_)
    rw [children_begin]
    exact (htaken rfl).after hcomments
  | await => exact ⟨forall_mem_nil _, hplain⟩
  | extend o rest ho =>
    obtain ⟨hkind, hchildren⟩ := hplain o ho
    refine ⟨forall_mem_nil _, hsome rfl hkind ?_⟩
    rw [node_push, node_pushAll]
    exact (hchildren.append hcomments).append fun x hx => mem_singleton.mp hx ▸ he
  | term r o o' taken children rest ho hr => exact absurd hr (not_firstFit_of_empty hterms)
  | begin r taken rest ho hr =>
    refine ⟨forall_mem_nil _, hsome rfl (hkinds hr.mem) ?_⟩
    rw [children_begin]
    exact (htaken rfl).after hcomments
  | finish | restart | «open» | head | place => cases hd.stack.symm.trans ‹d.stack = _ :: _›
  | enter r taken rest out inHeader d' ho hr => exact absurd hr (not_firstFit_of_empty hblocks)
  | hold => exact ⟨forall_mem_nil _, hplain⟩
  | flush =>
    refine ⟨forall_mem_append.mpr ⟨fun x hx => .inl (hcomments x hx), ?_⟩, hplain⟩
    exact fun x hx => mem_singleton.mp hx ▸ .inl he
  | pass => exact ⟨fun x hx => mem_singleton.mp hx ▸ .inl he, hplain⟩

/-- **A stage that makes statements of plain tokens hands on nothing else**: plain tokens, and nodes
of such with the kinds of its rules. -/
theorem Grouped.flat_of_plain (hblocks : index.blocks = {}) (hterms : index.terms = {})
    (hkinds : ∀ {e r}, r ∈ index.statements.rulesFor e → K r.kind)
    (h : Grouped index regroup {} es out) (hes : ∀ e ∈ es, e.IsPlain) : ∀ x ∈ out, x.IsFlat K := by
  obtain ⟨_, _, d', taken, closing, _, ht, hclosing, rfl⟩ := h
  have hd : Desk.Aligned {} es := aligned_empty (orderly_of_forall fun e he => (hes e he).2)
  have hempty : PlainStatement K {} := fun o ho => absurd ho (Option.not_mem_none o)
  -- what is kept on the way is that the open statement holds plain tokens
  obtain ⟨htaken, hplain⟩ :=
    ht.invariant hblocks rebuildsInOrder_plain (Move.flat_of_plain hblocks hterms hkinds)
      hd hempty hes
  have hd' := (ht.aligned hblocks rebuildsInOrder_plain hd hes).aligned
  have hcomments : ∀ x ∈ d'.comments, x.IsFlat K :=
    fun x hx => .inl (isPlain_of_not_isCode (hd'.comments x hx))
  obtain ⟨-, rfl⟩ | ⟨o, o', hs, hc, rfl⟩ := hclosing.of_stack_nil hd'.stack
  · exact forall_mem_append.mpr ⟨htaken, hcomments⟩
  · obtain ⟨hkind, hchildren⟩ := hplain o hs
    refine forall_mem_append.mpr ⟨htaken, forall_mem_append.mpr ⟨hcomments, fun x hx => ?_⟩⟩
    refine .inr ⟨o'.node, mem_singleton.mp hx, ?_, ?_⟩
    · rw [kind_complete hc]
      exact hkind
    · rw [children_complete hc]
      exact hchildren

/-! ### Terms of neat elements -/

/-- Sound and neat. -/
def Ready (e : Element) : Prop :=
  e.Sound ∧ e.Neat

theorem sections_complete (h : o.complete = (o', fault)) : o'.head.sections = o.head.sections := by
  obtain ⟨operands, rfl⟩ := eq_of_complete h
  rfl

/-- What one move hands on is neat: the opening of a term is all of it. -/
theorem Move.neat_of_terms (hblocks : index.blocks = {}) (hstatements : index.statements = {})
    (hreg : RebuildsInOrder regroup Ready) (h : Move index regroup k d e rest out d' rest' k')
    (hd : d.Aligned (e :: rest)) (hnone : d.statement = none) (he : Ready e)
    (hrest : ∀ x ∈ rest, Ready x) : (∀ x ∈ out, x.Neat) ∧ d'.statement = none := by
  refine ⟨?_, h.statement_eq_none hstatements hnone⟩
  have hcomments : ∀ x ∈ d.comments, x.Neat :=
    fun x hx => (isPlain_of_not_isCode (hd.comments x hx)).neat
  cases h with
  | close o o' taken rest ho | leave o o' rest ho | interrupt o o' r taken rest ho | await o rest ho
  | extend o rest ho => exact nomatch hnone.symm.trans ho
  | term r o o' taken children rest ho hr hbegin hch hc =>
    have hs : Desk.stack { d with comments := [] } = [] := hd.stack
    rw [Desk.deliver_of_stack_nil hs]
    have hchildren : o'.node.children = children := by
      rw [children_complete hc, node_withNode]
    have hsections : o'.head.sections =
        Sections.open (e :: taken).length { comments := d.comments.length } := by
      rw [sections_complete hc, hbegin]
      rfl
    rw [hbegin, children_begin] at hch
    -- the opening of a term goes to its end
    have hinner : o'.node.inner = [] := by
      refine Node.inner_eq_nil ?_
      have hlength : children.length = d.comments.length + (e :: taken).length := by
        rw [← hch.length_eq, length_append]
      change (o'.node.children.length : Int) ≤
        o'.head.sections.comments + o'.head.sections.header + o'.head.sections.opening
      rw [hchildren, hlength, hsections]
      dsimp only [Sections.open]
      omega
    have hneat : ∀ x ∈ children, x.Neat := by
      have hready : ∀ x ∈ d.comments ++ e :: taken, Ready x := by
        refine forall_mem_append.mpr ⟨?_, forall_mem_cons.mpr ⟨he, (forall_mem_append.mp hrest).1⟩⟩
        exact fun x hx => ⟨Element.everywhere_of_not_isCode (hd.comments x hx), hcomments x hx⟩
      have hready' :=
        forall_of_forall₂ (P := Ready) (Q := Ready) (fun h he => (hreg h he).1) hch hready
      exact fun x hx => (hready' x hx).2
    have hnode : o'.node.toElement.Neat := .node (hinner ▸ trivial) (hchildren ▸ hneat)
    exact fun x hx => mem_singleton.mp hx ▸ hnode
  | begin r taken rest ho hr => exact absurd hr (not_firstFit_of_empty hstatements)
  | finish | restart | «open» | head | place => cases hd.stack.symm.trans ‹d.stack = _ :: _›
  | enter r taken rest out inHeader d' ho hr => exact absurd hr (not_firstFit_of_empty hblocks)
  | hold => exact forall_mem_nil _
  | flush =>
    exact forall_mem_append.mpr ⟨hcomments, fun x hx => mem_singleton.mp hx ▸ he.2⟩
  | pass => exact fun x hx => mem_singleton.mp hx ▸ he.2

/-- **A stage that makes terms hands on neat elements.** -/
theorem Grouped.neat_of_terms (hblocks : index.blocks = {}) (hstatements : index.statements = {})
    (hreg : RebuildsInOrder regroup Ready) (h : Grouped index regroup {} es out)
    (horderly : Orderly false es) (hes : ∀ e ∈ es, Ready e) : ∀ x ∈ out, x.Neat := by
  obtain ⟨_, _, d', taken, closing, _, ht, hclosing, rfl⟩ := h
  have hd : Desk.Aligned {} es := aligned_empty horderly
  obtain ⟨htaken, hnone⟩ := ht.invariant (I := fun d => d.statement = none) hblocks hreg
    (Move.neat_of_terms hblocks hstatements hreg) hd rfl hes
  have hd' := (ht.aligned hblocks hreg hd hes).aligned
  obtain ⟨-, rfl⟩ | ⟨o, _, hs, -⟩ := hclosing.of_stack_nil hd'.stack
  · refine forall_mem_append.mpr ⟨htaken, fun x hx => ?_⟩
    exact (isPlain_of_not_isCode (hd'.comments x hx)).neat
  · exact nomatch hnone.symm.trans hs

/-! ### Regrouping -/

/-- The element is the node with other children: it is neat, and has the same tokens in the same
order. -/
def Restored (n : Node) (e : Element) : Prop :=
  ∃ cs, e = .node n.head cs ∧ e.Neat ∧ leavesOfList cs = leavesOfList n.children

/-- A new inner part between other elements, as many as before and with the same tokens. -/
theorem Restored.of_parts (hn : n.head.sections.Fit n.children) {front middle back : List Element}
    (hfront : front.length = n.front.length) (hback : back.length = n.back.length)
    (horderly : Orderly false middle) (hneat : ∀ x ∈ front ++ middle ++ back, x.Neat)
    (hleaves : leavesOfList (front ++ middle ++ back) =
      leavesOfList (n.front ++ n.inner ++ n.back)) :
    Restored n (.node n.head (front ++ middle ++ back)) := by
  refine ⟨_, rfl, .node ?_ hneat, ?_⟩
  · rw [Node.inner_of_parts hn hfront hback]
    exact horderly
  · rw [hleaves, n.front_append_inner_append_back hn]

/-- **Regrouping a node of plain tokens by statements** restores it, if no comment waits at the end
of its inner part. -/
theorem restored_of_plain (hblocks : index.blocks = {}) (hterms : index.terms = {})
    (hr : Rebuilt (Stage.regroup (.everywhere index) [] depth way) n.toElement e')
    (hfit : n.head.sections.Fit n.children) (hplain : ∀ e ∈ n.children, e.IsPlain)
    (hwaits : waits false n.inner = false) : Restored n e' := by
  refine (Stage.rebuilt_induction
    (R := fun _ e e' => (e.IsPlain → e' = e) ∧
      ∀ n : Node, e = n.toElement → n.head.sections.Fit n.children →
        (∀ e ∈ n.children, e.IsPlain) → waits false n.inner = false → Restored n e')
    ?_ ?_ hr).2 n rfl hfit hplain hwaits
  · intro way e
    refine ⟨fun _ => rfl, ?_⟩
    rintro n rfl - hplain -
    exact ⟨n.children, rfl, Element.neat_of_plain hplain, rfl⟩
  · intro depth way hd cs middle front back hsub hmiddle hfront hback
    refine ⟨fun ⟨⟨_, h⟩, _⟩ => (nomatch h), ?_⟩
    intro n hn hfit hplain hwaits
    obtain ⟨rfl, rfl⟩ := Element.node.inj hn
    obtain ⟨index', hindex, hgrouped⟩ := hmiddle
    obtain rfl : index = index' := Except.ok.inj hindex
    rw [← n.front_append_inner_append_back hfit, forall_mem_append, forall_mem_append] at hplain
    obtain ⟨⟨hf, hi⟩, hb⟩ := hplain
    -- the tokens around the inner part are not touched
    obtain rfl := eq_of_forall₂ And.left hfront hf
    obtain rfl := eq_of_forall₂ And.left hback hb
    obtain ⟨horderly, hleaves⟩ := hgrouped.aligned hblocks rebuildsInOrder_plain
      (orderly_of_forall fun e he => (hi e he).2) hi (.inr hwaits)
    have hflat := hgrouped.flat_of_plain (K := fun _ => True) hblocks hterms (fun _ => trivial) hi
    refine .of_parts hfit rfl rfl horderly ?_ ?_
    · rw [forall_mem_append, forall_mem_append]
      exact ⟨⟨fun x hx => (hf x hx).neat, fun x hx => (hflat x hx).neat⟩,
        fun x hx => (hb x hx).neat⟩
    · simp only [leavesOfList_append, hleaves]

/-- What becomes of a token is the token, and what becomes of a ready node is the node restored. -/
structure Restores (e e' : Element) : Prop where
  token : ∀ t, e = .token t → e' = e
  node : ∀ n : Node, e = n.toElement → Ready e → Restored n e'

theorem Restores.neat (h : Restores e e') (he : Ready e) : e'.Neat ∧ e'.leaves = e.leaves := by
  cases e with
  | token t =>
    obtain rfl := h.token t rfl
    exact ⟨he.2, rfl⟩
  | node hd cs =>
    obtain ⟨cs', rfl, hneat, hleaves⟩ := h.node ⟨hd, cs⟩ rfl he
    exact ⟨hneat, by rw [leaves_node, leaves_node, hleaves]⟩

theorem Restores.refl (e : Element) : Restores e e := by
  refine ⟨fun _ _ => rfl, ?_⟩
  rintro n rfl he
  exact ⟨n.children, rfl, he.2, rfl⟩

/-- **Regrouping by terms** restores neat nodes. -/
theorem restores_of_terms (hblocks : index.blocks = {}) (hstatements : index.statements = {})
    (h : Rebuilt (Stage.regroup (.everywhere index) [] depth way) e e') : Restores e e' := by
  refine Stage.rebuilt_induction (R := fun _ => Restores) (fun _ => .refl) ?_ h
  intro depth way hd cs middle front back hsub hmiddle hfront hback
  refine ⟨nofun, ?_⟩
  intro n hn hready
  obtain ⟨rfl, rfl⟩ := Element.node.inj hn
  obtain ⟨index', hindex, hgrouped⟩ := hmiddle
  obtain rfl : index = index' := Except.ok.inj hindex
  have hfit := hready.1.fit
  have hchildren : ∀ e ∈ n.children, Ready e :=
    fun e he => ⟨hready.1.children e he, hready.2.children e he⟩
  rw [← n.front_append_inner_append_back hfit, forall_mem_append, forall_mem_append] at hchildren
  obtain ⟨⟨hf, hi⟩, hb⟩ := hchildren
  have hreg : RebuildsInOrder (Stage.regroup (.everywhere index) [] depth (way ++ [n.head.kind]))
      Ready := by
    intro e e' h he
    obtain ⟨hneat, hleaves⟩ := (hsub h).neat he
    exact ⟨⟨rebuilt_sound _ depth _ h he.1, hneat⟩, hleaves⟩
  obtain ⟨horderly, hleaves⟩ := hgrouped.aligned hblocks hreg hready.2.inner hi (.inl hstatements)
  have hneat := hgrouped.neat_of_terms hblocks hstatements hreg hready.2.inner hi
  -- in front of the inner part and behind it, elements are restored one by one
  have haround : ∀ {es es' : List Element}, Forall₂ Restores es es' → (∀ e ∈ es, Ready e) →
      (∀ e ∈ es', e.Neat) ∧ leavesOfList es' = leavesOfList es := by
    intro es es' h hes
    have hneat : ∀ e ∈ es', e.Neat :=
      forall_of_forall₂ (P := Ready) (Q := Neat) (fun h he => (h.neat he).1) h hes
    exact ⟨hneat, leaves_of_forall₂ h fun e he _ h => (h.neat (hes e he)).2⟩
  obtain ⟨hfneat, hfleaves⟩ := haround hfront hf
  obtain ⟨hbneat, hbleaves⟩ := haround hback hb
  refine .of_parts hfit hfront.length_eq.symm hback.length_eq.symm horderly ?_ ?_
  · rw [forall_mem_append, forall_mem_append]
    exact ⟨⟨hfneat, hneat⟩, hbneat⟩
  · simp only [leavesOfList_append, hfleaves, hleaves, hbleaves]

end Grouping

end EztScan
