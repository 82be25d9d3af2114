import EztScan.Proofs.Stages

/-!
# Sections fit the children

The four lengths that a node keeps say where its sections begin and end. Nothing in a node ties them
to its children: they are set when the node is begun and when it is closed, and the inner part is
replaced later on by stages that know only the lengths. Here is shown that they fit nevertheless. A
node is `Sound` if, at all depths, no section is negative, all of them together are no longer than
the node, and the comments in front are blanks and comments; then front, inner part and back put
together are the children (`Node.front_append_inner_append_back`).

What is needed of the sections for this is the same for other properties: `Sections.Trait` says what
a property has to go along with, from the beginning of a node to its end. Every move keeps a trait
of all that is on the desk (`Move.everywhere`), hence so does a stage (`Grouped.everywhere`), and
regrouping keeps it of nodes (`rebuilt_everywhere`).
-/

namespace EztScan

open List Element

variable {comments cs es out : List Element} {n : Node} {R : Element → Element → Prop} {e : Element}
  {o o' : OpenNode} {lower : List OpenNode} {d : Desk}
variable {front middle back es' : List Element} {P : Element → Prop} {h : Head}
  {fault : Option Fault} {stack : List OpenNode} {d' : Desk}

/-! ### Sections that fit -/

/-- The sections fit these children. -/
structure Sections.Fit (s : Sections) (cs : List Element) : Prop where
  comments : 0 ≤ s.comments
  header : 0 ≤ s.header
  opening : 0 ≤ s.opening
  closing : 0 ≤ s.closing
  /-- No section reaches into the next one. -/
  total : s.comments + s.header + s.opening + s.closing ≤ cs.length
  /-- The comments in front are blanks and comments. -/
  idle : ∀ e ∈ cs.take s.comments.toNat, e.isCode = false

namespace Sections.Fit

variable {s : Sections} {cs : List Element}

/-- The comments in front are the same if other elements come at the end. -/
theorem take_append (hs : s.Fit cs) (es : List Element) :
    (cs ++ es).take s.comments.toNat = cs.take s.comments.toNat := by
  have hle : s.comments.toNat ≤ cs.length := by
    have := hs.total
    have := hs.header
    have := hs.opening
    have := hs.closing
    omega
  rw [take_append_of_le_length hle]

theorem pushAll (hs : s.Fit cs) (es : List Element) : s.Fit (cs ++ es) := by
  refine ⟨hs.comments, hs.header, hs.opening, hs.closing, ?_, ?_⟩
  · have := hs.total
    rw [length_append]
    omega
  · rw [hs.take_append]
    exact hs.idle

theorem close (hs : s.Fit cs) (es : List Element) :
    Sections.Fit { s with closing := es.length } (cs ++ es) := by
  refine ⟨hs.comments, hs.header, hs.opening, Int.natCast_nonneg _, ?_, ?_⟩
  · have := hs.total
    have := hs.closing
    rw [length_append]
    dsimp only
    omega
  · rw [hs.take_append]
    exact hs.idle

theorem «open» (hs : s.Fit cs) (es : List Element) : (s.open es.length).Fit (cs ++ es) := by
  refine ⟨hs.comments, hs.header, Int.natCast_nonneg _, hs.closing, ?_, ?_⟩
  · have := hs.total
    have := hs.opening
    rw [length_append]
    dsimp only [Sections.open]
    omega
  · exact fun e he => hs.idle e (hs.take_append es ▸ he)

theorem head (hs : s.Fit cs) (e : Element) :
    Sections.Fit { s with header := s.header + 1 } (cs ++ [e]) := by
  have hheader := hs.header
  refine ⟨hs.comments, by dsimp only; omega, hs.opening, hs.closing, ?_, ?_⟩
  · have := hs.total
    rw [length_append, length_singleton]
    dsimp only
    omega
  · rw [hs.take_append]
    exact hs.idle

/-- The sections of a node that has just been begun. -/
theorem begin (hc : ∀ e ∈ comments, e.isCode = false) (es : List Element) :
    (Sections.open es.length { comments := comments.length }).Fit (comments ++ es) := by
  have hcomments : Sections.Fit { comments := comments.length } comments := by
    refine ⟨Int.natCast_nonneg _, Int.le_refl 0, Int.le_refl 0, Int.le_refl 0, ?_, ?_⟩
    · dsimp only
      omega
    · exact fun e he => hc e (mem_of_mem_take he)
  exact hcomments.open es

theorem beginHeader (hc : ∀ e ∈ comments, e.isCode = false) (es : List Element) :
    (Sections.head es.length { comments := comments.length }).Fit (comments ++ es) := by
  -- header and opening are counted in the same sum, so that they can change places
  obtain ⟨h₁, h₂, h₃, h₄, ht, hidle⟩ := begin hc es
  refine ⟨h₁, h₃, h₂, h₄, ?_, hidle⟩
  dsimp only [Sections.open, Sections.head] at ht ⊢
  omega

end Sections.Fit

namespace Node

variable {n : Node}

theorem placeOf_of_le {length : Nat} {i : Int} (h₀ : 0 ≤ i) (hi : i ≤ length) :
    placeOf length i = i.toNat := by
  unfold placeOf
  rw [if_neg (Int.not_lt.mpr h₀), Nat.min_eq_left (by omega)]

theorem inner_subset (n : Node) : n.inner ⊆ n.children :=
  Subset.trans (drop_subset _ _) (take_subset _ _)

variable (hn : n.head.sections.Fit n.children)

include hn

theorem placeOf_innerStart : placeOf n.children.length n.innerStart = n.innerStart.toNat := by
  obtain ⟨h₁, h₂, h₃, h₄, ht, -⟩ := hn
  refine placeOf_of_le ?_ ?_
  · unfold innerStart bodyStart
    omega
  · unfold innerStart bodyStart
    omega

theorem placeOf_innerEnd : placeOf n.children.length n.innerEnd = n.innerEnd.toNat := by
  obtain ⟨h₁, h₂, h₃, h₄, ht, -⟩ := hn
  refine placeOf_of_le ?_ ?_
  · unfold innerEnd
    omega
  · unfold innerEnd
    omega

theorem innerStart_le_innerEnd : n.innerStart.toNat ≤ n.innerEnd.toNat := by
  have := hn.total
  unfold innerStart bodyStart innerEnd
  omega

/-- Front, inner part and back put together are the children. -/
theorem front_append_inner_append_back : n.front ++ n.inner ++ n.back = n.children := by
  unfold front inner back slice
  rw [placeOf_innerStart hn, placeOf_innerEnd hn]
  -- the front is also the front of all that comes before the back
  have htake : n.children.take n.innerStart.toNat =
      (n.children.take n.innerEnd.toNat).take n.innerStart.toNat := by
    rw [take_take, Nat.min_eq_left (innerStart_le_innerEnd hn)]
  rw [htake, take_append_drop, take_append_drop]

theorem idle_front : ∀ e ∈ n.front.take n.head.sections.comments.toNat, e.isCode = false := by
  intro e he
  unfold front at he
  rw [take_take, Nat.min_comm, ← take_take] at he
  exact hn.idle e (mem_of_mem_take he)

theorem length_front : (n.front.length : Int) = n.innerStart := by
  obtain ⟨h₁, h₂, h₃, h₄, ht, -⟩ := id hn
  unfold front
  rw [placeOf_innerStart hn, length_take]
  unfold innerStart bodyStart
  omega

theorem length_back : (n.back.length : Int) = n.head.sections.closing := by
  obtain ⟨h₁, h₂, h₃, h₄, ht, -⟩ := id hn
  unfold back
  rw [placeOf_innerEnd hn, length_drop]
  unfold innerEnd
  omega

end Node

/-- Other children fit, too, if those in front and at the back are as many and the comments in front
are the same. -/
theorem Sections.Fit.replace (hn : n.head.sections.Fit n.children)
    (hfront : front.length = n.front.length) (hback : back.length = n.back.length)
    (hsame : front.take n.head.sections.comments.toNat =
      n.front.take n.head.sections.comments.toNat) :
    n.head.sections.Fit (front ++ middle ++ back) := by
  have hf := n.length_front hn
  have hb := n.length_back hn
  obtain ⟨h₁, h₂, h₃, h₄, ht, -⟩ := id hn
  unfold Node.innerStart Node.bodyStart at hf
  refine ⟨h₁, h₂, h₃, h₄, ?_, ?_⟩
  · rw [length_append, length_append]
    omega
  · have hle : n.head.sections.comments.toNat ≤ n.front.length := by omega
    rw [append_assoc, take_append_of_le_length (hfront ▸ hle), hsame]
    exact n.idle_front hn

/-! ### What becomes of elements -/

/-- What holds of each element that something becomes of carries over to all of them. -/
theorem forall_of_forall₂ {Q : Element → Prop} (hR : ∀ {e e'}, R e e' → P e → Q e')
    (h : Forall₂ R es es') (hes : ∀ e ∈ es, P e) : ∀ e ∈ es', Q e := by
  induction h with
  | nil => exact forall_mem_nil _
  | cons hhead _ ih =>
    obtain ⟨he, hrest⟩ := forall_mem_cons.mp hes
    exact forall_mem_cons.mpr ⟨hR hhead he, ih hrest⟩

/-- Elements of a kind that stays what it is stay what they are. -/
theorem eq_of_forall₂ (hR : ∀ {e e'}, R e e' → P e → e' = e) (h : Forall₂ R es es')
    (hes : ∀ e ∈ es, P e) : es' = es := by
  induction h with
  | nil => rfl
  | cons hhead _ ih =>
    obtain ⟨he, hrest⟩ := forall_mem_cons.mp hes
    rw [hR hhead he, ih hrest]

/-- Sections still fit if something has become of each child, but not of blanks and comments. -/
theorem Sections.Fit.of_forall₂ (hR : ∀ {e e'}, R e e' → e.isCode = false → e' = e) {s : Sections}
    {cs' : List Element} (hs : s.Fit cs) (h : Forall₂ R cs cs') : s.Fit cs' := by
  have hidle := eq_of_forall₂ hR (forall₂_take s.comments.toNat h) hs.idle
  refine ⟨hs.comments, hs.header, hs.opening, hs.closing, ?_, ?_⟩
  · rw [← h.length_eq]
    exact hs.total
  · rw [hidle]
    exact hs.idle

/-- Sections still fit if front, inner part and back are replaced, and something has become of each
element in front and at the back, but not of blanks and comments. -/
theorem Sections.Fit.of_parts (hR : ∀ {e e'}, R e e' → e.isCode = false → e' = e)
    (hn : n.head.sections.Fit n.children) (hfront : Forall₂ R n.front front)
    (hback : Forall₂ R n.back back) : n.head.sections.Fit (front ++ middle ++ back) :=
  hn.replace hfront.length_eq.symm hback.length_eq.symm
    (eq_of_forall₂ hR (forall₂_take n.head.sections.comments.toNat hfront) (n.idle_front hn))

/-! ### Traits of sections -/

/-- What can be said about the sections and the children of a node once it has been begun, and stays
true while it goes on. -/
class Sections.Trait (C : Sections → List Element → Prop) : Prop where
  /-- A node begins with the comments that wait, followed by its opening or its header. -/
  begin {comments : List Element} (idle : ∀ e ∈ comments, e.isCode = false) (e : Element)
    (es : List Element) :
    C (Sections.open (e :: es).length { comments := comments.length }) (comments ++ e :: es)
  beginHeader {comments : List Element} (idle : ∀ e ∈ comments, e.isCode = false) (e : Element)
    (es : List Element) :
    C (Sections.head (e :: es).length { comments := comments.length }) (comments ++ e :: es)
  /-- Then come other elements: those of its inner part, and those that the header, the opening or
  the closing consists of. -/
  pushAll {s : Sections} {cs : List Element} (h : C s cs) (es : List Element) : C s (cs ++ es)
  head {s : Sections} {cs : List Element} (h : C s cs) (e : Element) :
    C { s with header := s.header + 1 } (cs ++ [e])
  «open» {s : Sections} {cs : List Element} (h : C s cs) (e : Element) (es : List Element) :
    C (s.open (e :: es).length) (cs ++ e :: es)
  close {s : Sections} {cs : List Element} (h : C s cs) (es : List Element) :
    C { s with closing := es.length } (cs ++ es)
  /-- Something may become of its children, but not of blanks and comments. -/
  renew {R : Element → Element → Prop} {s : Sections} {cs cs' : List Element}
    (hR : ∀ {e e'}, R e e' → e.isCode = false → e' = e) (h : C s cs) (hcs : Forall₂ R cs cs') :
    C s cs'
  /-- And its inner part may be replaced. -/
  replace {R : Element → Element → Prop} {n : Node} {front middle back : List Element}
    (hR : ∀ {e e'}, R e e' → e.isCode = false → e' = e) (h : C n.head.sections n.children)
    (hfront : Forall₂ R n.front front) (hback : Forall₂ R n.back back) :
    C n.head.sections (front ++ middle ++ back)

instance : Sections.Trait Sections.Fit where
  begin idle e es := .begin idle (e :: es)
  beginHeader idle e es := .beginHeader idle (e :: es)
  pushAll := Sections.Fit.pushAll
  head := Sections.Fit.head
  «open» h e es := h.open (e :: es)
  close := Sections.Fit.close
  renew hR h := h.of_forall₂ hR
  replace hR h := h.of_parts hR

/-- The sections of all nodes have the trait. -/
inductive Element.Everywhere (C : Sections → List Element → Prop) : Element → Prop
  | token (t : Token) : Everywhere C (.token t)
  | node {h : Head} {cs : List Element} (fit : C h.sections cs)
      (children : ∀ e ∈ cs, e.Everywhere C) :
    Everywhere C (.node h cs)

/-- The sections of all nodes fit their children. -/
abbrev Element.Sound (e : Element) : Prop :=
  e.Everywhere Sections.Fit

section Traits

variable {C : Sections → List Element → Prop}

theorem Element.Everywhere.fit : Element.Everywhere C (.node h cs) → C h.sections cs
  | .node fit _ => fit

theorem Element.Everywhere.children : Element.Everywhere C (.node h cs) → ∀ e ∈ cs, e.Everywhere C
  | .node _ children => children

theorem Element.exists_token_of_mem_map {ts : List Token} (h : e ∈ ts.map .token) :
    ∃ t, e = .token t := by
  obtain ⟨t, -, rfl⟩ := List.mem_map.mp h
  exact ⟨t, rfl⟩

theorem Element.everywhere_of_mem_map {ts : List Token} (h : e ∈ ts.map .token) :
    e.Everywhere C := by
  obtain ⟨t, rfl⟩ := Element.exists_token_of_mem_map h
  exact .token t

theorem Element.everywhere_of_not_isCode (h : e.isCode = false) : e.Everywhere C := by
  cases e with
  | token t => exact .token t
  | node => exact nomatch h

/-- Only blanks and comments wait. -/
theorem Grouping.not_isCode_of_awaitsWith (h : awaitsWith comments e = true) :
    e.isCode = false := by
  unfold awaitsWith at h
  cases e with
  | token t =>
    unfold isComment isBlank at h
    unfold isCode Token.isCode
    cases hb : t.isBlank <;> cases hc : t.isComment <;> simp_all
  | node => exact nomatch h

/-! ### Open nodes -/

theorem OpenNode.eq_of_complete (h : o.complete = (o', fault)) :
    ∃ operands, o' = o.withNode (o.node.withOperands operands) := by
  obtain ⟨operands, hc⟩ := o.complete_eq
  rw [h] at hc
  exact ⟨operands, hc⟩

/-- An open node has the trait everywhere if the node has, as far as it goes. -/
def OpenNode.Everywhere (C : Sections → List Element → Prop) (o : OpenNode) : Prop :=
  o.node.toElement.Everywhere C

/-- An open node is sound if the node is, as far as it goes. -/
abbrev OpenNode.Sound (o : OpenNode) : Prop :=
  o.Everywhere Sections.Fit

namespace OpenNode.Everywhere

/-- Nothing but sections and children counts. -/
theorem congr (ho : o.Everywhere C) (hs : o'.head.sections = o.head.sections)
    (hm : o'.made = o.made) : o'.Everywhere C := by
  unfold OpenNode.Everywhere node Node.toElement at ho ⊢
  rw [hm]
  exact .node (hs ▸ ho.fit) ho.children

/-- A complete node has the sections and the children that it had. -/
theorem complete (ho : o.Everywhere C) (hc : o.complete = (o', fault)) : o'.Everywhere C := by
  obtain ⟨operands, rfl⟩ := eq_of_complete hc
  exact ho.congr rfl (reverse_reverse _)

/-- A node that begins with comments, followed by its opening or its header. -/
theorem ofComments (hc : ∀ e ∈ comments, e.isCode = false) (hes : ∀ e ∈ es, e.Everywhere C)
    {sections : Nat → Sections → Sections}
    (hfit : C (sections es.length { comments := comments.length }) (comments ++ es))
    (r : Rule) (number : Nat) : (OpenNode.begin r number sections comments es).Everywhere C := by
  unfold OpenNode.Everywhere OpenNode.begin node
  rw [reverse_reverse]
  exact .node hfit (forall_mem_append.mpr ⟨fun e he => everywhere_of_not_isCode (hc e he), hes⟩)

variable [Sections.Trait C] {o : OpenNode}

theorem pushAll (ho : o.Everywhere C) (hes : ∀ e ∈ es, e.Everywhere C) :
    (o.pushAll es).Everywhere C := by
  unfold OpenNode.Everywhere at ho ⊢
  rw [node_pushAll]
  exact .node (Sections.Trait.pushAll ho.fit es) (forall_mem_append.mpr ⟨ho.children, hes⟩)

theorem push (ho : o.Everywhere C) (he : e.Everywhere C) : (o.push e).Everywhere C :=
  ho.pushAll fun _ hx => mem_singleton.mp hx ▸ he

/-- The elements that end a node are its closing. -/
theorem close (ho : o.Everywhere C) (hes : ∀ e ∈ es, e.Everywhere C) :
    ((o.setClosing es.length).pushAll es).Everywhere C := by
  have hall := ho.pushAll hes
  unfold OpenNode.Everywhere at ho hall ⊢
  rw [node_pushAll] at hall ⊢
  exact .node (Sections.Trait.close ho.fit es) hall.children

theorem «open» (ho : o.Everywhere C) (hes : ∀ x ∈ es, x.Everywhere C)
    (hfit : C (o.head.sections.open es.length) (o.node.children ++ es)) :
    ((o.mapSections (.open es.length)).pushAll es).Everywhere C := by
  have hall := ho.pushAll hes
  unfold OpenNode.Everywhere at hall ⊢
  rw [node_pushAll] at hall ⊢
  exact .node hfit hall.children

theorem head (ho : o.Everywhere C) (he : e.Everywhere C) (items : List HeaderItem) :
    (((o.mapSections fun s => { s with header := s.header + 1 }).push e).withHeader
      items).Everywhere C := by
  refine congr (o := (o.mapSections fun s => { s with header := s.header + 1 }).push e) ?_ rfl rfl
  have hall := ho.push he
  unfold OpenNode.Everywhere at ho hall ⊢
  rw [node_push] at hall ⊢
  exact .node (Sections.Trait.head ho.fit e) hall.children

/-- Something has become of each of the children. -/
theorem renew (hR : ∀ {e e'}, R e e' → e.isCode = false → e' = e) (ho : o.Everywhere C)
    {children : List Element} (hch : Forall₂ R o.node.children children)
    (hchildren : ∀ e ∈ children, e.Everywhere C) :
    (o.withNode { o.node with children }).Everywhere C := by
  unfold OpenNode.Everywhere
  rw [node_withNode]
  exact .node (Sections.Trait.renew hR ho.fit hch) hchildren

section Begin

variable {comments es : List Element} {e : Element} (hc : ∀ e ∈ comments, e.isCode = false)
  (hes : ∀ x ∈ e :: es, x.Everywhere C) (r : Rule) (number : Nat)

include hc hes

theorem begin : (OpenNode.begin r number .open comments (e :: es)).Everywhere C :=
  ofComments hc hes (Sections.Trait.begin hc e es) r number

theorem beginHeader (items : List HeaderItem) :
    ((OpenNode.begin r number .head comments (e :: es)).withHeader items).Everywhere C :=
  (ofComments hc hes (Sections.Trait.beginHeader hc e es) r number).congr rfl rfl

theorem blockFor : (Grouping.blockFor r number comments (e :: es)).Everywhere C := by
  unfold Grouping.blockFor
  split
  · exact beginHeader hc hes r number _
  · exact begin hc hes r number

end Begin

end OpenNode.Everywhere

/-! ### Desks -/

/-- The outermost of some open blocks, the first one innermost, after each one is put into the one
around it. -/
def OpenNode.outermost (o : OpenNode) : List OpenNode → OpenNode
  | [] => o
  | parent :: rest => outermost (parent.push o.node.toElement) rest

theorem Desk.getLast?_attachFrom :
    ∀ (rest : List OpenNode) {o : OpenNode}, o.attached = false → (∀ p ∈ rest, p.attached = false) →
      (attachFrom o rest).getLast? = some (o.outermost rest) := by
  intro rest
  induction rest with
  | nil => exact fun _ _ => rfl
  | cons parent rest ih =>
    intro o ho hrest
    -- what is put into a block does not put the block anywhere
    have hparent : (parent.push o.node.toElement).attached = false := hrest parent mem_cons_self
    have hlast := ih hparent fun p hp => hrest p (mem_cons_of_mem parent hp)
    unfold attachFrom OpenNode.outermost
    rw [ho, if_neg Bool.false_ne_true, getLast?_cons, hlast]
    rfl

theorem Desk.eq_nil_of_getLast?_attachAll (h : (attachAll stack).getLast? = none) : stack = [] := by
  cases stack with
  | nil => rfl
  | cons o rest =>
    have hnil : attachFrom o rest = [] := getLast?_eq_none_iff.mp h
    cases rest with
    | nil | cons => exact nomatch hnil

theorem OpenNode.Everywhere.outermost [Sections.Trait C] :
    ∀ {rest : List OpenNode} {o : OpenNode}, o.Everywhere C →
    (∀ p ∈ rest, p.Everywhere C) → (o.outermost rest).Everywhere C := by
  intro rest
  induction rest with
  | nil => exact fun ho _ => ho
  | cons parent rest ih =>
    intro o ho hrest
    have hparent : (parent.push o.node.toElement).Everywhere C :=
      (hrest parent mem_cons_self).push ho
    exact ih hparent fun p hp => hrest p (mem_cons_of_mem parent hp)

/-- Everything on the desk has the trait everywhere, and no open block stands among the children of
the one around it yet. -/
structure Desk.Everywhere (C : Sections → List Element → Prop) (d : Desk) : Prop where
  comments : ∀ e ∈ d.comments, e.isCode = false
  statement : ∀ o ∈ d.statement, o.Everywhere C
  stack : ∀ o ∈ d.stack, o.Everywhere C ∧ o.attached = false

/-- Everything on the desk is sound. -/
abbrev Desk.Sound (d : Desk) : Prop :=
  d.Everywhere Sections.Fit

namespace Desk.Everywhere

variable {d : Desk}

theorem empty : Desk.Everywhere C {} :=
  ⟨forall_mem_nil _, fun o ho => absurd ho (Option.not_mem_none o), forall_mem_nil _⟩

theorem cons (ho : o.Everywhere C) (ha : o.attached = false)
    (hbelow : ∀ o ∈ lower, o.Everywhere C ∧ o.attached = false) :
    ∀ p ∈ o :: lower, p.Everywhere C ∧ p.attached = false :=
  forall_mem_cons.mpr ⟨⟨ho, ha⟩, hbelow⟩

/-- What is handed on for the block that is taken off the stack, if it was the outermost one. -/
theorem popped (ho : o.Everywhere C) (below : List OpenNode) :
    ∀ e ∈ if below.isEmpty then [o.node.toElement] else [], e.Everywhere C := by
  intro e he
  split at he
  · exact mem_singleton.mp he ▸ ho
  · exact nomatch he

variable (hd : d.Everywhere C)

include hd

theorem takeComments : Desk.Everywhere C { d with comments := [] } :=
  ⟨forall_mem_nil _, hd.statement, hd.stack⟩

theorem endStatement : Desk.Everywhere C { d with statement := none } :=
  ⟨hd.comments, fun o ho => absurd ho (Option.not_mem_none o), hd.stack⟩

theorem setStatement (ho : o.Everywhere C) : Desk.Everywhere C { d with statement := some o } :=
  ⟨hd.comments, fun _ h => Option.mem_some_iff.mp h ▸ ho, hd.stack⟩

theorem await (he : e.isCode = false) :
    Desk.Everywhere C { d with comments := d.comments ++ [e] } := by
  refine ⟨fun x hx => ?_, hd.statement, hd.stack⟩
  exact (mem_append.mp hx).elim (hd.comments x) fun h => mem_singleton.mp h ▸ he

theorem top (hs : d.stack = o :: lower) : o.Everywhere C ∧ o.attached = false :=
  hd.stack o (hs ▸ mem_cons_self)

theorem below (hs : d.stack = o :: lower) : ∀ o ∈ lower, o.Everywhere C ∧ o.attached = false :=
  fun o ho => hd.stack o (hs ▸ mem_cons_of_mem _ ho)

theorem setStack (hs : ∀ o ∈ stack, o.Everywhere C ∧ o.attached = false) :
    Desk.Everywhere C { d with stack } :=
  ⟨hd.comments, hd.statement, hs⟩

/-- The outermost of the open blocks, if there are any. -/
theorem getLast?_attachAll (h : (attachAll d.stack).getLast? = some o) :
    ∃ top below, d.stack = top :: below ∧ o = top.outermost below := by
  cases hs : d.stack with
  | nil =>
    rw [hs] at h
    exact nomatch h
  | cons top below =>
    rw [hs] at h
    have hlast := getLast?_attachFrom below (hd.top hs).2 fun p hp => (hd.below hs p hp).2
    exact ⟨top, below, rfl, (Option.some.inj (hlast.symm.trans h)).symm⟩

variable [Sections.Trait C]

theorem deliver (hn : n.toElement.Everywhere C) :
    (∀ e ∈ (d.deliver n).1, e.Everywhere C) ∧ (d.deliver n).2.Everywhere C := by
  unfold Desk.deliver
  split
  next => exact ⟨fun e he => mem_singleton.mp he ▸ hn, hd⟩
  next parent rest hs =>
    have hparent := hd.top hs
    have hadopted : (adopt parent n).toElement.Everywhere C := .node hn.fit hn.children
    exact ⟨forall_mem_nil _, hd.setStack (cons (hparent.1.push hadopted) hparent.2 (hd.below hs))⟩

theorem pop (ho : o.Everywhere C) (hbelow : ∀ o ∈ lower, o.Everywhere C ∧ o.attached = false) :
    (d.pop o lower).Everywhere C := by
  unfold Desk.pop
  split
  next parent outer =>
    obtain ⟨hparent, houter⟩ := forall_mem_cons.mp hbelow
    refine hd.setStack (cons ?_ ?_ houter)
    · split
      · exact hparent.1
      · exact hparent.1.push ho
    · split
      · exact hparent.2
      · exact hparent.2
  next => exact hd.setStack (forall_mem_nil _)

theorem outermost {top : OpenNode} (hs : d.stack = top :: lower) :
    (top.outermost lower).Everywhere C :=
  (hd.top hs).1.outermost fun p hp => (hd.below hs p hp).1

theorem enter (ho : o.Everywhere C) (ha : o.attached = false) (he : d.enter o = some (out, d')) :
    (∀ e ∈ out, e.Everywhere C) ∧ d'.Everywhere C := by
  have hone : ∀ p ∈ [o], p.Everywhere C ∧ p.attached = false := cons ho ha (forall_mem_nil _)
  unfold Desk.enter at he
  split at he
  next =>
    obtain ⟨rfl, rfl⟩ := Prod.mk.inj (Option.some.inj he)
    exact ⟨forall_mem_nil _, hd.setStack hone⟩
  next parent rest hs =>
    split at he
    next =>
      -- a block that nests goes on top
      obtain ⟨rfl, rfl⟩ := Prod.mk.inj (Option.some.inj he)
      exact ⟨forall_mem_nil _, hd.setStack (cons (ho.congr rfl rfl) ha (hs ▸ hd.stack))⟩
    next =>
      -- any other one takes the place of all open blocks, and the outermost of them is handed on
      have hlast := getLast?_attachFrom rest (hd.top hs).2 fun p hp => (hd.below hs p hp).2
      unfold attachAll at he
      rw [hlast] at he
      dsimp only at he
      split at he
      next =>
        obtain ⟨rfl, rfl⟩ := Prod.mk.inj (Option.some.inj he)
        exact ⟨fun e he => mem_singleton.mp he ▸ hd.outermost hs, hd.setStack hone⟩
      next => exact nomatch he

end Desk.Everywhere

namespace Grouping

variable {index : Index} {regroup : Node → Work Ledger Node}

theorem Rebuilt.eq_of_not_isCode {e' : Element} (h : Rebuilt regroup e e') (he : e.isCode = false) :
    e' = e := by
  cases e with
  | token => exact h
  | node => exact nomatch he

theorem attached_blockFor (r : Rule) (number : Nat) (comments es : List Element) :
    (blockFor r number comments es).attached = false := by
  unfold blockFor
  split <;> rfl

/-- Regrouping keeps the trait of elements. -/
def RebuildsEverywhere (C : Sections → List Element → Prop) (regroup : Node → Work Ledger Node) :
    Prop :=
  ∀ {e e'}, Rebuilt regroup e e' → e.Everywhere C → e'.Everywhere C

/-- Regrouping keeps elements sound. -/
abbrev RebuildsSound (regroup : Node → Work Ledger Node) : Prop :=
  RebuildsEverywhere Sections.Fit regroup

/-! ### Moves, runs and stages -/

theorem Completed.everywhere (h : Completed o n) (ho : o.Everywhere C) :
    n.toElement.Everywhere C := by
  obtain ⟨o', hc, rfl⟩ := h
  exact ho.complete hc

variable [Sections.Trait C]

section Moves

variable (hreg : RebuildsEverywhere C regroup) (hd : d.Everywhere C)

include hreg hd

/-- **Every move keeps the trait of everything**: what is handed on, what is on the desk, and what
is to come. -/
theorem Move.everywhere {rest rest' : List Element}
    (h : Move index regroup k d e rest out d' rest' k') (he : e.Everywhere C)
    (hrest : ∀ x ∈ rest, x.Everywhere C) :
    (∀ x ∈ out, x.Everywhere C) ∧ d'.Everywhere C ∧ ∀ x ∈ rest', x.Everywhere C := by
  -- elements that come next have the trait, whether they are taken or not
  have htaken : ∀ {taken rest' : List Element}, rest = taken ++ rest' →
      (∀ x ∈ e :: taken, x.Everywhere C) ∧ ∀ x ∈ rest', x.Everywhere C := by
    intro taken rest' hl
    have hall := forall_mem_append.mp (hl ▸ hrest)
    exact ⟨forall_mem_cons.mpr ⟨he, hall.1⟩, hall.2⟩
  have hcomments : ∀ x ∈ d.comments, x.Everywhere C :=
    fun x hx => everywhere_of_not_isCode (hd.comments x hx)
  cases h with
  | close o o' taken rest ho htakes hc =>
    obtain ⟨htaken, hrest'⟩ := htaken rfl
    have ho' : o'.Everywhere C := (((hd.statement o ho).pushAll hcomments).close htaken).complete hc
    obtain ⟨hout, hd'⟩ := hd.takeComments.endStatement.deliver ho'
    exact ⟨hout, hd', hrest'⟩
  | leave o o' rest ho htakes hc =>
    -- the element has not been taken and comes next again
    have ho' : o'.Everywhere C := (hd.statement o ho).complete hc
    obtain ⟨hout, hd'⟩ := hd.endStatement.deliver ho'
    exact ⟨hout, hd', forall_mem_cons.mpr ⟨he, hrest⟩⟩
  | interrupt o o' r taken rest ho hyields hr hc d' hd' =>
    obtain ⟨htaken, hrest'⟩ := htaken rfl
    have ho' : o'.Everywhere C := (hd.statement o ho).complete hc
    have hnew := hd.takeComments.setStatement (.begin hd.comments htaken r k)
    subst hd'
    obtain ⟨hout, hd'⟩ := hnew.deliver ho'
    exact ⟨hout, hd', hrest'⟩
  | await o rest ho hw => exact ⟨forall_mem_nil _, hd.await (not_isCode_of_awaitsWith hw), hrest⟩
  | extend o rest ho =>
    have ho' := ((hd.statement o ho).pushAll hcomments).push he
    exact ⟨forall_mem_nil _, hd.takeComments.setStatement ho', hrest⟩
  | term r o o' taken children rest ho hr hbegin hch hc =>
    obtain ⟨htaken, hrest'⟩ := htaken rfl
    have hnew : o.Everywhere C := hbegin ▸ .begin hd.comments htaken r k
    -- the children have been regrouped one by one
    have hchildren : ∀ x ∈ children, x.Everywhere C :=
      forall_of_forall₂ (P := Element.Everywhere C) (Q := Element.Everywhere C) hreg hch
        hnew.children
    have hnode := hnew.renew Rebuilt.eq_of_not_isCode hch hchildren
    obtain ⟨hout, hd'⟩ := hd.takeComments.deliver (hnode.complete hc)
    exact ⟨hout, hd', hrest'⟩
  | begin r =>
    obtain ⟨htaken, hrest'⟩ := htaken rfl
    have hnew := hd.takeComments.setStatement (.begin hd.comments htaken r k)
    exact ⟨forall_mem_nil _, hnew, hrest'⟩
  | finish o o' below taken rest ho hs hc =>
    obtain ⟨htaken, hrest'⟩ := htaken rfl
    have ho' : o'.Everywhere C := ((hd.top hs).1.close htaken).complete hc
    exact ⟨Desk.Everywhere.popped ho' below, hd.pop ho' (hd.below hs), hrest'⟩
  | restart o o' below taken rest ho hh hs hnests hc d' hd' =>
    obtain ⟨htaken, hrest'⟩ := htaken rfl
    have ho' : o'.Everywhere C := (hd.top hs).1.complete hc
    have hpopped : d'.Everywhere C := hd' ▸ hd.takeComments.pop ho' (hd.below hs)
    have hnew := OpenNode.Everywhere.beginHeader hd.comments htaken o.rule k
      ((e :: taken).map headerItem)
    exact ⟨Desk.Everywhere.popped ho' below,
      hpopped.setStack (Desk.Everywhere.cons hnew rfl hpopped.stack), hrest'⟩
  | «open» o below taken rest ho hh hs =>
    obtain ⟨htaken, hrest'⟩ := htaken rfl
    obtain ⟨htop, ha⟩ := hd.top hs
    have hstack := Desk.Everywhere.cons (htop.open htaken (Sections.Trait.open htop.fit e taken)) ha
      (hd.below hs)
    exact ⟨forall_mem_nil _, ⟨hd.comments, hd.statement, hstack⟩, hrest'⟩
  | head o below rest ho hh hs =>
    have hstack := Desk.Everywhere.cons ((hd.top hs).1.head he (o.head.header ++ [headerItem e]))
      (hd.top hs).2 (hd.below hs)
    exact ⟨forall_mem_nil _, hd.setStack hstack, hrest⟩
  | enter r taken rest out inHeader d' ho hr hent =>
    obtain ⟨htaken, hrest'⟩ := htaken rfl
    have hnew := OpenNode.Everywhere.blockFor hd.comments htaken r k
    have hd₀ : Desk.Everywhere C { d with comments := [], inHeader } :=
      ⟨forall_mem_nil _, hd.statement, hd.stack⟩
    obtain ⟨hout, hd'⟩ := hd₀.enter hnew (attached_blockFor r k _ _) hent
    exact ⟨hout, hd', hrest'⟩
  | place o below rest ho hs =>
    have hstack := Desk.Everywhere.cons ((hd.top hs).1.push he) (hd.top hs).2 (hd.below hs)
    exact ⟨forall_mem_nil _, hd.setStack hstack, hrest⟩
  | hold rest ho hs hw => exact ⟨forall_mem_nil _, hd.await (not_isCode_of_awaitsWith hw), hrest⟩
  | flush =>
    refine ⟨forall_mem_append.mpr ⟨hcomments, ?_⟩, hd.takeComments, hrest⟩
    exact fun x hx => mem_singleton.mp hx ▸ he
  | pass => exact ⟨fun x hx => mem_singleton.mp hx ▸ he, hd, hrest⟩

/-- A run of moves keeps the trait of everything. -/
theorem Taking.everywhere (h : Taking index regroup l d es out d' l')
    (hes : ∀ e ∈ es, e.Everywhere C) : (∀ e ∈ out, e.Everywhere C) ∧ d'.Everywhere C := by
  induction h with
  | done => exact ⟨forall_mem_nil _, hd⟩
  | step he hm _ ih =>
    obtain ⟨hhead, hrest⟩ := forall_mem_cons.mp hes
    obtain ⟨hnew, hd₁, hrest₁⟩ := hm.everywhere hreg hd (hreg he.rebuilt hhead) hrest
    obtain ⟨hout, hd'⟩ := ih hd₁ hrest₁
    exact ⟨forall_mem_append.mpr ⟨hnew, hout⟩, hd'⟩

theorem Closing.everywhere (h : Closing regroup k d out k') : ∀ e ∈ out, e.Everywhere C := by
  obtain ⟨statement, blocks, hst, hbl, rfl⟩ := h
  refine forall_mem_append.mpr ⟨forall_mem_append.mpr ⟨?_, ?_⟩, ?_⟩
  · exact fun e he => everywhere_of_not_isCode (hd.comments e he)
  · cases hs : d.statement with
    | none =>
      rw [hs] at hst
      obtain rfl := hst
      exact forall_mem_nil _
    | some o =>
      rw [hs] at hst
      obtain ⟨n, hn, rfl⟩ := hst
      exact fun e he => mem_singleton.mp he ▸ hn.everywhere (hd.statement o hs)
  · cases hl : (Desk.attachAll d.stack).getLast? with
    | none =>
      rw [hl] at hbl
      obtain ⟨rfl, -⟩ := hbl
      exact forall_mem_nil _
    | some =>
      rw [hl] at hbl
      obtain ⟨n, e', l, l', hn, he', -, -, rfl⟩ := hbl
      obtain ⟨top, below, hs, rfl⟩ := hd.getLast?_attachAll hl
      exact fun e he => mem_singleton.mp he ▸ hreg he'.rebuilt (hn.everywhere (hd.outermost hs))

/-- **A stage keeps the trait of everything.** -/
theorem Grouped.everywhere (h : Grouped index regroup d es out) (hes : ∀ e ∈ es, e.Everywhere C) :
    ∀ e ∈ out, e.Everywhere C := by
  obtain ⟨_, _, d', taken, closing, _, ht, hc, rfl⟩ := h
  obtain ⟨htaken, hd'⟩ := ht.everywhere hreg hd hes
  exact forall_mem_append.mpr ⟨htaken, hc.everywhere hreg hd'⟩

end Moves

/-- **Regrouping keeps the trait of nodes.** The inner part is grouped anew, and what is around it
is as long as before. -/
theorem rebuilt_everywhere (scope : Scope) (depth : Nat) (way : List NodeKind) :
    RebuildsEverywhere C (Stage.regroup scope [] depth way) := by
  intro e e' h
  -- blanks and comments stay what they are, which the sections in front rely on
  refine (Stage.rebuilt_induction (R := fun _ e e' => (e.isCode = false → e' = e) ∧
    (e.Everywhere C → e'.Everywhere C))
    (fun _ _ => ⟨fun _ => rfl, id⟩) ?_ h).2
  intro depth way hd cs middle front back hsub hmiddle hfront hback
  refine ⟨nofun, fun hn => ?_⟩
  obtain ⟨index, -, hgrouped⟩ := hmiddle
  refine .node (Sections.Trait.replace (n := ⟨hd, cs⟩) And.left hn.fit hfront hback) ?_
  rw [forall_mem_append, forall_mem_append]
  refine ⟨⟨?_, ?_⟩, ?_⟩
  · exact forall_of_forall₂ And.right hfront fun e he => hn.children e (mem_of_mem_take he)
  · exact hgrouped.everywhere (fun h => (hsub h).2) .empty fun e he =>
      hn.children e (Node.inner_subset _ he)
  · exact forall_of_forall₂ And.right hback fun e he => hn.children e (mem_of_mem_drop he)

theorem rebuilt_sound (scope : Scope) (depth : Nat) (way : List NodeKind) :
    RebuildsSound (Stage.regroup scope [] depth way) :=
  rebuilt_everywhere scope depth way

end Grouping

end Traits

end EztScan
