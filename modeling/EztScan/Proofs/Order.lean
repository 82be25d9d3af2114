import EztScan.Proofs.Fitting
import EztScan.Proofs.Sound

/-!
# The order of tokens

A stage without blocks keeps the order of the tokens, with two exceptions. A node that comes while
comments wait is handed on before them (`Element.overtakes`), and a statement that is left open is
handed on behind the comments that wait at the end. `Orderly` excludes the first of these for a list
of elements, and `waits` says whether comments wait at its end.

Under these two conditions the tokens that were handed on, those on the desk and those that are to
come, read in this order, never change (`Move.aligned`), so that a stage hands on the tokens as they
came (`Grouped.aligned`). What it hands on is orderly again, which is what the next stage needs.
-/

namespace EztScan

open List OpenNode

variable {behind : Bool} {es out rest rest' : List Element} {e : Element} {d d' : Desk}
variable {as bs coming : List Element} {o : OpenNode} {e' : Element} {d₁ : Desk}

/-! ### Elements that overtake comments -/

namespace Element

/-- Is the element handed on in front of comments that wait? Nodes are, and tokens without text that
are neither blank nor comments. -/
def overtakes (e : Element) : Bool :=
  !e.isComment && !e.isBlank && !e.hasText

/-- Do comments wait behind the element, if they waited or did not wait before it? -/
def waitsBehind (waiting : Bool) (e : Element) : Bool :=
  e.isComment || (e.isBlank && waiting)

/-- Do comments wait behind these elements? -/
def waits (waiting : Bool) (es : List Element) : Bool :=
  es.foldl waitsBehind waiting

/-- No element overtakes comments. -/
def Orderly (waiting : Bool) : List Element → Prop
  | [] => True
  | e :: es => (waiting = true → e.overtakes = false) ∧ Orderly (e.waitsBehind waiting) es

theorem waits_append (waiting : Bool) (as bs : List Element) :
    waits waiting (as ++ bs) = waits (waits waiting as) bs :=
  foldl_append

theorem orderly_append :
    Orderly behind (as ++ bs) ↔ Orderly behind as ∧ Orderly (waits behind as) bs := by
  induction as generalizing behind with
  | nil => exact iff_of_eq (true_and _).symm
  | cons e es ih =>
    change _ ∧ Orderly _ (es ++ bs) ↔ (_ ∧ _) ∧ _
    rw [ih, and_assoc]
    rfl

theorem waitsBehind_false_le (waiting : Bool) (e : Element) :
    e.waitsBehind false = true → e.waitsBehind waiting = true := by
  unfold waitsBehind
  cases e.isComment <;> simp

/-- Fewer comments wait if none waited at the beginning. -/
theorem waits_eq_false (h : waits behind es = false) : waits false es = false := by
  induction es generalizing behind with
  | nil => rfl
  | cons e es ih =>
    -- behind `e` either none wait from the start of the rest on, or as many as in `h`
    cases hfalse : e.waitsBehind false with
    | false =>
      change waits (e.waitsBehind false) es = false
      rw [hfalse]
      exact ih h
    | true =>
      change waits (e.waitsBehind false) es = false
      change waits (e.waitsBehind behind) es = false at h
      rwa [waitsBehind_false_le behind e hfalse, ← hfalse] at h

theorem Orderly.of_waiting (h : Orderly behind es) : Orderly false es := by
  induction es generalizing behind with
  | nil => exact trivial
  | cons e es ih =>
    refine ⟨nofun, ?_⟩
    cases hfalse : e.waitsBehind false with
    | false => exact ih h.2
    | true => exact waitsBehind_false_le behind e hfalse ▸ h.2

theorem orderly_of_forall (h : ∀ e ∈ es, e.overtakes = false) : Orderly behind es := by
  induction es generalizing behind with
  | nil => exact trivial
  | cons e es ih =>
    obtain ⟨he, hes⟩ := forall_mem_cons.mp h
    exact ⟨fun _ => he, ih hes⟩

/-- Blanks and comments overtake nothing. -/
theorem overtakes_of_not_isCode (h : e.isCode = false) : e.overtakes = false := by
  cases e with
  | token t =>
    unfold isCode Token.isCode at h
    unfold overtakes isComment isBlank
    cases hb : t.isBlank <;> cases hc : t.isComment <;> simp_all
  | node => exact nomatch h

/-- Elements that a stage can hand on at once: they are orderly, and no comment waits behind
them. -/
structure Settled (es : List Element) : Prop where
  orderly : Orderly false es
  waits : Element.waits false es = false

theorem Settled.nil : Settled [] :=
  ⟨trivial, rfl⟩

theorem Settled.append (ha : Settled as) (hb : Settled bs) : Settled (as ++ bs) := by
  refine ⟨orderly_append.mpr ⟨ha.orderly, ?_⟩, ?_⟩
  · rw [ha.waits]
    exact hb.orderly
  · rw [waits_append, ha.waits]
    exact hb.waits

theorem Settled.singleton (h : e.isComment = false) : Settled [e] := by
  refine ⟨⟨nofun, trivial⟩, ?_⟩
  change (e.isComment || (e.isBlank && false)) = false
  rw [h, Bool.and_false]
  rfl

end Element

open Element

/-! ### What is on the desk, in order -/

namespace OpenNode

theorem children_complete {o' : OpenNode} {fault : Option Fault} (h : o.complete = (o', fault)) :
    o'.node.children = o.node.children := by
  obtain ⟨operands, rfl⟩ := eq_of_complete h
  rw [node_withNode]
  rfl

theorem children_begin (r : Rule) (number : Nat) (sections : Nat → Sections → Sections)
    (comments es : List Element) :
    (begin r number sections comments es).node.children = comments ++ es :=
  reverse_reverse _

theorem children_setClosing (o : OpenNode) (count : Nat) :
    (o.setClosing count).node.children = o.node.children :=
  rfl

end OpenNode

namespace Desk

/-- The elements on a desk without blocks, in the order in which they came. -/
def line (d : Desk) : List Element :=
  (d.statement.toList.flatMap fun o => o.node.children) ++ d.comments

/-- Do comments wait? -/
def waiting (d : Desk) : Bool :=
  !d.comments.isEmpty

theorem deliver_of_stack_nil (hs : d.stack = []) (n : Node) : d.deliver n = ([n.toElement], d) := by
  unfold deliver
  rw [hs]

/-- There are no open blocks, what waits are blanks and comments, and no element that is to come
will overtake them. -/
structure Aligned (d : Desk) (rest : List Element) : Prop where
  stack : d.stack = []
  comments : ∀ e ∈ d.comments, e.isCode = false
  orderly : Orderly d.waiting rest

end Desk

/-! ### Moves, runs and stages -/

namespace Grouping

variable {index : Index} {regroup : Node → Work Ledger Node} {P : Element → Prop}

/-- Regrouping keeps a property of elements, and of elements with that property all tokens in their
order. -/
def RebuildsInOrder (regroup : Node → Work Ledger Node) (P : Element → Prop) : Prop :=
  ∀ {e e'}, Rebuilt regroup e e' → P e → P e' ∧ e'.leaves = e.leaves

/-- The rules that are tried on an element are among all rules. -/
theorem mem_of_mem_rulesFor {c : Candidates} {r : Rule} (h : r ∈ c.rulesFor e) :
    r ∈ c.byWord.map (·.2) ++ c.others := by
  unfold Candidates.rulesFor at h
  split at h
  next =>
    refine mem_append.mpr ((mem_append.mp h).imp_left fun h => ?_)
    obtain ⟨x, hx, rfl⟩ := mem_map.mp h
    exact mem_map_of_mem (mem_of_mem_filter hx)
  next => exact mem_append_right _ h

/-- Without rules none fits. -/
theorem not_firstFit_of_empty {pattern : Rule → Option Pattern} {c : Candidates} (hc : c = {})
    {r : Rule} {taken : List Element} : ¬ FirstFit pattern (c.rulesFor e) e r taken rest := by
  intro h
  have hmem := mem_of_mem_rulesFor h.mem
  rw [hc] at hmem
  exact absurd hmem not_mem_nil

/-- A rebuilt element waits, and overtakes, as the element did. -/
theorem Rebuilt.orderly_iff (h : Rebuilt regroup e e') :
    Orderly behind (e' :: rest) ↔ Orderly behind (e :: rest) := by
  cases e with
  | token =>
    obtain rfl := h
    rfl
  | node =>
    obtain ⟨l, n, l', -, rfl⟩ := h
    rfl

theorem Rebuilt.waits_eq (h : Rebuilt regroup e e') (waiting : Bool) (rest : List Element) :
    waits waiting (e' :: rest) = waits waiting (e :: rest) := by
  cases e with
  | token =>
    obtain rfl := h
    rfl
  | node =>
    obtain ⟨l, n, l', -, rfl⟩ := h
    rfl

theorem leaves_of_forall₂ {R : Element → Element → Prop} {es' : List Element} (h : Forall₂ R es es')
    (hR : ∀ e ∈ es, ∀ {e'}, R e e' → e'.leaves = e.leaves) :
    leavesOfList es' = leavesOfList es := by
  induction h with
  | nil => rfl
  | cons hhead _ ih =>
    obtain ⟨he, hes⟩ := forall_mem_cons.mp hR
    rw [leavesOfList_cons, leavesOfList_cons, he hhead, ih hes]

/-- What an aligned desk with these elements to come has become by a move. -/
structure Advanced (d : Desk) (coming out : List Element) (d' : Desk) (rest' : List Element) :
    Prop where
  aligned : d'.Aligned rest'
  settled : Settled out
  /-- If no comment would have waited at the end, none will. -/
  waits : waits d.waiting coming = false → Element.waits d'.waiting rest' = false
  leaves : leavesOfList (out ++ d'.line ++ rest') = leavesOfList (d.line ++ coming)

/-- After elements were taken and no comment waits, what comes then is orderly still. -/
theorem Advanced.of_taken (es : List Element) (hd : Orderly d.waiting (es ++ rest))
    (hs : d'.stack = []) (hc : d'.comments = []) (hout : Settled out)
    (hleaves : leavesOfList (out ++ d'.line ++ rest) = leavesOfList (d.line ++ (es ++ rest))) :
    Advanced d (es ++ rest) out d' rest := by
  have hwaiting : d'.waiting = false := by
    unfold Desk.waiting
    rw [hc]
    rfl
  refine ⟨⟨hs, hc ▸ forall_mem_nil _, ?_⟩, hout, ?_, hleaves⟩
  · rw [hwaiting]
    exact (orderly_append.mp hd).2.of_waiting
  · intro hw
    rw [waits_append] at hw
    rw [hwaiting]
    exact waits_eq_false hw

/-- An element that waits is at the end of the desk now. -/
theorem Advanced.of_awaited (hd : d.Aligned (e :: rest)) (hw : awaitsWith d.comments e = true) :
    Advanced d (e :: rest) [] { d with comments := d.comments ++ [e] } rest := by
  obtain ⟨d', hd'⟩ : ∃ d' : Desk, d' = { d with comments := d.comments ++ [e] } := ⟨_, rfl⟩
  have hwaiting : d'.waiting = e.waitsBehind d.waiting := by
    unfold waitsBehind Desk.waiting
    rw [show (e.isComment || (e.isBlank && !d.comments.isEmpty)) = true from hw, hd']
    simp
  have hcomments : ∀ x ∈ d'.comments, x.isCode = false := by
    rw [hd']
    refine forall_mem_append.mpr ⟨hd.comments, fun x hx => ?_⟩
    exact mem_singleton.mp hx ▸ not_isCode_of_awaitsWith hw
  rw [← hd']
  refine ⟨⟨hd' ▸ hd.stack, hcomments, hwaiting ▸ hd.orderly.2⟩, .nil, fun hw => hwaiting ▸ hw, ?_⟩
  rw [hd']
  simp [Desk.line]

/-- A node that is complete is handed on. -/
theorem Advanced.deliver {n : Node} (hs : d₁.stack = [])
    (h : Advanced d coming [n.toElement] d₁ rest') :
    Advanced d coming (d₁.deliver n).1 (d₁.deliver n).2 rest' := by
  rw [Desk.deliver_of_stack_nil hs]
  exact h

/-- Behind an element that does not wait with the comments, nothing waits. -/
theorem waitsBehind_eq_false {comments : List Element} (h : awaitsWith comments e = false) :
    e.waitsBehind (waits false comments) = false := by
  unfold awaitsWith at h
  rw [Bool.or_eq_false_iff] at h
  obtain ⟨hcomment, hblank⟩ := h
  unfold waitsBehind
  rw [hcomment, Bool.false_or]
  cases comments with
  | nil => exact Bool.and_false _
  | cons =>
    rw [show e.isBlank = false by simpa using hblank, Bool.false_and]

/-- **A move without blocks keeps the order of the tokens.** -/
theorem Move.aligned (hblocks : index.blocks = {}) (hreg : RebuildsInOrder regroup P)
    (h : Move index regroup k d e rest out d' rest' k') (hd : d.Aligned (e :: rest)) (he : P e)
    (hrest : ∀ x ∈ rest, P x) : Advanced d (e :: rest) out d' rest' := by
  have hnode : ∀ n : Node, Settled [n.toElement] := fun n => .singleton rfl
  -- the moves that need an open block or a rule for one do not come up
  cases h with
  | close o o' taken rest ho htakes hc =>
    refine .deliver hd.stack (.of_taken (e :: taken) hd.orderly hd.stack rfl (hnode _) ?_)
    simp [Desk.line, ho, Node.toElement, children_complete hc, children_setClosing]
  | leave o o' rest ho htakes hc =>
    -- nothing is taken, and the comments go on waiting
    refine .deliver hd.stack ⟨⟨hd.stack, hd.comments, hd.orderly⟩, hnode _, id, ?_⟩
    simp [Desk.line, ho, Node.toElement, children_complete hc]
  | interrupt o o' r taken rest ho hyields hr hc d' hd' =>
    subst hd'
    refine .deliver hd.stack (.of_taken (e :: taken) hd.orderly hd.stack rfl (hnode _) ?_)
    simp [Desk.line, ho, Node.toElement, children_complete hc, children_begin]
  | await o rest ho hw => exact .of_awaited hd hw
  | extend o rest ho =>
    refine .of_taken [e] hd.orderly hd.stack rfl .nil ?_
    simp [Desk.line, ho]
  | term r o o' taken children rest ho hr hbegin hch hc =>
    refine .deliver hd.stack (.of_taken (e :: taken) hd.orderly hd.stack rfl (hnode _) ?_)
    have hleaves : leavesOfList children = leavesOfList (d.comments ++ e :: taken) := by
      rw [hbegin, children_begin] at hch
      refine leaves_of_forall₂ hch (forall_mem_append.mpr ⟨?_, ?_⟩)
      · -- comments are not rebuilt
        exact fun x hx x' hx' => by rw [hx'.eq_of_not_isCode (hd.comments x hx)]
      · have htaken := (forall_mem_append.mp hrest).1
        exact fun x hx x' hx' => (hreg hx' (forall_mem_cons.mpr ⟨he, htaken⟩ x hx)).2
    have hchildren := children_complete hc
    rw [node_withNode] at hchildren
    simp [Desk.line, ho, Node.toElement, hchildren, hleaves]
  | begin r taken rest ho =>
    refine .of_taken (e :: taken) hd.orderly hd.stack rfl .nil ?_
    simp [Desk.line, ho, children_begin]
  | finish | restart | «open» | head | place => cases hd.stack.symm.trans ‹d.stack = _ :: _›
  | enter r taken rest out inHeader d' ho hr => exact absurd hr (not_firstFit_of_empty hblocks)
  | hold rest ho hs hw => exact .of_awaited hd hw
  | flush rest ho hs hw =>
    -- the comments are handed on together with the element that they waited for
    have hsettled : Settled (d.comments ++ [e]) := by
      refine ⟨orderly_append.mpr ⟨?_, fun _ => ?_, trivial⟩, ?_⟩
      · exact orderly_of_forall fun x hx => overtakes_of_not_isCode (hd.comments x hx)
      · unfold overtakes
        cases ht : e.hasText <;> simp_all
      · rw [waits_append]
        exact waitsBehind_eq_false hw
    refine .of_taken [e] hd.orderly hd.stack rfl hsettled ?_
    simp [Desk.line, ho]
  | pass rest ho hs hw =>
    -- an element without text does not come while comments wait
    have hnone : d.comments = [] := by
      by_contra hne
      have hwaiting : d.waiting = true := by simp [Desk.waiting, hne]
      have hovertakes := hd.orderly.1 hwaiting
      unfold overtakes at hovertakes
      unfold awaitsWith at hw
      cases hc : e.isComment <;> cases hb : e.isBlank <;> simp_all
    have hcomment : e.isComment = false := by
      unfold awaitsWith at hw
      cases hc : e.isComment <;> simp_all
    refine .of_taken [e] hd.orderly hd.stack hnone (.singleton hcomment) ?_
    simp [Desk.line, ho, hnone]

/-- After a move, nothing comes that did not come before. -/
theorem Move.subset (h : Move index regroup k d e rest out d' rest' k') : rest' ⊆ e :: rest := by
  have htaken : ∀ taken rest' : List Element, rest' ⊆ e :: (taken ++ rest') :=
    fun taken rest' => Subset.trans (subset_append_right taken rest') (subset_cons_self e _)
  cases h with
  | leave => exact Subset.refl _
  | close | interrupt | term | begin | finish | restart | «open» | enter => exact htaken _ _
  | await | extend | head | place | hold | flush | pass => exact htaken [] _

theorem statement_pop (d : Desk) (o : OpenNode) (below : List OpenNode) :
    (d.pop o below).statement = d.statement := by
  unfold Desk.pop
  split <;> rfl

theorem statement_enter (h : d.enter o = some (out, d')) : d'.statement = d.statement := by
  unfold Desk.enter at h
  split at h
  next =>
    obtain ⟨-, rfl⟩ := Prod.mk.inj (Option.some.inj h)
    rfl
  next =>
    split at h
    next =>
      obtain ⟨-, rfl⟩ := Prod.mk.inj (Option.some.inj h)
      rfl
    next =>
      split at h
      next =>
        split at h
        next =>
          obtain ⟨-, rfl⟩ := Prod.mk.inj (Option.some.inj h)
          rfl
        next => exact nomatch h
      next => exact nomatch h

/-- A grammar without statements opens none. -/
theorem Move.statement_eq_none (hstatements : index.statements = {})
    (h : Move index regroup k d e rest out d' rest' k') (hd : d.statement = none) :
    d'.statement = none := by
  cases h with
  | close o o' taken rest ho | leave o o' rest ho | interrupt o o' r taken rest ho | await o rest ho
  | extend o rest ho => exact nomatch hd.symm.trans ho
  | begin r taken rest ho hr => exact absurd hr (not_firstFit_of_empty hstatements)
  | term => rw [statement_deliver, hd]
  | finish => rw [statement_pop, hd]
  | restart o o' below taken rest ho hh hs hnests hc d' hd' =>
    rw [hd']
    exact (statement_pop _ o' below).trans hd
  | enter r taken rest out inHeader d' ho hr hent => rw [statement_enter hent, hd]
  | «open» | head | place | hold | flush | pass => exact hd

theorem Taking.statement_eq_none (hstatements : index.statements = {})
    (h : Taking index regroup l d es out d' l') (hd : d.statement = none) :
    d'.statement = none := by
  induction h with
  | done => exact hd
  | step he hm _ ih => exact ih (hm.statement_eq_none hstatements hd)

theorem Advanced.trans {rest₁ new : List Element} (h₁ : Advanced d coming new d₁ rest₁)
    (h₂ : Advanced d₁ rest₁ out d' rest') : Advanced d coming (new ++ out) d' rest' := by
  refine ⟨h₂.aligned, h₁.settled.append h₂.settled, fun hw => h₂.waits (h₁.waits hw), ?_⟩
  calc leavesOfList (new ++ out ++ d'.line ++ rest')
      = leavesOfList new ++ leavesOfList (out ++ d'.line ++ rest') := by simp
    _ = leavesOfList (new ++ d₁.line ++ rest₁) := by rw [h₂.leaves]; simp
    _ = leavesOfList (d.line ++ coming) := h₁.leaves

/-- A run of moves without blocks keeps the order of the tokens. -/
theorem Taking.aligned (hblocks : index.blocks = {}) (hreg : RebuildsInOrder regroup P)
    (h : Taking index regroup l d es out d' l') (hd : d.Aligned es) (hes : ∀ e ∈ es, P e) :
    Advanced d es out d' [] := by
  induction h with
  | done => exact ⟨hd, .nil, id, by simp⟩
  | @step _ _ _ _ d d₁ d' e e' rest rest₁ new out he hm _ ih =>
    obtain ⟨hhead, hrest⟩ := forall_mem_cons.mp hes
    replace he := he.rebuilt
    obtain ⟨hP, hleaves⟩ := hreg he hhead
    -- the move takes the rebuilt element, which waits and overtakes as the element did
    have h₁ := hm.aligned hblocks hreg ⟨hd.stack, hd.comments, he.orderly_iff.mpr hd.orderly⟩
      hP hrest
    have hrest₁ : ∀ x ∈ rest₁, P x := fun x hx => forall_mem_cons.mpr ⟨hP, hrest⟩ x (hm.subset hx)
    have h₂ := h₁.trans (ih h₁.aligned hrest₁)
    refine ⟨h₂.aligned, h₂.settled, fun hw => h₂.waits ((he.waits_eq _ _).trans hw),
      h₂.leaves.trans ?_⟩
    simp [hleaves]

/-- What every move from an aligned desk keeps is kept by all of them. `I` is what is kept on the
desk, and `O` holds of what is handed on. -/
theorem Taking.invariant {I : Desk → Prop} {O : Element → Prop} (hblocks : index.blocks = {})
    (hreg : RebuildsInOrder regroup P)
    (hmove : ∀ {d d' e rest out rest' k k'}, Move index regroup k d e rest out d' rest' k' →
      d.Aligned (e :: rest) → I d → P e → (∀ x ∈ rest, P x) → (∀ x ∈ out, O x) ∧ I d')
    (h : Taking index regroup l d es out d' l') (hd : d.Aligned es) (hI : I d)
    (hes : ∀ e ∈ es, P e) : (∀ x ∈ out, O x) ∧ I d' := by
  induction h with
  | done => exact ⟨forall_mem_nil _, hI⟩
  | @step _ _ _ _ d d₁ d' e e' rest rest₁ new out he hm _ ih =>
    obtain ⟨hhead, hrest⟩ := forall_mem_cons.mp hes
    replace he := he.rebuilt
    obtain ⟨hP, -⟩ := hreg he hhead
    have hd' : d.Aligned (e' :: rest) := ⟨hd.stack, hd.comments, he.orderly_iff.mpr hd.orderly⟩
    obtain ⟨hnew, hI₁⟩ := hmove hm hd' hI hP hrest
    have hrest₁ : ∀ x ∈ rest₁, P x := fun x hx => forall_mem_cons.mpr ⟨hP, hrest⟩ x (hm.subset hx)
    obtain ⟨hout, hI'⟩ := ih (hm.aligned hblocks hreg hd' hP hrest).aligned hI₁ hrest₁
    exact ⟨forall_mem_append.mpr ⟨hnew, hout⟩, hI'⟩

theorem aligned_empty (h : Orderly false es) : Desk.Aligned {} es :=
  ⟨rfl, forall_mem_nil _, h⟩

/-- **A stage without blocks hands on the tokens as they came**, if no node overtakes comments on
the way and none are left behind an open statement at the end. -/
theorem Grouped.aligned (hblocks : index.blocks = {}) (hreg : RebuildsInOrder regroup P)
    (h : Grouped index regroup {} es out) (horderly : Orderly false es) (hes : ∀ e ∈ es, P e)
    (hend : index.statements = {} ∨ waits false es = false) :
    Orderly false out ∧ leavesOfList out = leavesOfList es := by
  obtain ⟨_, _, d', taken, closing, _, ht, hclosing, rfl⟩ := h
  have hadv := ht.aligned hblocks hreg (aligned_empty horderly) hes
  have hleaves : leavesOfList (taken ++ d'.line) = leavesOfList es := by
    have := hadv.leaves
    rwa [append_nil] at this
  obtain ⟨hs, rfl⟩ | ⟨o, o', hs, hc, rfl⟩ := hclosing.of_stack_nil hadv.aligned.stack
  · -- what is left on the desk are the comments, and they are handed on last
    have hline : d'.line = d'.comments := by simp [Desk.line, hs]
    rw [← hline]
    refine ⟨orderly_append.mpr ⟨hadv.settled.orderly, ?_⟩, hleaves⟩
    rw [hline]
    exact orderly_of_forall fun x hx => overtakes_of_not_isCode (hadv.aligned.comments x hx)
  · -- a statement is open, so that no comment waits
    have hwaits : waits false es = false := by
      refine hend.resolve_left fun hstatements => ?_
      have hnone := ht.statement_eq_none hstatements rfl
      exact nomatch hs.symm.trans hnone
    have hcomments : d'.comments = [] := by
      have hwaiting : d'.waiting = false := hadv.waits hwaits
      simpa [Desk.waiting] using hwaiting
    have hsettled : Settled [o'.node.toElement] := .singleton rfl
    rw [hcomments]
    refine ⟨(hadv.settled.append hsettled).orderly, ?_⟩
    rw [← hleaves]
    simp [Desk.line, hs, hcomments, Node.toElement, children_complete hc]

end Grouping

end EztScan
