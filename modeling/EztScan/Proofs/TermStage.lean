import EztScan.Proofs.SectionStage

/-!
# The terms of a section

The third stage finds the statements with operands, each of which is a term: a word of the language
and the words that belong to it. On the code alone this is `itemsFrom`: from left to right, an
element begins a term, which takes in as many elements as its reading uses, or stays what it is.

The stage works on elements that are tokens or nodes from the stage before, and the readings see no
more of a node than that it is one. So `itemsFrom` works on anything with a `face` that looks like
such an element to the patterns, and what the stage hands on is compared with the items by what was
to be compared before (`grouped_items`).
-/

namespace EztScan.Language

open Element Grouping List

variable {r : Rule} {e e' : Element} {es : List Element} {regroup : Node → Work Ledger Node}
variable {es' : List Element}

/-! ### Terms in a list -/

/-- Something as it was, or a term made of several such things. -/
inductive Item (α : Type) where
  | word (a : α)
  | term (r : Rule) (words : List α)

/-- The rule of the term that an element begins in front of some code, and how much of that code
belongs to it. -/
def termAt (e : Element) (es : List Element) : Option (Rule × Nat) :=
  firstReads Rule.shape (termIndex.terms.rulesFor e) e es

section Items

variable {α : Type} {face : α → Element}
variable {a : α} {as : List α}

/-- The terms among some things behind the first `k` of them, and what is in none. -/
def itemsFrom (face : α → Element) : Nat → List α → List (Item α)
  | _, [] => []
  | k + 1, _ :: as => itemsFrom face k as
  | 0, a :: as =>
    match termAt (face a) (as.map face) with
    | some (r, k) => .term r (a :: as.take k) :: itemsFrom face k as
    | none => .word a :: itemsFrom face 0 as

/-- What a term has taken in is passed over. -/
theorem itemsFrom_drop (k : Nat) (as : List α) :
    itemsFrom face k as = itemsFrom face 0 (as.drop k) := by
  induction as generalizing k with
  | nil =>
    rw [drop_nil]
    cases k <;> rfl
  | cons a as ih =>
    cases k with
    | zero => rfl
    | succ k =>
      rw [drop_succ_cons, ← ih k]
      rfl

theorem itemsFrom_term {k : Nat} (h : termAt (face a) (as.map face) = some (r, k)) :
    itemsFrom face 0 (a :: as) = .term r (a :: as.take k) :: itemsFrom face 0 (as.drop k) := by
  rw [itemsFrom, h, ← itemsFrom_drop]

theorem itemsFrom_word (h : termAt (face a) (as.map face) = none) :
    itemsFrom face 0 (a :: as) = .word a :: itemsFrom face 0 as := by
  rw [itemsFrom, h]

end Items

/-! ### The rules of terms -/

/-- The rules of terms. -/
def termRules : List Rule :=
  termIndex.terms.byWord.map (·.2) ++ termIndex.terms.others

theorem areAll_isOrdered_terms : areAll Pattern.isOrdered Rule.shape termRules = true := by
  decide

theorem areAll_isTextual_terms : areAll Pattern.isTextual Rule.shape termRules = true := by
  decide

theorem areAll_ignoresNodes_terms : areAll Pattern.ignoresNodes Rule.shape termRules = true := by
  decide

theorem termAt_congr (he : Alike e e') (hes : Forall₂ Alike es es') :
    termAt e es = termAt e' es' := by
  unfold termAt
  exact firstReads_congr areAll_ignoresNodes_terms he hes

/-- Only words begin a term, and only tokens belong to it. -/
theorem tokens_of_termAt {k : Nat} (h : termAt e es = some (r, k)) :
    (∃ t, e = .token t) ∧ ∀ x ∈ es.take k, ∃ t, x = .token t := by
  obtain ⟨hr, p, hp, hreads⟩ := mem_of_firstReads h
  obtain ⟨p', hp', htextual⟩ := exists_of_areAll (areAll_rulesFor areAll_isTextual_terms e) hr
  obtain rfl := Option.some.inj (hp.symm.trans hp')
  exact p.tokens_of_reads htextual hreads

/-! ### Nodes that show a term -/

/-- The node is a term of these words. -/
structure TermShown (r : Rule) (words : List Element) (n : Node) : Prop where
  rule : r ∈ termRules
  kind : n.head.kind = r.kind
  operands : n.head.operands = r.operandsOf words
  complete : r.faultOf words = none
  tokens : ∀ e ∈ n.children, ∃ t, e = .token t
  parts : ∃ comments opening, n.Laid comments opening [] [] ∧ code opening = words ∧
    opening.head? = words.head?

/-- What the stage hands on for an item, if it is given elements that are related to what the items
are made of. -/
inductive Item.Shown {α : Type} (regroup : Node → Work Ledger Node) (R : Element → α → Prop) :
    Element → Item α → Prop
  | word {e x : Element} {a : α} (h : R e a) (hx : Rebuilt regroup e x) :
      Shown regroup R x (.word a)
  | term {r : Rule} {n : Node} {es : List Element} {as : List α} (h : Forall₂ R es as)
      (hn : TermShown r es n) :
    Shown regroup R n.toElement (.term r as)

/-- Patterns cannot tell an element from what it is rebuilt as. -/
theorem alike_of_rebuilt (h : Rebuilt regroup e e') : Alike e' e := by
  cases e with
  | token =>
    obtain rfl := h
    exact .refl _
  | node =>
    obtain ⟨l, n, l', -, rfl⟩ := h
    exact .node ..

theorem eq_token_of_rebuilt {t : Token} (h : Rebuilt regroup e (.token t)) : e = .token t := by
  cases e with
  | token => exact h.symm
  | node =>
    obtain ⟨l, n, l', -, hn⟩ := h
    exact nomatch hn

/-- Rebuilding tokens leaves them as they are. -/
theorem eq_of_rebuilt_tokens (h : Forall₂ (Rebuilt regroup) es es')
    (htokens : ∀ e ∈ es, ∃ t, e = .token t) : es' = es := by
  refine eq_of_forall₂ ?_ h htokens
  rintro e e' he ⟨t, rfl⟩
  exact he

section Stage

variable {α : Type} {face : α → Element} {R : Element → α → Prop}
  {regroup : Node → Work Ledger Node}
variable {as : List α} {rest out : List Element} {d d' : Desk}

/-- A term that is complete shows its words. -/
theorem termShown_of_complete (hr : r ∈ termRules) {number : Nat} {comments children : List Element}
    {o o' : OpenNode} (hidle : ∀ x ∈ comments, x.isCode = false)
    (htokens : ∀ x ∈ es, ∃ t, x = .token t) (hhead : es.head? = (code es).head?)
    (ho : o = .begin r number .open comments es)
    (hch : Forall₂ (Rebuilt regroup) o.node.children children)
    (hc : (o.withNode { o.node with children }).complete = (o', none)) :
    TermShown r (code es) o'.node := by
  have hall : ∀ x ∈ comments ++ es, ∃ t, x = .token t :=
    forall_mem_append.mpr ⟨fun x hx => (isPlain_of_not_isCode (hidle x hx)).1, htokens⟩
  -- a term is made of tokens, so that rebuilding has not changed it
  rw [ho, OpenNode.children_begin] at hch
  obtain rfl := eq_of_rebuilt_tokens hch hall
  obtain ⟨o₁, ho₁⟩ : ∃ o₁, o₁ = o.withNode { o.node with children := comments ++ es } := ⟨_, rfl⟩
  have hnode₁ : o₁.node = ⟨o.head, comments ++ es⟩ := by rw [ho₁, OpenNode.node_withNode]; rfl
  have hcode : o₁.node.code = code es := by
    unfold Node.code
    rw [hnode₁, code_append, code_eq_nil hidle, nil_append]
  rw [← ho₁] at hc
  obtain ⟨hnode, hfault⟩ := OpenNode.node_complete (by rw [ho₁, ho]; rfl) hc
  rw [hcode, show o₁.rule = r by rw [ho₁, ho]; rfl] at hnode hfault
  rw [hnode₁] at hnode
  rw [hnode]
  refine ⟨hr, by rw [ho]; rfl, rfl, hfault.symm, hall, comments, es,
    ⟨?_, by rw [ho]; rfl, hidle⟩, rfl, hhead⟩
  change comments ++ es = _
  rw [append_nil, append_nil]

/-- Nothing is open, and what waits are blanks and comments. -/
structure Clear (d : Desk) : Prop where
  statement : d.statement = none
  stack : d.stack = []
  comments : ∀ x ∈ d.comments, x.isCode = false

variable (hR : ∀ e a, R e a → Alike e (face a))

include hR

/-- Readings on elements are readings on what they are related to. -/
theorem termAt_face {a : α} (he : Alike e' e) (ha : R e a) (has : Forall₂ R es as) :
    termAt e' es = termAt (face a) (as.map face) := by
  refine termAt_congr (he.trans (hR e a ha)) ?_
  rw [forall₂_map_right_iff]
  exact has.imp hR

/-- An element that begins no term is an item by itself, if it is code. -/
theorem items_of_word (he : Rebuilt regroup e e')
    (hnone : termAt e' (code rest) = none) (has : Forall₂ R (code (e :: rest)) as) :
    ∃ items as', Forall₂ (Item.Shown regroup R) (code [e']) items ∧ Forall₂ R (code rest) as' ∧
      itemsFrom face 0 as = items ++ itemsFrom face 0 as' := by
  have halike := alike_of_rebuilt he
  cases hcode : e.isCode with
  | false =>
    rw [code_cons_of_not_isCode hcode] at has
    rw [code_cons_of_not_isCode (halike.isCode.trans hcode)]
    exact ⟨[], as, .nil, has, rfl⟩
  | true =>
    rw [code_cons_of_isCode hcode] at has
    rw [code_cons_of_isCode (halike.isCode.trans hcode)]
    cases has with
    | @cons _ a _ as₀ ha has₀ =>
      rw [termAt_face hR halike ha has₀] at hnone
      exact ⟨[.word a], as₀, .cons (.word ha he) .nil, has₀, itemsFrom_word hnone⟩

/-- **A move makes items**: what is handed on shows the items of the elements that were taken. -/
theorem move_items {rest' : List Element} (he : Rebuilt regroup e e')
    (h : Move termIndex regroup k d e' rest out d' rest' k') (hd : Clear d)
    (hwords : ∀ x ∈ e :: rest, x.isCode = false → ¬ x.IsWord)
    (has : Forall₂ R (code (e :: rest)) as) :
    ∃ items as', Clear d' ∧ Forall₂ (Item.Shown regroup R) (code out) items ∧
      Forall₂ R (code rest') as' ∧
      itemsFrom face 0 as = items ++ itemsFrom face 0 as' := by
  have hordered := areAll_rulesFor areAll_isOrdered_terms e'
  have hnone : NoneFits Rule.shape (termIndex.terms.rulesFor e') e' rest →
      termAt e' (code rest) = none :=
    firstReads_of_noneFits hordered
  have hstack : ∀ {o below}, d.stack ≠ o :: below := fun h => nomatch hd.stack.symm.trans h
  cases h with
  | close o o' taken rest ho | leave o o' rest ho | interrupt o o' r taken rest ho | await o rest ho
  | extend o rest ho => exact nomatch hd.statement.symm.trans ho
  | term r o o' taken children rest ho hr hbegin hch hcomplete =>
    obtain ⟨k, hk, htaken, hlength⟩ := firstReads_of_firstFit hordered hr
    -- the term begins with a word, which is a token and code
    obtain ⟨⟨t, rfl⟩, htokens⟩ := tokens_of_termAt hk
    obtain rfl : e = .token t := eq_token_of_rebuilt he
    have hcode : (Element.token t).isCode = true := Bool.of_not_eq_false fun hidle =>
      (unfit_termIndex (hwords _ mem_cons_self hidle) _ r taken rest' rfl).1 hr
    -- what the term takes is the code that its reading uses
    have htake : code taken = (code (taken ++ rest')).take k := by
      rw [code_append, ← hlength, take_left]
    have hdrop : code rest' = (code (taken ++ rest')).drop k := by
      rw [code_append, ← hlength, drop_left]
    rw [← htake] at htokens
    rw [code_cons_of_isCode hcode] at has
    cases has with
    | @cons _ a _ as₀ ha has₀ =>
      have htermAt := (termAt_face hR (.refl _) ha has₀).symm.trans hk
      have hwords : TermShown r (code (.token t :: taken)) o'.node := by
        refine termShown_of_complete (mem_of_mem_rulesFor hr.mem)
          hd.comments ?_ ?_ hbegin hch hcomplete
        · refine forall_mem_cons.mpr ⟨⟨t, rfl⟩, fun x hx => ?_⟩
          cases hidle : x.isCode with
          | true => exact htokens x (mem_filter.mpr ⟨hx, hidle⟩)
          | false => exact (isPlain_of_not_isCode hidle).1
        · rw [code_cons_of_isCode hcode]
          rfl
      have hs : Desk.stack { d with comments := [] } = [] := hd.stack
      rw [code_cons_of_isCode hcode] at hwords
      rw [Desk.deliver_of_stack_nil hs]
      refine ⟨[.term r (a :: as₀.take k)], as₀.drop k, ⟨hd.statement, hd.stack, forall_mem_nil _⟩,
        ?_, ?_, itemsFrom_term htermAt⟩
      · refine .cons (.term (.cons ha ?_) hwords) .nil
        rw [htake]
        exact forall₂_take k has₀
      · rw [hdrop]
        exact forall₂_drop k has₀
  | begin r taken rest ho hr => exact absurd hr (not_firstFit_of_empty rfl)
  | finish | restart | «open» | head | place => exact absurd ‹d.stack = _ :: _› hstack
  | enter r taken rest out inHeader d' ho hr => exact absurd hr (not_firstFit_of_empty rfl)
  | hold rest ho hs hw hu =>
    have hidle := not_isCode_of_awaitsWith hw
    obtain ⟨items, as', hitems, has', heq⟩ := items_of_word hR he (hnone hu.terms) has
    rw [code_cons_of_not_isCode hidle] at hitems
    have hwait : ∀ x ∈ d.comments ++ [e'], x.isCode = false :=
      forall_mem_append.mpr ⟨hd.comments, forall_mem_singleton.mpr hidle⟩
    exact ⟨items, as', ⟨ho, hs, hwait⟩, hitems, has', heq⟩
  | flush rest ho hs hw htext hu =>
    obtain ⟨items, as', hitems, has', heq⟩ := items_of_word hR he (hnone hu.terms) has
    refine ⟨items, as', ⟨ho, hs, forall_mem_nil _⟩, ?_, has', heq⟩
    rw [code_append, code_eq_nil hd.comments, nil_append]
    exact hitems
  | pass rest ho hs hw htext hu =>
    obtain ⟨items, as', hitems, has', heq⟩ := items_of_word hR he (hnone hu.terms) has
    exact ⟨items, as', hd, hitems, has', heq⟩

/-- A run of moves makes items of all that it takes. -/
theorem taking_items (h : Taking termIndex regroup l d es out d' l') (hd : Clear d)
    (hwords : ∀ x ∈ es, x.isCode = false → ¬ x.IsWord) (has : Forall₂ R (code es) as) :
    Clear d' ∧ Forall₂ (Item.Shown regroup R) (code out) (itemsFrom face 0 as) := by
  induction h generalizing as with
  | done =>
    cases has with
    | nil => exact ⟨hd, .nil⟩
  | @step _ _ _ _ d d₁ d' e e' rest rest₁ new out he hm _ ih =>
    replace he := he.rebuilt
    obtain ⟨items, as', hd₁, hnew, has', heq⟩ := move_items hR he hm hd hwords has
    -- what is left is part of what there was
    have hwords₁ : ∀ x ∈ rest₁, x.isCode = false → ¬ x.IsWord := by
      intro x hx hidle
      rcases mem_cons.mp (hm.subset hx) with rfl | hx
      · rw [he.eq_of_not_isCode ((alike_of_rebuilt he).isCode ▸ hidle)] at hidle ⊢
        exact hwords e mem_cons_self hidle
      · exact hwords x (mem_cons_of_mem e hx) hidle
    obtain ⟨hd', hout⟩ := ih hd₁ hwords₁ has'
    refine ⟨hd', ?_⟩
    rw [code_append, heq]
    exact rel_append hnew hout

/-- **The third stage makes items.** The code of what it hands on shows the items of the code that
it was given. -/
theorem grouped_items (h : Grouped termIndex regroup {} es out)
    (hwords : ∀ x ∈ es, x.isCode = false → ¬ x.IsWord) (has : Forall₂ R (code es) as) :
    Forall₂ (Item.Shown regroup R) (code out) (itemsFrom face 0 as) := by
  obtain ⟨_, _, d', taken, closing, _, ht, hclosing, rfl⟩ := h
  obtain ⟨hd', htaken⟩ := taking_items hR ht ⟨rfl, rfl, forall_mem_nil _⟩ hwords has
  rw [eq_of_closing hclosing hd'.stack hd'.statement, code_append, code_eq_nil hd'.comments,
    append_nil]
  exact htaken

end Stage

end EztScan.Language
