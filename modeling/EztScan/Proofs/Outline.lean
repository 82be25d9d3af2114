import EztScan.Tree.Walk
import EztScan.Proofs.ProgramParts

/-!
# What is recognised of a source

The nodes of a tree are those that a walk enters (`Element.allNodes`). The outline of a tree keeps
its nodes and forgets its words: of each node it has the kind, the name that it declares, the names
of its operands, and the outlines of the nodes in it. Programs whose parts look alike have the same
outline (`outlinesOf_parts_congr`), wherever their words stand.
-/

namespace EztScan

open List Element

variable {es es' : List Element} {n : Node}
variable {s : Section} {r : Rule} {words : List Element} {n' : Node} {F : Element → Element → Prop}

namespace Element

/-! ### All nodes -/

theorem exists_of_mem_allNodes (h : n ∈ allNodes es) : ∃ e ∈ es, n ∈ allNodes [e] := by
  induction es with
  | nil =>
    rw [allNodes_nil] at h
    exact absurd h not_mem_nil
  | cons e es ih =>
    rw [allNodes_cons] at h
    rcases mem_append.mp h with h | h
    · exact ⟨e, mem_cons_self, h⟩
    · obtain ⟨e', he', hn⟩ := ih h
      exact ⟨e', mem_cons_of_mem e he', hn⟩

/-- All nodes are in the code. -/
theorem allNodes_code (es : List Element) : allNodes (code es) = allNodes es := by
  induction es with
  | nil => rfl
  | cons e es ih =>
    rw [allNodes_cons e es]
    cases hcode : e.isCode with
    | true => rw [code_cons_of_isCode hcode, allNodes_cons, ih]
    | false =>
      obtain ⟨⟨t, rfl⟩, -⟩ := isPlain_of_not_isCode hcode
      rw [code_cons_of_not_isCode hcode, ih, allNodes_token, nil_append]

theorem nodes_code (es : List Element) : nodes (code es) = nodes es := by
  induction es with
  | nil => rfl
  | cons e es ih =>
    cases hcode : e.isCode with
    | true =>
      rw [code_cons_of_isCode hcode]
      unfold nodes at ih ⊢
      rw [filterMap_cons, filterMap_cons, ih]
    | false =>
      obtain ⟨⟨t, rfl⟩, -⟩ := isPlain_of_not_isCode hcode
      rw [code_cons_of_not_isCode hcode, ih]
      rfl

end Element

namespace Language

open Element

/-- The nodes in a section are the terms in it. -/
theorem Section.Read.forall_mem_allNodes {P : Node → Prop} (h : s.Read n)
    (hterms : ∀ {r words m}, .term r words ∈ itemsFrom id 0 s.body → TermShown r words m → P m) :
    ∀ m ∈ allNodes n.children, P m := by
  obtain ⟨comments, opening, body, closing, hlaid, htokens, -, -, hbody, -⟩ := h.parts
  simp only [forall_mem_append] at htokens
  obtain ⟨⟨hcomments, hopening⟩, hclosing⟩ := htokens
  intro m hm
  -- around the inner part there are tokens only
  rw [hlaid.children, allNodes_append, allNodes_append, allNodes_append,
    allNodes_of_tokens hcomments, allNodes_of_tokens hopening, allNodes_of_tokens hclosing,
    append_nil, nil_append, nil_append, ← allNodes_code body] at hm
  obtain ⟨e, he, hm⟩ := exists_of_mem_allNodes hm
  obtain ⟨item, hitem, hword⟩ := exists_mem_of_forall₂ hbody.flip he
  cases hword with
  | word =>
    rw [allNodes_token] at hm
    cases hm
  | term hterm =>
    rw [allNodes_node, allNodes_of_tokens hterm.tokens] at hm
    exact mem_singleton.mp hm ▸ hterms hitem hterm

/-- The nodes in a program are its sections, the nodes in them, and terms. -/
theorem ProgramRead.forall_mem_allNodes {t : Token} {ts : List Token} {P : Node → Prop}
    (h : ProgramRead t ts n)
    (hterms : ∀ {r words m}, .term r (words.map Piece.loose) ∈ programItems ts →
      TermShown r words m → P m)
    (hsections : ∀ {s : Section} {m}, s.Read m → P m ∧ ∀ k ∈ allNodes m.children, P k) :
    ∀ m ∈ allNodes n.children, P m := by
  obtain ⟨body, hlaid, hbody⟩ := h.parts
  intro m hm
  rw [hlaid.children, append_nil, nil_append, allNodes_append, allNodes_token, nil_append,
    ← allNodes_code body] at hm
  obtain ⟨e, he, hm⟩ := exists_of_mem_allNodes hm
  obtain ⟨item, hitem, hpart⟩ := exists_mem_of_forall₂ hbody.flip he
  cases hpart with
  | word =>
    rw [allNodes_token] at hm
    cases hm
  | term hterm =>
    rw [allNodes_node, allNodes_of_tokens hterm.tokens] at hm
    exact mem_singleton.mp hm ▸ hterms hitem hterm
  | part hs =>
    rw [allNodes_node] at hm
    exact forall_mem_cons.mpr (hsections hs) m hm

/-! ### Outlines -/

/-- The outline of a node. -/
inductive Outline where
  | node (kind : String) (name : Except Fault (Option String))
      (operands : List (Role × Option String))
      (parts : List Outline)

/-- The outlines of the nodes in a node. -/
def Outline.parts : Outline → List Outline
  | .node _ _ _ parts => parts

mutual

/-- The outline of an element, if it is a node. -/
def outlines : Element → List Outline
  | .token _ => []
  | .node h cs =>
    [.node h.kind.name (declaredName ⟨h, cs⟩) (h.operands.map (Prod.map id Operand.name))
      (outlinesOf cs)]

/-- The outlines of some elements, one after the other. -/
def outlinesOf : List Element → List Outline
  | [] => []
  | e :: es => outlines e ++ outlinesOf es

end

theorem outlinesOf_append (es es' : List Element) :
    outlinesOf (es ++ es') = outlinesOf es ++ outlinesOf es' := by
  induction es with
  | nil => rw [outlinesOf, nil_append, nil_append]
  | cons e es ih => rw [cons_append, outlinesOf, ih, outlinesOf, append_assoc]

theorem outlines_token (t : Token) : outlines (.token t) = [] := by
  rw [outlines]

theorem outlinesOf_of_tokens (h : ∀ e ∈ es, ∃ t, e = .token t) : outlinesOf es = [] := by
  induction es with
  | nil => rw [outlinesOf]
  | cons e es ih =>
    obtain ⟨⟨t, rfl⟩, hes⟩ := forall_mem_cons.mp h
    rw [outlinesOf, outlines_token, ih hes, nil_append]

/-- Blanks and comments are not in the outline. -/
theorem outlinesOf_code (es : List Element) : outlinesOf (code es) = outlinesOf es := by
  induction es with
  | nil => rfl
  | cons e es ih =>
    rw [outlinesOf]
    cases hcode : e.isCode with
    | true => rw [code_cons_of_isCode hcode, outlinesOf, ih]
    | false =>
      obtain ⟨⟨t, rfl⟩, -⟩ := isPlain_of_not_isCode hcode
      rw [code_cons_of_not_isCode hcode, ih, outlines_token, nil_append]

/-! ### What the outline of a node depends on -/

section Node

variable {n n' : Node}

theorem wordText_congr (h : n.code.map text = n'.code.map text) (i : Nat) :
    wordText n i = wordText n' i := by
  have hword : ∀ n : Node, wordText n i = ((n.code.map text)[i]?).elim (.error .exhausted) .ok := by
    intro n
    unfold wordText
    rw [getElem?_map]
    cases n.code[i]? <;> rfl
  rw [hword, hword, h]

theorem queryText_congr
    (h : n.head.operands.map (Prod.map id Operand.name) =
      n'.head.operands.map (Prod.map id Operand.name)) :
    queryText n = queryText n' := by
  have hlookup : ∀ operands : List (Role × Operand),
      (operands.lookup .query).map Operand.name =
        (operands.map (Prod.map id Operand.name)).lookup .query := by
    intro operands
    induction operands with
    | nil => rfl
    | cons p ps ih =>
      obtain ⟨role, operand⟩ := p
      rw [map_cons, lookup_cons, Prod.map_apply, lookup_cons]
      cases hrole : Role.query == role with
      | true => rw [id, hrole]; rfl
      | false => rw [id, hrole]; exact ih
  have hquery : ∀ n : Node, queryText n =
      ((n.head.operands.map (Prod.map id Operand.name)).lookup .query).elim
        (.error .operandMissing) .ok := by
    intro n
    unfold queryText Node.operand?
    rw [← hlookup]
    cases n.head.operands.lookup .query <;> rfl
  rw [hquery, hquery, h]

/-- The outline of a node depends on its kind, its operands, the texts in its code, and the outlines
of the nodes in it. -/
theorem outlines_congr (hkind : n.head.kind = n'.head.kind)
    (hoperands : n.head.operands.map (Prod.map id Operand.name) =
      n'.head.operands.map (Prod.map id Operand.name))
    (htexts : n.code.map text = n'.code.map text)
    (hparts : outlinesOf n.children = outlinesOf n'.children) :
    outlines n.toElement = outlines n'.toElement := by
  have hname : declaredName n = declaredName n' := by
    unfold declaredName
    rw [hkind, wordText_congr htexts, wordText_congr htexts, queryText_congr hoperands]
  unfold Node.toElement
  rw [outlines, outlines, hkind, hoperands, hparts]
  exact congrArg (fun name => [Outline.node _ name _ _]) hname

end Node

/-! ### Items that look alike -/

/-- Related words, or terms with the same rule and related words. -/
inductive Item.Like {α : Type} (R : α → α → Prop) : Item α → Item α → Prop
  | word {a b : α} (h : R a b) : Like R (.word a) (.word b)
  | term {r : Rule} {as bs : List α} (h : Forall₂ R as bs) : Like R (.term r as) (.term r bs)

theorem itemsFrom_congr {α : Type} {R : α → α → Prop} {face : α → Element}
    (hR : ∀ a b, R a b → Alike (face a) (face b)) {as bs : List α} (h : Forall₂ R as bs) (k : Nat) :
    Forall₂ (Item.Like R) (itemsFrom face k as) (itemsFrom face k bs) := by
  induction h generalizing k with
  | nil => cases k <;> exact .nil
  | @cons a b as bs hab has ih =>
    cases k with
    | succ k => exact ih k
    | zero =>
      have hfaces : Forall₂ Alike (as.map face) (bs.map face) := by
        rw [forall₂_map_left_iff, forall₂_map_right_iff]
        exact has.imp hR
      have hat := termAt_congr (hR a b hab) hfaces
      cases hterm : termAt (face a) (as.map face) with
      | none =>
        rw [itemsFrom_word hterm, itemsFrom_word (hat ▸ hterm)]
        exact .cons (.word hab) (ih 0)
      | some found =>
        obtain ⟨r, k⟩ := found
        rw [itemsFrom_term hterm, itemsFrom_term (hat ▸ hterm), ← itemsFrom_drop, ← itemsFrom_drop]
        exact .cons (.term (.cons hab (forall₂_take k has))) (ih k)

theorem TermShown.code_eq (h : TermShown r words n) : n.code = words := by
  obtain ⟨comments, opening, hlaid, hwords, -⟩ := h.parts
  rw [hlaid.code, hwords, show code [] = [] from rfl, append_nil, append_nil]

theorem map_text_congr (h : Forall₂ Alike es es') : es.map text = es'.map text := by
  induction h with
  | nil => rfl
  | cons he _ ih => rw [map_cons, map_cons, he.text, ih]

/-- Terms of words that look alike have the same outline. -/
theorem outlines_term_congr {words' : List Element} (hwords : Forall₂ Alike words words')
    (h : TermShown r words n) (h' : TermShown r words' n') :
    outlines n.toElement = outlines n'.toElement := by
  refine outlines_congr ?_ ?_ ?_ ?_
  · rw [h.kind, h'.kind]
  · rw [h.operands, h'.operands]
    exact (r.operandNames_congr hwords).1
  · rw [h.code_eq, h'.code_eq, map_text_congr hwords]
  · rw [outlinesOf_of_tokens h.tokens, outlinesOf_of_tokens h'.tokens]

/-- Words and terms that look alike have the same texts and outlines. -/
theorem outlinesOf_words_congr {items items' : List (Item Element)}
    (hitems : Forall₂ (Item.Like Alike) items items') (h : Forall₂ WordShown es items)
    (h' : Forall₂ WordShown es' items') :
    es.map text = es'.map text ∧ outlinesOf es = outlinesOf es' := by
  induction hitems generalizing es es' with
  | nil =>
    cases h
    cases h'
    exact ⟨rfl, rfl⟩
  | cons hitem _ ih =>
    obtain ⟨e, es, he, hes, rfl⟩ := forall₂_cons_right_iff.mp h
    obtain ⟨e', es', he', hes', rfl⟩ := forall₂_cons_right_iff.mp h'
    obtain ⟨htexts, houtlines⟩ := ih hes hes'
    rw [map_cons, map_cons, htexts, outlinesOf, outlinesOf, houtlines]
    cases hitem with
    | word hword =>
      cases he
      cases he'
      rw [hword.text, outlines_token, outlines_token]
      exact ⟨rfl, rfl⟩
    | term hwords =>
      cases he with
      | term hterm =>
        cases he' with
        | term hterm' =>
          rw [outlines_term_congr hwords hterm hterm']
          exact ⟨rfl, rfl⟩

/-- Sections that look alike have the same outline. -/
theorem outlines_section_congr {s' : Section} (hs : s.Like Alike F s')
    (h : s.Read n) (h' : s'.Read n') : outlines n.toElement = outlines n'.toElement := by
  obtain ⟨comments, opening, body, closing, hlaid, htokens, -, hopening, hbody, hclosing⟩ := h.parts
  obtain ⟨comments', opening', body', closing', hlaid', htokens', -, hopening', hbody',
    hclosing'⟩ := h'.parts
  have hitems : Forall₂ (Item.Like Alike) (itemsFrom id 0 s.body) (itemsFrom id 0 s'.body) :=
    itemsFrom_congr (fun _ _ h => h) hs.body 0
  obtain ⟨htexts, houtlines⟩ := outlinesOf_words_congr hitems hbody hbody'
  -- only the inner parts hold nodes
  have hinner : ∀ {n : Node} {comments opening body closing : List Element},
    n.Laid comments opening body closing →
      (∀ e ∈ comments ++ opening ++ closing, ∃ t, e = .token t) →
        outlinesOf n.children = outlinesOf (code body) := by
    intro n comments opening body closing hlaid htokens
    simp only [forall_mem_append] at htokens
    obtain ⟨⟨hcomments, hopening⟩, hclosing⟩ := htokens
    rw [hlaid.children, outlinesOf_append, outlinesOf_append, outlinesOf_append,
      outlinesOf_of_tokens hcomments, outlinesOf_of_tokens hopening, outlinesOf_of_tokens hclosing,
      append_nil, nil_append, nil_append, outlinesOf_code]
  refine outlines_congr ?_ ?_ ?_ ?_
  · rw [h.kind, h'.kind, hs.rule]
  · rw [h.operands, h'.operands, ← hs.rule]
    exact (s.rule.operandNames_congr (rel_append (rel_append hs.opening hs.body) hs.closing)).1
  · rw [hlaid.code, hlaid'.code, hopening, hopening', hclosing, hclosing']
    simp only [map_append]
    rw [map_text_congr hs.opening, htexts, map_text_congr hs.closing]
  · rw [hinner hlaid htokens, hinner hlaid' htokens', houtlines]

/-- **Programs whose parts look alike have the same outline.** -/
theorem outlinesOf_parts_congr {items items' : List (Item Piece)}
    (hitems : Forall₂ (Item.Like (Piece.Like Alike F)) items items')
    (h : Forall₂ PartShown es items) (h' : Forall₂ PartShown es' items') :
    outlinesOf es = outlinesOf es' := by
  induction hitems generalizing es es' with
  | nil =>
    cases h
    cases h'
    rfl
  | cons hitem _ ih =>
    obtain ⟨e, es, he, hes, rfl⟩ := forall₂_cons_right_iff.mp h
    obtain ⟨e', es', he', hes', rfl⟩ := forall₂_cons_right_iff.mp h'
    rw [outlinesOf, outlinesOf, ih hes hes']
    congr 1
    cases hitem with
    | word hpiece =>
      cases hpiece with
      | loose =>
        cases he
        cases he'
        rw [outlines_token, outlines_token]
      | part hs =>
        cases he with
        | part hread =>
          cases he' with
          | part hread' => exact outlines_section_congr hs hread hread'
    | term hpieces =>
      cases he with
      | @term r words n hterm =>
        cases he' with
        | @term _ words' n' hterm' =>
          rw [forall₂_map_left_iff, forall₂_map_right_iff] at hpieces
          have hwords : Forall₂ Alike words words' := by
            refine hpieces.imp ?_
            rintro e e' ⟨h⟩
            exact h
          exact outlines_term_congr hwords hterm hterm'

end Language

end EztScan
