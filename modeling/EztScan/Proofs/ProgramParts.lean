import EztScan.Proofs.TermStage

/-!
# The parts of a program

What the three stages make of a source, put together. The parts of a program are the sections that
`divide` finds behind its first token, the loose words, and the terms among these; in a section are
its own terms. `program_of_parse` says that a source which is read without a fault comes out as one
program whose code shows these parts, and nothing in it depends on anything but the tokens.

Lists of elements that look alike are divided alike, as far as they do and whatever comes then, if
only its code looks alike (`divide_append`). Blanks and comments make no difference except where a
section begins with one of them (`divide_skip`).
-/

namespace EztScan.Language

open Element Grouping List

variable {e : Element} {es : List Element} {state state' : Option (Section × Nat)} {p : Piece}
  {depth : Nat} {way : List NodeKind} {t : Token} {ts : List Token}
variable {r : Rule} {s : Section} {n : Node} {x : Element} {source : String}

/-! ### Dividing lists that look alike -/

/-- Sections with the same rule and with related code. The elements that they begin with, which need
not be code, are related by `F`. -/
structure Section.Like (R F : Element → Element → Prop) (s s' : Section) : Prop where
  mem : s.rule ∈ sectionRules
  rule : s.rule = s'.rule
  first : F s.first s'.first
  opening : Forall₂ R s.opening s'.opening
  body : Forall₂ R s.body s'.body
  closing : Forall₂ R s.closing s'.closing

/-- Related words, or sections with related code. -/
inductive Piece.Like (R F : Element → Element → Prop) : Piece → Piece → Prop
  | loose {e e' : Element} (h : R e e') : Like R F (.loose e) (.loose e')
  | part {s s' : Section} (h : s.Like R F s') : Like R F (.part s) (.part s')

/-- States with related sections, which lack as many elements of their opening. -/
inductive StateLike (R F : Element → Element → Prop) :
    Option (Section × Nat) → Option (Section × Nat) → Prop
  | idle : StateLike R F none none
  | busy {s s' : Section} {k : Nat} (h : s.Like R F s') : StateLike R F (some (s, k)) (some (s', k))

theorem mem_of_sectionAt {k : Nat} (h : sectionAt e es = some (r, k)) : r ∈ sectionRules :=
  mem_of_mem_rulesFor (mem_of_firstReads h).1

section Like

variable {R F : Element → Element → Prop} {s s' : Section} {e e' : Element} {es es' : List Element}
variable (hR : ∀ e e', R e e' → Alike e e') (hF : ∀ e e', R e e' → F e e')
  (hstate : StateLike R F state state')

include hR hF hstate

/-- Two lists are divided alike at their first elements. -/
theorem divide_cons (he : R e e') (hes : Forall₂ R (code es) (code es')) :
    ∃ pieces pieces' next next', Forall₂ (Piece.Like R F) pieces pieces' ∧
      StateLike R F next next' ∧
      divide state (e :: es) = pieces ++ divide next es ∧
        divide state' (e' :: es') = pieces' ++ divide next' es' := by
  have hcode : Forall₂ R (code [e]) (code [e']) := forall₂_code hR (.cons he .nil)
  have hat : sectionAt e (code es) = sectionAt e' (code es') :=
    sectionAt_congr (hR e e' he) (hes.imp hR)
  have hbegin : ∀ {r k}, sectionAt e (code es) = some (r, k) →
      StateLike R F (some (.start r e, k)) (some (.start r e', k)) :=
    fun h => .busy ⟨mem_of_sectionAt h, rfl, hF e e' he, hcode, .nil, .nil⟩
  cases hstate with
  | idle =>
    cases hsection : sectionAt e (code es) with
    | some found =>
      obtain ⟨r, k⟩ := found
      exact ⟨[], [], _, _, .nil, hbegin hsection, divide_begin hsection,
        divide_begin (hat ▸ hsection)⟩
    | none =>
      refine ⟨_, _, none, none, ?_, .idle, divide_loose hsection, divide_loose (hat ▸ hsection)⟩
      rw [forall₂_map_left_iff, forall₂_map_right_iff]
      exact hcode.imp fun _ _ h => .loose h
  | @busy s s' k h =>
    cases k with
    | succ k =>
      -- as long as the opening lacks some code, nothing is asked about an element
      have hcount : (if e.isCode then k else k + 1) = if e'.isCode then k else k + 1 := by
        rw [(hR e e' he).isCode]
      refine ⟨[], [], some (s.unfold [e], if e.isCode then k else k + 1), some (s'.unfold [e'], _),
        .nil,
        .busy ⟨h.mem, h.rule, h.first, rel_append h.opening hcode, h.body, h.closing⟩, rfl, ?_⟩
      rw [hcount]
      rfl
    | zero =>
      have hcloses : closes s'.rule e' = closes s.rule e := by
        rw [← h.rule, closes_congr h.mem (hR e e' he)]
      cases hclose : closes s.rule e with
      | true =>
        have hclosed : (s.close [e]).Like R F (s'.close [e']) :=
          ⟨h.mem, h.rule, h.first, h.opening, h.body, hcode⟩
        exact ⟨[_], [_], none, none, .cons (.part hclosed) .nil, .idle, divide_close hclose,
          divide_close (hcloses.trans hclose)⟩
      | false =>
        cases hsection : sectionAt e (code es) with
        | some found =>
          obtain ⟨r, k⟩ := found
          exact ⟨[_], [_], _, _, .cons (.part h) .nil, hbegin hsection,
            divide_interrupt hclose hsection,
            divide_interrupt (hcloses.trans hclose) (hat ▸ hsection)⟩
        | none =>
          have hextended : (s.extend [e]).Like R F (s'.extend [e']) :=
            ⟨h.mem, h.rule, h.first, h.opening, rel_append h.body hcode, h.closing⟩
          exact ⟨[], [], _, _, .nil, .busy hextended, divide_extend hclose hsection,
            divide_extend (hcloses.trans hclose) (hat ▸ hsection)⟩

/-- **Lists that look alike are divided alike**, whatever comes behind them, as long as its code
looks alike. -/
theorem divide_append (hes : Forall₂ R es es') {rest rest' : List Element}
    (hrest : Forall₂ R (code rest) (code rest')) :
    ∃ pieces pieces' next next', Forall₂ (Piece.Like R F) pieces pieces' ∧
      StateLike R F next next' ∧
      divide state (es ++ rest) = pieces ++ divide next rest ∧
      divide state' (es' ++ rest') = pieces' ++ divide next' rest' := by
  induction hes generalizing state state' with
  | nil => exact ⟨[], [], state, state', .nil, hstate, rfl, rfl⟩
  | @cons e e' es es' he hes ih =>
    have hcode : Forall₂ R (code (es ++ rest)) (code (es' ++ rest')) := by
      rw [code_append, code_append]
      exact rel_append (forall₂_code hR hes) hrest
    obtain ⟨new, new', state₁, state₁', hnew, hstate₁, hdivide, hdivide'⟩ :=
      divide_cons hR hF hstate he hcode
    obtain ⟨pieces, pieces', next, next', hpieces, hnext, hrest, hrest'⟩ := ih hstate₁
    refine ⟨new ++ pieces, new' ++ pieces', next, next', rel_append hnew hpieces, hnext, ?_, ?_⟩
    · rw [cons_append, hdivide, hrest, append_assoc]
    · rw [cons_append, hdivide', hrest', append_assoc]

theorem divide_congr (hes : Forall₂ R es es') :
    Forall₂ (Piece.Like R F) (divide state es) (divide state' es') := by
  have hnil : Forall₂ R (code []) (code []) := .nil
  obtain ⟨pieces, pieces', next, next', hpieces, hnext, hdivide, hdivide'⟩ :=
    divide_append hR hF hstate hes hnil
  rw [append_nil] at hdivide hdivide'
  rw [hdivide, hdivide']
  refine rel_append hpieces ?_
  cases hnext with
  | idle => exact .nil
  | busy h => exact .cons (.part h) .nil

end Like

theorem Section.Like.eq {s' : Section} (h : s.Like Eq Eq s') : s = s' := by
  obtain ⟨-, hrule, hfirst, hopening, hbody, hclosing⟩ := h
  rw [forall₂_eq_eq_eq] at hopening hbody hclosing
  cases s
  cases s'
  simp_all

theorem Piece.Like.eq {p' : Piece} (h : p.Like Eq Eq p') : p = p' := by
  cases h with
  | loose h => rw [h]
  | part h => rw [h.eq]

/-! ### Blanks and comments -/

theorem isWord_of_spells {text : String} (htext : text.toList.all Text.isWordChar = true)
    (h : e.spells text = true) : e.IsWord :=
  ⟨text, lowerText_of_spells h, all_eq_true.mp htext⟩

theorem keywordRule_of_not_isWord (h : ¬ e.IsWord) : keywordRule e = none := by
  have hwords : keywords.all (fun k => k.1.toList.all Text.isWordChar) = true := by decide
  unfold keywordRule
  rw [find?_eq_none.mpr fun k hk hspells =>
    h (isWord_of_spells (all_eq_true.mp hwords k hk) hspells)]
  rfl

theorem closes_of_not_isWord (hr : r ∈ sectionRules) (h : ¬ e.IsWord) : closes r e = false :=
  Bool.eq_false_iff.mpr fun hcloses =>
    h (isWord_of_spells (by decide) (spells_of_closes hr hcloses))

theorem Section.unfold_of_not_isCode (s : Section) (h : e.isCode = false) : s.unfold [e] = s := by
  unfold Section.unfold
  rw [code_cons_of_not_isCode h, show code [] = [] from rfl, append_nil]

/-- The element is a blank or a comment, and not taken for a word. -/
def Idle (e : Element) : Prop :=
  e.isCode = false ∧ ¬ e.IsWord

/-- A blank or a comment changes nothing if it begins no section, as it cannot while an opening is
not complete. -/
theorem divide_skip (hstate : ∀ s k, state = some (s, k) → s.rule ∈ sectionRules) (he : Idle e)
    (hnone : (∃ s k, state = some (s, k + 1)) ∨ sectionAt e (code es) = none) :
    divide state (e :: es) = divide state es := by
  obtain ⟨hcode, hword⟩ := he
  cases state with
  | none =>
    obtain ⟨s, k, hsome⟩ | hnone := hnone
    · exact nomatch hsome
    rw [divide_loose hnone, code_cons_of_not_isCode hcode]
    rfl
  | some p =>
    obtain ⟨s, k⟩ := p
    cases k with
    | succ k =>
      change divide (some (s.unfold [e], if e.isCode then k else k + 1)) es = _
      rw [hcode, if_neg Bool.false_ne_true, s.unfold_of_not_isCode hcode]
    | zero =>
      obtain ⟨s', k, hsome⟩ | hnone := hnone
      · exact nomatch hsome
      have hopen := closes_of_not_isWord (hstate s 0 rfl) hword
      rw [divide_extend hopen hnone, s.extend_of_not_isCode hcode]

/-- Blanks and comments at the end make no pieces and belong to none. -/
theorem divide_append_idle (es : List Element) {idle : List Element} (hidle : ∀ x ∈ idle, Idle x) :
    divide none (es ++ idle) = divide none es := by
  -- without code behind it, a blank or a comment begins nothing
  have hend : ∀ {state : Option (Section × Nat)},
      (∀ s k, state = some (s, k) → s.rule ∈ sectionRules) →
      divide state idle = divide state [] := by
    intro state hstate
    induction idle with
    | nil => rfl
    | cons x idle ih =>
      obtain ⟨hx, hidle⟩ := forall_mem_cons.mp hidle
      have hnone : sectionAt x (code idle) = none := by
        rw [code_eq_nil fun x hx => (hidle x hx).1, sectionAt_eq, keywordRule_of_not_isWord hx.2]
        rfl
      rw [divide_skip hstate hx (.inr hnone), ih hidle]
  have hcode : Forall₂ Eq (code idle) (code []) := by
    rw [code_eq_nil fun x hx => (hidle x hx).1]
    exact .nil
  obtain ⟨pieces, pieces', next, next', hpieces, hnext, hdivide, hdivide'⟩ :=
    divide_append (R := Eq) (F := Eq) (fun e e' h => h ▸ .refl e)
      (fun _ _ h => h) .idle (forall₂_refl es) hcode
  rw [append_nil] at hdivide'
  rw [hdivide, hdivide', forall₂_eq_eq_eq.le _ _ (hpieces.imp fun _ _ h => h.eq)]
  cases hnext with
  | idle =>
    have hnone : divide none idle = divide none [] := hend fun _ _ h => nomatch h
    rw [hnone]
  | @busy s s' k h =>
    have hmem : ∀ s₁ k₁, some (s, k) = some (s₁, k₁) → s₁.rule ∈ sectionRules := by
      rintro s₁ k₁ ⟨⟩
      exact h.mem
    rw [hend hmem, h.eq]

/-! ### What is read of a section -/

theorem exists_mem_of_forall₂ {α β : Type} {R : α → β → Prop} {as : List α} {bs : List β}
    (h : Forall₂ R as bs) {b : β} (hb : b ∈ bs) : ∃ a ∈ as, R a b := by
  induction h with
  | nil => cases hb
  | @cons a b' as bs hab _ ih =>
    rcases mem_cons.mp hb with rfl | hb
    · exact ⟨a, mem_cons_self, hab⟩
    · obtain ⟨a', ha', hr⟩ := ih hb
      exact ⟨a', mem_cons_of_mem a ha', hr⟩


/-- A token that stays what it was, or a term of some of the words. -/
inductive WordShown : Element → Item Element → Prop
  | word (t : Token) : WordShown (.token t) (.word (.token t))
  | term {r : Rule} {words : List Element} {n : Node} (h : TermShown r words n) :
      WordShown n.toElement (.term r words)

/-- The node is read as the section, with the terms that its inner part has. -/
structure Section.Read (s : Section) (n : Node) : Prop where
  rule : s.rule ∈ sectionRules
  kind : n.head.kind = s.rule.kind
  operands : n.head.operands = s.rule.operandsOf s.words
  complete : s.rule.faultOf s.words = none
  parts : ∃ comments opening body closing, n.Laid comments opening body closing ∧
    (∀ e ∈ comments ++ opening ++ closing, ∃ t, e = .token t) ∧ opening.head? = some s.first ∧
    code opening = s.opening ∧
    Forall₂ WordShown (code body) (itemsFrom id 0 s.body) ∧ code closing = s.closing

/-- Around the inner part of a node, tokens stay, and the inner part is grouped. -/
theorem rebuilt_node {index : Index} {e' : Element}
    (h : Rebuilt (Stage.regroup (.everywhere index) [] (depth + 1) way) n.toElement e')
    (hfront : ∀ x ∈ n.front, ∃ t, x = .token t) (hback : ∀ x ∈ n.back, ∃ t, x = .token t) :
    ∃ middle, e' = Node.toElement ⟨n.head, n.front ++ middle ++ n.back⟩ ∧
      Grouped index (Stage.regroup (.everywhere index) [] depth (way ++ [n.head.kind]))
        {} n.inner middle := by
  obtain ⟨l, n', l', hruns, rfl⟩ := h
  obtain ⟨front, middle, back, rfl, ⟨index', hindex, hmiddle⟩, haround⟩ :=
    Stage.parts_of_runs_regroup hruns
  obtain rfl : index = index' := Except.ok.inj hindex
  have hsame : ∀ {es es' : List Element},
      Forall₂ (fun e e' => (∃ t, e = Element.token t) → e' = e) es es' →
        (∀ x ∈ es, ∃ t, x = .token t) → es' = es :=
    eq_of_forall₂ fun h => h
  obtain ⟨hf, hb⟩ := haround (R := fun _ e e' => (∃ t, e = .token t) → e' = e)
    ⟨fun _ _ _ => rfl, fun _ _ _ ⟨_, h⟩ => nomatch h⟩
  rw [hsame hf hfront, hsame hb hback]
  exact ⟨middle, rfl, hmiddle⟩

theorem mem_leavesOfList (he : e ∈ es) (ht : t ∈ e.leaves) : t ∈ leavesOfList es := by
  obtain ⟨before, after, rfl⟩ := append_of_mem he
  rw [leavesOfList_append, leavesOfList_cons]
  exact mem_append_right _ (mem_append_left _ ht)

theorem mem_leavesOfList_of_token (ht : .token t ∈ es) : t ∈ leavesOfList es :=
  mem_leavesOfList ht (by rw [leaves_token]; exact mem_singleton_self t)

/-- The tokens of a node are among those of the elements that it is one of. -/
theorem leavesOfList_subset_of_mem {n : Node} (hn : n.toElement ∈ es) :
    leavesOfList n.children ⊆ leavesOfList es := by
  refine fun t ht => mem_leavesOfList hn ?_
  rw [Node.toElement, leaves_node]
  exact ht

theorem not_isWord_of_lexed (hes : ∀ t ∈ leavesOfList es, Lexer.Lexed t) (hx : x ∈ es)
    (hidle : x.isCode = false) : ¬ x.IsWord := by
  obtain ⟨⟨t, rfl⟩, -⟩ := isPlain_of_not_isCode hidle
  exact (hes t (mem_leavesOfList_of_token hx)).not_isWord hidle

/-- The third stage goes into a section and finds the terms there. -/
theorem Section.Shown.read (hs : s.Shown n) (hlexed : ∀ t ∈ leavesOfList n.children, Lexer.Lexed t)
    (h : Rebuilt (Stage.regroup (.everywhere termIndex) [] (depth + 1) way) n.toElement x) :
    ∃ n' : Node, x = n'.toElement ∧ s.Read n' := by
  obtain ⟨comments, opening, body, closing, hparts⟩ := hs.parts
  have htokens := hparts.tokens
  rw [hparts.children] at htokens hlexed
  simp only [forall_mem_append] at htokens
  obtain ⟨⟨⟨hc, ho⟩, hb⟩, hcl⟩ := htokens
  -- around the inner part there are tokens, which stay as they are
  obtain ⟨middle, rfl, hmiddle⟩ := rebuilt_node h
    (by rw [hparts.front]; exact forall_mem_append.mpr ⟨hc, ho⟩) (by rw [hparts.back]; exact hcl)
  rw [hparts.inner] at hmiddle
  refine ⟨_, rfl, hs.rule, hparts.kind, hs.operands, hs.complete, comments, opening, middle,
    closing, hparts.replace middle, ?_, hparts.first, hparts.opening_code, ?_, hparts.closing_code⟩
  · simp only [forall_mem_append]
    exact ⟨⟨hc, ho⟩, hcl⟩
  have hwords : ∀ x ∈ body, x.isCode = false → ¬ x.IsWord := fun x hx =>
    not_isWord_of_lexed hlexed (mem_append_left _ (mem_append_right _ hx))
  have halike : ∀ e a : Element, (e = a ∧ ∃ t, a = .token t) → Alike e (id a) := by
    rintro e a ⟨rfl, -⟩
    exact .refl e
  have hitems := grouped_items halike hmiddle hwords
    (forall₂_same.mpr fun x hx => ⟨rfl, hb x (mem_of_mem_filter hx)⟩)
  rw [hparts.body_code] at hitems
  refine hitems.imp fun x item hitem => ?_
  cases hitem with
  | word ha hx =>
    obtain ⟨rfl, t, rfl⟩ := ha
    obtain rfl := hx
    exact .word t
  | @term r n' es as has hn =>
    obtain rfl : es = as := forall₂_eq_eq_eq.le _ _ (has.imp fun _ _ h => h.1)
    exact .term hn

/-! ### What is read of a program -/

/-- How a piece looks to the patterns. -/
def Piece.face : Piece → Element
  | .loose e => e
  | .part s => .node { kind := s.rule.kind } []

/-- What a program has behind its first token, if these are the other tokens. -/
def programItems (ts : List Token) : List (Item Piece) :=
  itemsFrom Piece.face 0 (divide none (ts.map .token))

/-- The section that a piece is. -/
def Piece.part? : Piece → Option Section
  | .loose _ => none
  | .part s => some s

/-- The section that a part of a program is. -/
def Item.part? : Item Piece → Option Section
  | .word p => p.part?
  | .term .. => none

theorem part_eq_none_of_token (h : p.face = .token t) : p.part? = none := by
  cases p with
  | loose => rfl
  | part => cases h

theorem filterMap_cons_toList {α β : Type} (f : α → Option β) (a : α) (as : List α) :
    (a :: as).filterMap f = (f a).toList ++ as.filterMap f := by
  rw [filterMap_eq_flatMap_toList, flatMap_cons, ← filterMap_eq_flatMap_toList]

/-- Terms are made of loose words, so that they leave all sections. -/
theorem parts_itemsFrom (k : Nat) (ps : List Piece) :
    (itemsFrom Piece.face k ps).filterMap Item.part? = (ps.drop k).filterMap Piece.part? := by
  induction ps generalizing k with
  | nil => cases k <;> rfl
  | cons p ps ih =>
    cases k with
    | succ k => exact ih k
    | zero =>
      cases hterm : termAt p.face (ps.map Piece.face) with
      | none =>
        rw [itemsFrom_word hterm, filterMap_cons_toList, ih 0, drop_zero, drop_zero,
          filterMap_cons_toList]
        rfl
      | some found =>
        obtain ⟨r, k⟩ := found
        obtain ⟨⟨t, ht⟩, htokens⟩ := tokens_of_termAt hterm
        have hnone : (ps.take k).filterMap Piece.part? = [] := by
          refine filterMap_eq_nil_iff.mpr fun q hq => ?_
          obtain ⟨u, hu⟩ := htokens q.face (map_take ▸ mem_map_of_mem hq)
          exact part_eq_none_of_token hu
        have hsplit : ps.filterMap Piece.part? = (ps.drop k).filterMap Piece.part? := by
          rw [← take_append_drop k ps, filterMap_append, hnone, take_append_drop, nil_append]
        rw [itemsFrom_term hterm, filterMap_cons_toList, ← itemsFrom_drop, ih k, drop_zero,
          filterMap_cons_toList, part_eq_none_of_token ht, hsplit]
        rfl

/-- A token that stays what it was, a section with its terms, or a term of loose words. -/
inductive PartShown : Element → Item Piece → Prop
  | word (t : Token) : PartShown (.token t) (.word (.loose (.token t)))
  | part {s : Section} {n : Node} (h : s.Read n) : PartShown n.toElement (.word (.part s))
  | term {r : Rule} {words : List Element} {n : Node} (h : TermShown r words n) :
    PartShown n.toElement (.term r (words.map .loose))

theorem eq_loose_of_shown (h : Piece.Shown (.token t) p) : p = .loose (.token t) := by
  cases h with
  | loose => rfl

theorem alike_of_shown (h : Piece.Shown e p) : Alike e p.face := by
  cases h with
  | loose => exact .refl _
  | part => exact .node ..

/-- The third stage goes into a program and finds the terms there and in the sections. -/
theorem shown_of_grouped {middle : List Element} {pieces : List Piece}
    (hes : Forall₂ Piece.Shown (code es) pieces) (hlexed : ∀ t ∈ leavesOfList es, Lexer.Lexed t)
    (h : Grouped termIndex (Stage.regroup (.everywhere termIndex) [] (depth + 1) way)
      {} es middle) :
    Forall₂ PartShown (code middle) (itemsFrom Piece.face 0 pieces) := by
  have hboth : Forall₂ (fun e p => (∀ t ∈ e.leaves, Lexer.Lexed t) ∧ Piece.Shown e p)
      (code es) pieces :=
    (forall₂_and_left _ _).mpr
      ⟨fun e he t ht => hlexed t (mem_leavesOfList (mem_of_mem_filter he) ht), hes⟩
  have hitems := grouped_items (fun e p h => alike_of_shown h.2) h
    (fun x hx => not_isWord_of_lexed hlexed hx) hboth
  refine hitems.imp fun x item hitem => ?_
  cases hitem with
  | word ha hx =>
    obtain ⟨hleaves, hshown⟩ := ha
    cases hshown with
    | loose t =>
      obtain rfl := hx
      exact .word t
    | part hs =>
      obtain ⟨n', rfl, hread⟩ :=
        hs.read (fun t ht => hleaves t (by rwa [Node.toElement, leaves_node])) hx
      exact .part hread
  | @term r n words as has hn =>
    obtain ⟨comments, opening, hlaid, rfl, -⟩ := hn.parts
    have htokens : ∀ x ∈ code opening, ∃ t, x = .token t := by
      intro x hx
      refine hn.tokens x ?_
      rw [hlaid.children, append_nil, append_nil]
      exact mem_append_right _ (mem_of_mem_filter hx)
    -- only tokens belong to a term, so that its pieces are loose words
    have hloose : Forall₂ Eq ((code opening).map .loose) as := by
      rw [forall₂_map_left_iff]
      refine ((forall₂_and_left _ _).mpr ⟨htokens, has⟩).imp ?_
      rintro e p ⟨⟨t, rfl⟩, -, hp⟩
      exact (eq_loose_of_shown hp).symm
    obtain rfl := forall₂_eq_eq_eq.le _ _ hloose
    exact .term hn

/-- The node is a program that begins with this token and goes on with those. -/
structure ProgramRead (t : Token) (ts : List Token) (n : Node) : Prop where
  kind : n.head.kind = program.kind
  operands : n.head.operands = []
  parts : ∃ body, n.Laid [] [.token t] body [] ∧ Forall₂ PartShown (code body) (programItems ts)

/-- The node is a program with these tokens, the first one and the others, of which the sections
have been found. -/
structure ProgramDivided (t : Token) (ts : List Token) (n : Node) : Prop where
  kind : n.head.kind = program.kind
  operands : n.head.operands = []
  parts : ∃ body, n.Laid [] [.token t] body [] ∧
    Forall₂ Piece.Shown (code body) (divide none (ts.map .token)) ∧
    ∀ t ∈ leavesOfList body, Lexer.Lexed t

/-- The comments at the end make no pieces. -/
theorem divide_of_append_trailingComments (hts : ∀ c ∈ trailingComments ts, Lexer.Lexed c)
    {inner : List Element} (hinner : inner ++ (trailingComments ts).map .token = ts.map .token) :
    divide none inner = divide none (ts.map .token) := by
  rw [← hinner, divide_append_idle inner]
  intro x hx
  obtain ⟨c, hc, rfl⟩ := mem_map.mp hx
  have hidle := not_isCode_of_mem_trailingComments hc
  exact ⟨hidle, (hts c hc).not_isWord hidle⟩

/-- **What the first two stages make of a source**: one program with its sections, and behind it the
comments at the end. -/
theorem divided_of_grouped {out₁ out₂ : List Element} (hlexed : ∀ u ∈ t :: ts, Lexer.Lexed u)
    {regroup : Node → Work Ledger Node}
    (hg₁ : Grouped programIndex regroup {} (.token t :: ts.map .token) out₁)
    (hg₂ : Grouped sectionIndex (Stage.regroup (.everywhere sectionIndex) [] (depth + 1) [])
      {} out₁ out₂) :
    ∃ n : Node, out₂ = n.toElement :: (trailingComments ts).map .token ∧ ProgramDivided t ts n := by
  have hcomments := forall_mem_trailingComments hlexed
  obtain ⟨n, inner, rfl, hkind, hoperands, hsections, hchildren, hwaits, hinner⟩ := laid_program hg₁
  have hlaid : n.Laid [] [.token t] inner [] :=
    ⟨by rw [hchildren, append_nil]; rfl, by rw [hsections]; rfl, forall_mem_nil _⟩
  have hplain : ∀ e ∈ inner, e.IsPlain := by
    intro e he
    have hmem : e ∈ ts.map Element.token := hinner ▸ mem_append_left _ he
    obtain ⟨t', ht', rfl⟩ := mem_map.mp hmem
    exact ⟨⟨t', rfl⟩, (hlexed t' (mem_cons_of_mem t ht')).overtakes⟩
  obtain ⟨e₂, he₂, rfl⟩ := grouped_sections hcomments hg₂
  obtain ⟨middle, rfl, hmiddle⟩ := rebuilt_node he₂
    (by rw [hlaid.front]; exact fun x hx => ⟨t, mem_singleton.mp hx⟩)
    (by rw [hlaid.back]; exact forall_mem_nil _)
  have hpieces := grouped_divides (hlaid.inner ▸ hmiddle) fun x hx => (hplain x hx).1
  rw [divide_of_append_trailingComments hcomments hinner] at hpieces
  refine ⟨_, rfl, hkind, hoperands, middle, hlaid.replace middle, hpieces, ?_⟩
  -- the tokens are still those of the source
  obtain ⟨cs, hcs, -, hleaves⟩ := restored_of_plain rfl rfl he₂ hlaid.fit
    (by
      rw [hchildren]
      exact forall_mem_cons.mpr ⟨⟨⟨t, rfl⟩, (hlexed t mem_cons_self).overtakes⟩, hplain⟩)
    (by rw [hlaid.inner]; exact hwaits)
  obtain ⟨-, rfl⟩ := Element.node.inj hcs
  intro u hu
  have hmem : u ∈ leavesOfList n.children := by
    rw [← hleaves, leavesOfList_append, leavesOfList_append]
    exact mem_append_left _ (mem_append_right _ hu)
  have hsource : leavesOfList inner ++ trailingComments ts = ts := by
    have hsource := congrArg leavesOfList hinner
    rwa [leavesOfList_append, leavesOfList_map_token, leavesOfList_map_token] at hsource
  rw [hchildren, leavesOfList_cons, leaves_token] at hmem
  refine hlexed u (mem_cons.mpr ((mem_cons.mp hmem).imp_right fun hmem => ?_))
  exact hsource ▸ mem_append_left _ hmem

/-- **What becomes of the tokens of a program**: one program with the sections and the terms of
them, and behind it the comments at the end. -/
theorem program_of_parseAll (hlexed : ∀ u ∈ t :: ts, Lexer.Lexed u)
    (hfault : (Scope.parseAll programScopes (t :: ts)).fault = none) :
    ∃ n : Node, (Scope.parseAll programScopes (t :: ts)).elements =
      n.toElement :: (trailingComments ts).map .token ∧
      ProgramRead t ts n := by
  have hpassed := passed_of_parseAll hfault
  have hcomments := forall_mem_trailingComments hlexed
  generalize (Scope.parseAll programScopes (t :: ts)).elements = elements at hpassed ⊢
  rcases hpassed with _ | ⟨hg₁, _ | ⟨hg₂, _ | ⟨hg₃, hdone⟩⟩⟩
  cases hdone with
  | nil =>
    obtain ⟨n, rfl, hdivided⟩ := divided_of_grouped hlexed hg₁ hg₂
    obtain ⟨body, hlaid, hpieces, hbody⟩ := hdivided.parts
    -- the third stage finds the terms
    obtain ⟨e₃, he₃, rfl⟩ := grouped_terms hcomments hg₃
    obtain ⟨middle, rfl, hmiddle⟩ := rebuilt_node he₃
      (by rw [hlaid.front]; exact fun x hx => ⟨t, mem_singleton.mp hx⟩)
      (by rw [hlaid.back]; exact forall_mem_nil _)
    refine ⟨_, rfl, hdivided.kind, hdivided.operands, middle, hlaid.replace middle, ?_⟩
    exact shown_of_grouped hpieces hbody (hlaid.inner ▸ hmiddle)

/-- **What becomes of a source**: one program with the sections and the terms of its tokens, and
behind it the comments at the end. -/
theorem program_of_parse (hfirst : ¬ "MACRO".toList <+: source.toList)
    (hmark : ¬ "BEGIN_PROGRAM(".toList <+: source.toList) (hfault : (parse source).fault = none)
    {t : Token} {ts : List Token} (htokens : Lexer.lex source = t :: ts) :
    ∃ n : Node, (parse source).elements = n.toElement :: (trailingComments ts).map .token ∧
      ProgramRead t ts n := by
  have hparse := parse_of_unmarked hfirst hmark
  have hlexed := Lexer.lexed_lex source
  rw [htokens] at hparse hlexed
  rw [hparse] at hfault ⊢
  exact program_of_parseAll hlexed hfault

/-- Nothing comes of no elements. -/
theorem eq_nil_of_passed {scopes : List Scope} {out : List Element} (h : Passed depth scopes es out)
    (hes : es = []) : out = [] := by
  induction h with
  | nil => exact hes
  | cons hg _ ih =>
    subst hes
    obtain ⟨_, _, d', taken, closing, _, ht, hclosing, rfl⟩ := hg
    cases ht with
    | done => exact ih (eq_of_closing hclosing rfl rfl)

/-- Nothing is read of no tokens. -/
theorem elements_of_lex_nil (hfirst : ¬ "MACRO".toList <+: source.toList)
    (hmark : ¬ "BEGIN_PROGRAM(".toList <+: source.toList) (hfault : (parse source).fault = none)
    (htokens : Lexer.lex source = []) : (parse source).elements = [] :=
  eq_nil_of_passed (passed_at_depth hfirst hmark hfault) (by rw [htokens]; rfl)

end EztScan.Language
