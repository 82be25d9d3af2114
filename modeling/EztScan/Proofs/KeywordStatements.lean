import EztScan.Proofs.Outline

/-!
# Statements with a keyword

`FILE`, `JOB`, `SORT` and `REPORT` begin a section wherever they stand, except at the very beginning
of a source. The opening of a field or of a procedure may begin with any token, but what else it
takes in is never one of these words, and neither is what ends a procedure. So no keyword is
swallowed by another section (`keywords_divide`), and the sections with a keyword are there one by
one (`keyword_statements_of_parse`).
-/

namespace EztScan.Language

open Element List

variable {e : Element} {r : Rule} {k : Nat} {es : List Element}

/-! ### Keywords -/

/-- The keywords, and the names of the kinds of their statements. -/
def keywordKinds : List (String × String) :=
  [("file", "File"), ("job", "Job"), ("sort", "Sort"), ("report", "Report")]

/-- The name of the kind of statement that a token is the keyword of. Strings are never keywords. -/
def keywordKind? (t : Token) : Option String :=
  if t.isA .string then none else (keywordKinds.find? fun k => t.lowerText == some k.1).map (·.2)

/-- Is this the name of a kind of statement with a keyword? -/
def isKeywordKind (name : String) : Bool :=
  keywordKinds.any (·.2 == name)

/-- The names of the kinds of sections. -/
def sectionKinds : List String :=
  ["File", "Data", "Procedure", "Job", "Sort", "Report"]

/-- What the keyword among the elements shows: the kind of the statement, and its first code. -/
def shownKeyword (e : Element) : Option (String × Option Element) :=
  (keywordRule e).map fun p => (p.1.kind.name, some e)

/-- The kind and the first code of a section with a keyword. -/
def Section.keyword? (s : Section) : Option (String × Option Element) :=
  if isKeywordKind s.rule.kind.name then some (s.rule.kind.name, s.opening.head?) else none

/-- The keyword of a piece. -/
def Piece.keyword? (p : Piece) : Option (String × Option Element) :=
  p.part?.bind Section.keyword?

theorem keywordRule_eq_some (h : keywordRule e = some (r, k)) :
    k = 0 ∧ e.IsWord ∧ isKeywordKind r.kind.name = true := by
  have hkeywords : keywords.all
      (fun k => k.1.toList.all Text.isWordChar && isKeywordKind k.2.kind.name) = true := by
    decide
  unfold keywordRule at h
  obtain ⟨p, hp, heq⟩ := Option.map_eq_some_iff.mp h
  obtain ⟨rfl, rfl⟩ := Prod.mk.inj heq
  have hboth := all_eq_true.mp hkeywords p (mem_of_find?_eq_some hp)
  rw [Bool.and_eq_true] at hboth
  exact ⟨rfl, isWord_of_spells hboth.1 (by simpa using find?_some hp), hboth.2⟩

/-- A word with a text of its own is no keyword. -/
theorem keywordRule_of_spells {text : String} (htext : (keywords.any (·.1 == text)) = false)
    (h : e.spells text = true) : keywordRule e = none := by
  have hnone : ∀ k ∈ keywords, ¬ e.spells k.1 = true := by
    intro k hk hspells
    have heq : k.1 = text :=
      Option.some.inj ((lowerText_of_spells hspells).symm.trans (lowerText_of_spells h))
    exact Bool.false_ne_true (htext.symm.trans (any_eq_true.mpr ⟨k, hk, beq_iff_eq.mpr heq⟩))
  unfold keywordRule
  rw [find?_eq_none.mpr hnone]
  rfl

/-- Fields and procedures are no statements with a keyword, and none of the words that tell them is
a keyword. -/
theorem openerAt_eq_some (h : openerAt es = some (r, k)) :
    isKeywordKind r.kind.name = false ∧ ∀ x ∈ es.take k, keywordRule x = none := by
  have hwords : ["w", "f", "c", "s", ".", "proc"].all (fun word => !keywords.any (·.1 == word)) =
      true := by decide
  have hnone : ∀ {x : Element} {word : String}, word ∈ ["w", "f", "c", "s", ".", "proc"] →
      x.spells word = true → keywordRule x = none := by
    intro x word hword hx
    refine keywordRule_of_spells ?_ hx
    simpa using all_eq_true.mp hwords word hword
  have hdata : isKeywordKind data.kind.name = false := by decide
  have hprocedure : isKeywordKind procedure.kind.name = false := by decide
  rcases openerAt_cases h with ⟨rfl, rfl, x, xs, rfl, hletter⟩ |
    ⟨rfl, rfl, x, y, ys, rfl, hdot, hproc⟩ | ⟨rfl, rfl, x, xs, rfl, hproc⟩
  · obtain ⟨word, hword, hx⟩ := any_eq_true.mp hletter
    exact ⟨hdata, forall_mem_singleton.mpr (hnone (mem_append_left [".", "proc"] hword) hx)⟩
  · exact ⟨hprocedure, forall_mem_cons.mpr
      ⟨hnone (by simp) hdot, forall_mem_singleton.mpr (hnone (by simp) hproc)⟩⟩
  · exact ⟨hprocedure, forall_mem_singleton.mpr (hnone (by simp) hproc)⟩

/-! ### No keyword is swallowed -/

/-- What the open section shows. -/
def stateKeyword (state : Option (Section × Nat)) : List (String × Option Element) :=
  (state.bind fun p => Piece.keyword? (.part p.1)).toList

theorem stateKeyword_eq_nil {s : Section} (h : isKeywordKind s.rule.kind.name = false) :
    stateKeyword (some (s, k)) = [] := by
  change (if isKeywordKind s.rule.kind.name then some (s.rule.kind.name, s.opening.head?)
    else none).toList = []
  rw [h]
  rfl

/-- A section whose opening is not complete has no keyword and takes in none. -/
def OpeningClear (state : Option (Section × Nat)) (es : List Element) : Prop :=
  ∀ s k, state = some (s, k) → s.rule ∈ sectionRules ∧
    (k = 0 ∨ isKeywordKind s.rule.kind.name = false ∧ ∀ x ∈ (code es).take k, keywordRule x = none)

/-- A section that begins shows the keyword that it begins with, if any, and its opening takes in
none. -/
theorem keyword_of_sectionAt (he : e.isCode = false → ¬ e.IsWord)
    (h : sectionAt e (code es) = some (r, k)) :
    stateKeyword (some (.start r e, k)) = (shownKeyword e).toList ∧
      OpeningClear (some (.start r e, k)) es := by
  have hr := mem_of_sectionAt h
  have hstate : stateKeyword (some (.start r e, k)) =
      (if isKeywordKind r.kind.name then some (r.kind.name, (code [e]).head?) else none).toList :=
        rfl
  rw [sectionAt_eq] at h
  cases hkeyword : keywordRule e with
  | some =>
    rw [hkeyword, Option.some_or] at h
    obtain rfl := Option.some.inj h
    obtain ⟨rfl, hword, hkind⟩ := keywordRule_eq_some hkeyword
    -- blanks and comments are no words
    have hcode : e.isCode = true := Bool.of_not_eq_false fun hidle => he hidle hword
    refine ⟨?_, ?_⟩
    · rw [hstate, if_pos hkind, shownKeyword, hkeyword, code_cons_of_isCode hcode]
      rfl
    · rintro s k ⟨⟩
      exact ⟨hr, .inl rfl⟩
  | none =>
    rw [hkeyword, Option.none_or] at h
    obtain ⟨hkind, hnone⟩ := openerAt_eq_some h
    refine ⟨?_, ?_⟩
    · rw [hstate, hkind, shownKeyword, hkeyword]
      rfl
    · rintro s k ⟨⟩
      exact ⟨hr, .inr ⟨hkind, hnone⟩⟩

/-- **No keyword is swallowed**: the sections with a keyword are those that the keywords begin, in
order. -/
theorem keywords_divide {state : Option (Section × Nat)}
    (hes : ∀ x ∈ es, x.isCode = false → ¬ x.IsWord) (hstate : OpeningClear state es) :
    (divide state es).filterMap Piece.keyword? =
      stateKeyword state ++ es.filterMap shownKeyword := by
  induction es generalizing state with
  | nil =>
    cases state with
    | none => rfl
    | some p => exact filterMap_cons_toList Piece.keyword? (.part p.1) []
  | cons e es ih =>
    obtain ⟨he, hes⟩ := forall_mem_cons.mp hes
    rw [filterMap_cons_toList shownKeyword]
    have hclear : OpeningClear none es := fun _ _ h => nomatch h
    have hloose : sectionAt e (code es) = none → shownKeyword e = none := by
      intro h
      rw [sectionAt_eq] at h
      unfold shownKeyword
      rw [(Option.or_eq_none_iff.mp h).1]
      rfl
    cases state with
    | none =>
      cases hsection : sectionAt e (code es) with
      | some found =>
        obtain ⟨r, k⟩ := found
        obtain ⟨hkeyword, hstart⟩ := keyword_of_sectionAt he hsection
        rw [divide_begin hsection, ih hes hstart, hkeyword]
        rfl
      | none =>
        have hnone : ((code [e]).map Piece.loose).filterMap Piece.keyword? = [] := by
          rw [filterMap_map]
          exact filterMap_eq_nil_iff.mpr fun _ _ => rfl
        rw [divide_loose hsection, filterMap_append, ih hes hclear, hloose hsection, hnone]
        rfl
    | some p =>
      obtain ⟨s, k⟩ := p
      obtain ⟨hr, hopening⟩ := hstate s k rfl
      cases k with
      | succ k =>
        -- what the opening takes in is no keyword
        obtain ⟨hkind, htake⟩ := hopening.resolve_left (Nat.succ_ne_zero k)
        obtain ⟨hnone, hrest⟩ : keywordRule e = none ∧
            ∀ x ∈ (code es).take (if e.isCode then k else k + 1), keywordRule x = none := by
          cases hcode : e.isCode with
          | true =>
            rw [code_cons_of_isCode hcode, take_succ_cons] at htake
            exact forall_mem_cons.mp htake
          | false =>
            rw [code_cons_of_not_isCode hcode] at htake
            exact ⟨keywordRule_of_not_isWord (he hcode), htake⟩
        have hunfolded : OpeningClear (some (s.unfold [e], if e.isCode then k else k + 1)) es := by
          rintro s' k' ⟨⟩
          exact ⟨hr, .inr ⟨hkind, hrest⟩⟩
        change (divide (some (s.unfold [e], if e.isCode then k else k + 1)) es).filterMap
          Piece.keyword? = _
        have hnil : stateKeyword (some (s.unfold [e], if e.isCode then k else k + 1)) = [] :=
          stateKeyword_eq_nil hkind
        rw [ih hes hunfolded, hnil, stateKeyword_eq_nil hkind]
        unfold shownKeyword
        rw [hnone]
        rfl
      | zero =>
        cases hclose : closes s.rule e with
        | true =>
          have hnone : shownKeyword e = none := by
            unfold shownKeyword
            rw [keywordRule_of_spells (by decide) (spells_of_closes hr hclose)]
            rfl
          rw [divide_close hclose, filterMap_cons_toList, ih hes hclear, hnone]
          rfl
        | false =>
          cases hsection : sectionAt e (code es) with
          | some found =>
            obtain ⟨r, k⟩ := found
            obtain ⟨hkeyword, hstart⟩ := keyword_of_sectionAt he hsection
            rw [divide_interrupt hclose hsection, filterMap_cons_toList, ih hes hstart, hkeyword]
            rfl
          | none =>
            have hextended : OpeningClear (some (s.extend [e], 0)) es := by
              rintro s' k ⟨⟩
              exact ⟨hr, .inl rfl⟩
            rw [divide_extend hclose hsection, ih hes hextended, hloose hsection]
            rfl

/-! ### What a program shows -/

/-- The keyword of a part of a program. -/
def Item.keyword? (item : Item Piece) : Option (String × Option Element) :=
  item.part?.bind Section.keyword?

theorem keywords_itemsFrom (ps : List Piece) :
    (itemsFrom Piece.face 0 ps).filterMap Item.keyword? = ps.filterMap Piece.keyword? := by
  have hparts := congrArg (List.filterMap Section.keyword?) (parts_itemsFrom 0 ps)
  rw [drop_zero, filterMap_filterMap, filterMap_filterMap] at hparts
  exact hparts

/-- Is the node a statement with a keyword? -/
def isKeywordNode (n : Node) : Bool :=
  isKeywordKind n.head.kind.name

theorem mem_sectionKinds {name : String} (h : isKeywordKind name = true) : name ∈ sectionKinds := by
  have hkinds : keywordKinds.all (fun k => sectionKinds.contains k.2) = true := by decide
  obtain ⟨k, hk, hname⟩ := any_eq_true.mp h
  rw [← beq_iff_eq.mp hname]
  exact contains_iff_mem.mp (all_eq_true.mp hkinds k hk)

/-- A term is no section and has no node in it. -/
theorem TermShown.allNodes_eq {words : List Element} {n : Node} (h : TermShown r words n) :
    allNodes [n.toElement] = [n] ∧ n.head.kind.name ∉ sectionKinds := by
  have hkinds : termRules.all (fun r => !sectionKinds.contains r.kind.name) = true := by decide
  refine ⟨by rw [allNodes_node, allNodes_of_tokens h.tokens], ?_⟩
  rw [h.kind]
  simpa using all_eq_true.mp hkinds r h.rule

/-- No section is in a section. -/
theorem Section.Read.holds_no_section {s : Section} {n : Node} (h : s.Read n) :
    ∀ m ∈ allNodes n.children, m.head.kind.name ∉ sectionKinds :=
  h.forall_mem_allNodes fun _ hterm => hterm.allNodes_eq.2

/-- What is said about the nodes in some elements: which of them are statements with a keyword, that
these are not further in, and that no section is in another one. -/
structure KeywordsShown (es : List Element) (shown : List (String × Option Element)) : Prop where
  shown : ((nodes es).filter isKeywordNode).map (fun n => (n.head.kind.name, n.code.head?)) = shown
  direct : (allNodes es).filter isKeywordNode = (nodes es).filter isKeywordNode
  apart : ∀ n ∈ allNodes es, n.head.kind.name ∈ sectionKinds → ∀ m ∈ allNodes n.children,
    m.head.kind.name ∉ sectionKinds

theorem keywordsShown_nil : KeywordsShown [] [] :=
  ⟨rfl, by rw [allNodes_nil]; rfl, by rw [allNodes_nil]; exact forall_mem_nil _⟩

theorem KeywordsShown.cons {shown shown' : List (String × Option Element)}
    (he : KeywordsShown [e] shown) (hes : KeywordsShown es shown') :
    KeywordsShown (e :: es) (shown ++ shown') := by
  have hnodes : nodes (e :: es) = nodes [e] ++ nodes es := filterMap_append (l := [e])
  refine ⟨?_, ?_, ?_⟩
  · rw [hnodes, filter_append, map_append, he.shown, hes.shown]
  · rw [hnodes, allNodes_cons, filter_append, filter_append, he.direct, hes.direct]
  · rw [allNodes_cons]
    exact forall_mem_append.mpr ⟨he.apart, hes.apart⟩

/-- A part of a program shows its keyword. -/
theorem keywordsShown_part {x : Element} {item : Item Piece} (h : PartShown x item)
    (hfirst : ∀ p, item.keyword? = some p → p.2 ≠ none) :
    KeywordsShown [x] item.keyword?.toList := by
  cases h with
  | word =>
    refine ⟨rfl, ?_, ?_⟩
    · rw [allNodes_token]
      rfl
    · rw [allNodes_token]
      exact forall_mem_nil _
  | @term r words n hterm =>
    obtain ⟨hnodes, hkind⟩ := hterm.allNodes_eq
    have hkeyword : ¬ isKeywordNode n = true := fun h => hkind (mem_sectionKinds h)
    have hfilter : [n].filter isKeywordNode = [] := filter_cons_of_neg hkeyword
    refine ⟨?_, ?_, ?_⟩
    · change ([n].filter isKeywordNode).map _ = _
      rw [hfilter]
      rfl
    · rw [hnodes]
      rfl
    · rw [hnodes]
      exact fun m hm hmem => absurd hmem (mem_singleton.mp hm ▸ hkind)
  | @part s n hread =>
    -- no section holds another one, so that only the node itself can show a keyword
    have hinner := hread.holds_no_section
    have hkeyword : isKeywordNode n = isKeywordKind s.rule.kind.name := by
      unfold isKeywordNode
      rw [hread.kind]
    refine ⟨?_, ?_, ?_⟩
    · change ([n].filter isKeywordNode).map _ = s.keyword?.toList
      change ∀ p, s.keyword? = some p → p.2 ≠ none at hfirst
      unfold Section.keyword? at hfirst ⊢
      cases hkind : isKeywordKind s.rule.kind.name with
      | false =>
        have hfilter : [n].filter isKeywordNode = [] :=
          filter_cons_of_neg (by rw [hkeyword, hkind]; exact Bool.false_ne_true)
        rw [hfilter]
        rfl
      | true =>
        have hfilter : [n].filter isKeywordNode = [n] := filter_cons_of_pos (hkeyword.trans hkind)
        rw [hkind] at hfirst
        obtain ⟨comments, opening, body, closing, hlaid, -, -, hopening, -⟩ := hread.parts
        have hcode : n.code.head? = s.opening.head? := by
          obtain ⟨e, he⟩ := Option.ne_none_iff_exists'.mp (hfirst _ rfl)
          obtain ⟨rest, hrest⟩ := head?_eq_some_iff.mp he
          rw [hlaid.code, hopening, hrest]
          rfl
        rw [hfilter, ← hcode, ← hread.kind]
        rfl
    · have hfilter : (allNodes n.children).filter isKeywordNode = [] :=
        filter_eq_nil_iff.mpr fun m hm hkeyword => hinner m hm (mem_sectionKinds hkeyword)
      have hcons : n :: allNodes n.children = [n] ++ allNodes n.children := rfl
      rw [allNodes_node, hcons, filter_append, hfilter, append_nil]
      rfl
    · rw [allNodes_node]
      exact forall_mem_cons.mpr ⟨fun _ => hinner, fun m hm hmem => absurd hmem (hinner m hm)⟩

theorem keywordsShown_parts {items : List (Item Piece)} (h : Forall₂ PartShown es items)
    (hfirst : ∀ p ∈ items.filterMap Item.keyword?, p.2 ≠ none) :
    KeywordsShown es (items.filterMap Item.keyword?) := by
  induction h with
  | nil => exact keywordsShown_nil
  | @cons x item es items hx _ ih =>
    rw [filterMap_cons_toList, forall_mem_append] at hfirst
    rw [filterMap_cons_toList]
    exact (keywordsShown_part hx fun p hp => hfirst.1 p (Option.mem_toList.mpr hp)).cons
      (ih hfirst.2)

/-! ### Keywords of a source -/

/-- A keyword begins a section of its kind. -/
theorem shownKeyword_token (t : Token) :
    shownKeyword (.token t) = (keywordKind? t).map (·, some (.token t)) := by
  have hkinds : keywordKinds = keywords.map fun k => (k.1, k.2.kind.name) := rfl
  have hspells : ∀ text, (Element.token t).spells text =
      (!t.isA .string && t.lowerText == some text) := by
    intro text
    change (t.hasText && !t.isA .string && t.lowerText == some text) = _
    unfold Token.hasText Token.lowerText
    cases t.text with
    | none => simp
    | some s =>
      dsimp only
      cases s.isEmpty <;> simp
  unfold shownKeyword keywordRule keywordKind?
  simp only [hspells, hkinds, find?_map]
  cases hstring : t.isA .string with
  | true =>
    rw [find?_eq_none.mpr (by simp)]
    rfl
  | false =>
    simp only [Bool.not_false, Bool.true_and, Bool.false_eq_true, if_false, Option.map_map]
    rfl

/-- The parts of a program show the keywords among its tokens. -/
theorem keywords_programItems {ts : List Token} (hts : ∀ t ∈ ts, Lexer.Lexed t) :
    (programItems ts).filterMap Item.keyword? = ts.filterMap fun t =>
      (keywordKind? t).map (·, some (.token t)) := by
  have hidle : ∀ x ∈ ts.map Element.token, x.isCode = false → ¬ x.IsWord := by
    intro x hx
    obtain ⟨t, ht, rfl⟩ := mem_map.mp hx
    exact (hts t ht).not_isWord
  have hclear : OpeningClear none (ts.map .token) := fun _ _ h => nomatch h
  unfold programItems
  rw [keywords_itemsFrom, keywords_divide hidle hclear]
  change (ts.map Element.token).filterMap shownKeyword = _
  rw [filterMap_map]
  exact filterMap_congr fun t _ => shownKeyword_token t

/-- **Statements with a keyword are recognised exactly.** In what is read of a source, they come one
by one from the keywords behind the first token, in order, and each of them has its keyword as its
first code. They are children of the program, and no section is in another one. -/
theorem keyword_statements_of_parse {source : String} (hfirst : ¬ "MACRO".toList <+: source.toList)
    (hmark : ¬ "BEGIN_PROGRAM(".toList <+: source.toList) (hfault : (parse source).fault = none) :
    ((allNodes (parse source).elements).filter isKeywordNode).map
      (fun n => (n.head.kind.name, n.code.head?)) =
        (Lexer.lex source).tail.filterMap (fun t => (keywordKind? t).map (·, some (.token t))) ∧
      (allNodes (parse source).elements).filter isKeywordNode =
        ((nodes (parse source).elements).filter (·.head.kind.name == "Program")).flatMap
          (·.subNodes.filter isKeywordNode) ∧
      ∀ n ∈ allNodes (parse source).elements, n.head.kind.name ∈ sectionKinds →
        ∀ m ∈ allNodes n.children, m.head.kind.name ∉ sectionKinds := by
  cases htokens : Lexer.lex source with
  | nil =>
    rw [elements_of_lex_nil hfirst hmark hfault htokens, allNodes_nil]
    exact ⟨rfl, rfl, forall_mem_nil _⟩
  | cons t ts =>
    obtain ⟨n, helements, hread⟩ := program_of_parse hfirst hmark hfault htokens
    obtain ⟨body, hlaid, hbody⟩ := hread.parts
    have hprogram : n.head.kind.name = "Program" := by
      rw [hread.kind]
      rfl
    have hkeyword : ¬ isKeywordNode n = true := by
      unfold isKeywordNode
      rw [hprogram]
      decide
    have hkeywords := keywords_programItems fun u hu =>
      Lexer.lexed_linesFrom _ _ _ u (htokens ▸ mem_cons_of_mem t hu)
    have hfirsts : ∀ p ∈ (programItems ts).filterMap Item.keyword?, p.2 ≠ none := by
      intro p hp
      rw [hkeywords] at hp
      obtain ⟨u, -, hu⟩ := mem_filterMap.mp hp
      obtain ⟨name, -, rfl⟩ := Option.map_eq_some_iff.mp hu
      exact Option.some_ne_none _
    obtain ⟨hshown, hdirect, hapart⟩ := keywordsShown_parts hbody hfirsts
    rw [hkeywords] at hshown
    -- all nodes but the program are in its inner part
    have hinner : allNodes n.children = allNodes (code body) ∧ n.subNodes = nodes (code body) := by
      unfold Node.subNodes
      rw [hlaid.children, append_nil, allNodes_code, nodes_code]
      exact ⟨by rw [allNodes_append]; rfl, rfl⟩
    have hend : ∀ x ∈ (trailingComments ts).map Element.token, ∃ u, x = .token u := by
      intro x hx
      obtain ⟨u, -, rfl⟩ := mem_map.mp hx
      exact ⟨u, rfl⟩
    have hall : allNodes (parse source).elements = n :: allNodes (code body) := by
      rw [helements, allNodes_cons, allNodes_node, hinner.1, allNodes_of_tokens hend, append_nil]
    have htop : nodes (parse source).elements = [n] := by
      rw [helements]
      refine congrArg (n :: ·) (filterMap_eq_nil_iff.mpr fun x hx => ?_)
      obtain ⟨u, rfl⟩ := hend x hx
      rfl
    have hprograms : [n].filter (·.head.kind.name == "Program") = [n] :=
      filter_cons_of_pos (beq_iff_eq.mpr hprogram)
    rw [hall, htop, filter_cons_of_neg hkeyword, hdirect, tail_cons]
    refine ⟨hshown, ?_, forall_mem_cons.mpr ⟨fun h => ?_, hapart⟩⟩
    · rw [hprograms, flatMap_singleton, hinner.2]
    · rw [hprogram] at h
      exact absurd h (by decide)

/-- A source with keywords at the beginning, in the opening of a field, in a procedure and in a
string. -/
def keywordSource : String :=
  "FILE FILE W\nP PROC\n'SORT' JOB\n"

/-- The keywords behind the first one have their statements. -/
theorem keyword_statements_of_parse_keywordSource :
    ((parse keywordSource).fault = none ∧
        (Lexer.lex keywordSource).tail.filterMap keywordKind? = ["File", "Job"]) ∧
      ((allNodes (parse keywordSource).elements).filter isKeywordNode).map
        (fun n => (n.head.kind.name, n.code.head?)) =
        (Lexer.lex keywordSource).tail.filterMap
          (fun t => (keywordKind? t).map (·, some (.token t))) ∧
      (allNodes (parse keywordSource).elements).filter isKeywordNode =
        ((nodes (parse keywordSource).elements).filter (·.head.kind.name == "Program")).flatMap
          (·.subNodes.filter isKeywordNode) ∧
      ∀ n ∈ allNodes (parse keywordSource).elements, n.head.kind.name ∈ sectionKinds →
        ∀ m ∈ allNodes n.children, m.head.kind.name ∉ sectionKinds :=
  have hfault : (parse keywordSource).fault = none := by decide +kernel
  ⟨⟨hfault, by decide +kernel⟩, keyword_statements_of_parse (by decide +kernel)
    (by decide +kernel) hfault⟩

end EztScan.Language
