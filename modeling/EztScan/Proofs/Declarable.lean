import EztScan.Proofs.Declaring

/-!
# Sources whose declarations have names

Before a program can be stored, its source has to be read to the end, and every file, procedure and
report in it has to be declared under a name. A procedure has one in any case, for it begins with
it. The name of a file or of a report is the word behind `FILE` or `REPORT`; it is missing if the
section ends there, and if a statement begins there, since a statement is no word
(`Section.IsNameless`).

So a source that is no macro can be scanned exactly if no sort in it is cut short, and if none of
its files and reports is nameless (`exists_isDeclarable_iff`).
-/

namespace EztScan

open Element EztScan.Language List
variable {es : List Element} {ts : List Token} {n : Node} {source : String}

namespace Language

namespace Section

variable {s : Section} {n : Node}

/-- The section declares a file or a report, and there is no word behind its first one that could be
the name. -/
def IsNameless (s : Section) : Prop :=
  (s.rule = file ∨ s.rule = report) ∧ ∀ e rest, s.body = e :: rest → (termAt e rest).isSome = true

/-- Files and reports go on to the next section. -/
theorem closing_of_mem_divide (hs : .part s ∈ divide none es)
    (hrule : s.rule = file ∨ s.rule = report) : s.closing = [] := by
  have hcloses : ∀ (r : Rule) (e : Element), r = file ∨ r = report → closes r e = false := by
    rintro r e (rfl | rfl)
    · rfl
    · rfl
  refine of_mem_divide (I := fun s _ _ => s.closing = [])
    (F := fun s => s.rule = file ∨ s.rule = report → s.closing = [])
    (fun _ _ => rfl) id id ?_ ?_ (suffix_refl es) ?_ hs hrule
  · intro s e rest hclosed _ hrule
    change s.rule = file ∨ s.rule = report at hrule
    rw [hcloses s.rule e hrule] at hclosed
    cases hclosed
  · exact fun _ hI _ => hI
  · rintro s₀ k ⟨⟩

variable (hts : ∀ t ∈ ts, Lexer.Lexed t) (hs : .part s ∈ divide none (ts.map .token))
variable (hrule : s.rule = file ∨ s.rule = report)

include hts hs hrule

/-- The first word of a file or a report is all of its opening. -/
theorem opening_of_file_or_report : s.opening.length = 1 := by
  have hkinds : file.kind.name ∈ EztScan.keywordKinds ∧ report.kind.name ∈ EztScan.keywordKinds :=
    by decide
  refine (opening_of_mem_divide hts hs).resolve_right fun hother => hother.1 ?_
  rcases hrule with hrule | hrule
  · rw [hrule]
    exact hkinds.1
  · rw [hrule]
    exact hkinds.2

/-- The name of a file or a report is the word behind the first one. -/
theorem Read.declaredName_eq (h : s.Read n) :
    ∃ inner, List.Forall₂ WordShown inner (itemsFrom id 0 s.body) ∧
      declaredName n = (inner.head?.map fun e => Except.ok e.text).getD (.error .exhausted) := by
  obtain ⟨comments, opening, body, closing, hlaid, -, -, hopening, hbody, hclosing⟩ := h.parts
  refine ⟨code body, hbody, ?_⟩
  have hword : declaredName n = wordText n 1 := by
    unfold declaredName
    rw [h.kind]
    rcases hrule with hrule | hrule
    · rw [hrule]
      rfl
    · rw [hrule]
      rfl
  obtain ⟨first, hfirst⟩ := length_eq_one_iff.mp (opening_of_file_or_report hts hs hrule)
  have hcode : n.code = first :: code body := by
    rw [hlaid.code, hopening, hclosing, closing_of_mem_divide hs hrule, hfirst, append_nil]
    rfl
  rw [hword, wordText, hcode, getElem?_cons_succ, head?_eq_getElem?]
  cases (code body)[0]? with
  | none | some => rfl

/-- **A file or a report has a name** exactly if it is not nameless. -/
theorem Read.isNamed_iff (h : s.Read n) : n.IsNamed ↔ ¬ s.IsNameless := by
  obtain ⟨inner, hinner, hname⟩ := h.declaredName_eq hts hs hrule
  unfold Node.IsNamed IsNameless
  rw [hname, and_iff_right hrule]
  cases hbody : s.body with
  | nil =>
    -- there is nothing behind the first word
    rw [hbody] at hinner
    cases hinner
    refine iff_of_false ?_ (not_not.mpr fun e rest hnil => ?_)
    · rintro ⟨name, hnone⟩
      cases hnone
    · cases hnil
  | cons e rest =>
    rw [hbody] at hinner
    cases hterm : termAt e rest with
    | some found =>
      obtain ⟨r, k⟩ := found
      rw [itemsFrom_term (by rw [map_id]; exact hterm)] at hinner
      rcases hinner with _ | ⟨hshown, -⟩
      cases hshown with
      | term =>
        refine iff_of_false ?_ (not_not.mpr fun e' rest' hcons => ?_)
        · rintro ⟨name, hnone⟩
          cases hnone
        · obtain ⟨rfl, rfl⟩ := List.cons.inj hcons
          rw [hterm]
          rfl
    | none =>
      rw [itemsFrom_word (by rw [map_id]; exact hterm)] at hinner
      rcases hinner with _ | ⟨hshown, -⟩
      -- the word is one of the source, so there is a text to it
      have hmem : e ∈ s.words := by simp [words, hbody]
      obtain ⟨hsource, hcode⟩ := mem_words_of_mem_divide hs e hmem
      obtain ⟨t, ht, rfl⟩ := mem_map.mp hsource
      obtain ⟨t', text, heq, htext, -⟩ := (hts t ht).isLegible hcode
      obtain rfl := Element.token.inj heq
      cases hshown with
      | word t =>
        refine iff_of_true ⟨text, congrArg Except.ok htext⟩ fun hall => ?_
        have hsome := hall (.token t) rest rfl
        rw [hterm] at hsome
        cases hsome

end Section

/-- Sections declare files, reports and procedures. -/
theorem declaredKind_of_mem_sectionRules {r : Rule} (hr : r ∈ sectionRules) :
    (r = file ∨ r = report) ∨ r.kind.name = "Procedure" ∨
      Scan.declaredKind ⟨{ kind := r.kind }, []⟩ = none := by
  have hrules : ∀ r ∈ sectionRules, (r = file ∨ r = report) ∨ r.kind.name = "Procedure" ∨
      Scan.declaredKind ⟨{ kind := r.kind }, []⟩ = none := by
    simp only [sectionRules, sectionIndex, map_cons, map_nil, cons_append, nil_append,
      forall_mem_cons]
    exact ⟨.inl (.inl trivial), .inr (.inr rfl), .inr (.inr rfl), .inl (.inr trivial),
      .inr (.inr rfl), .inr (.inl rfl),
      forall_mem_nil _⟩
  exact hrules r hr

/-- **The declarations of a program have names** exactly if none of its files and reports is
nameless. -/
theorem ProgramRead.isDeclarable_iff {t : Token} (hread : ProgramRead t ts n)
    (hts : ∀ u ∈ ts, Lexer.Lexed u) (hlexed : ∀ u ∈ leavesOfList n.children, Lexer.Lexed u) :
    n.IsDeclarable ↔ ∀ s, .part s ∈ divide none (ts.map .token) → ¬ s.IsNameless := by
  have hdeclares : ∀ {s : Section} {m : Node}, s.Read m →
      Scan.declaredKind m = Scan.declaredKind ⟨{ kind := s.rule.kind }, []⟩ := by
    intro s m hm
    rw [← hm.kind]
    rfl
  constructor
  · intro hnamed s hs hnameless
    -- the section is shown somewhere in the program
    obtain ⟨body, hlaid, hbody⟩ := hread.parts
    obtain ⟨e, he, hshown⟩ := exists_mem_of_forall₂ hbody (mem_programItems_iff.mpr hs)
    cases hshown with
    | @part _ m hm =>
      refine (hm.isNamed_iff hts hs hnameless.1).mp (hnamed m ?_ ?_) hnameless
      · refine mem_nodes.mpr ?_
        rw [hlaid.children]
        simp [mem_of_mem_filter he]
      · unfold Node.declares
        rw [hdeclares hm]
        rcases hnameless.1 with hrule | hrule
        · rw [hrule]
          rfl
        · rw [hrule]
          rfl
  · intro hall m hm hdeclared
    have he := mem_nodes.mp hm
    rcases hread.cases_of_mem he with ⟨t, ht⟩ | ⟨m', heq, hshown⟩
    · cases ht
    obtain rfl := Node.eq_of_toElement_eq heq
    rcases hshown with ⟨r, words, hterm⟩ | ⟨s, hs, hm⟩
    · exact (isTerm_of_shown hterm (lexed_of_mem hlexed he)).isNamed hdeclared
    · rcases declaredKind_of_mem_sectionRules hm.rule with hrule | hkind | hnone
      · exact (hm.isNamed_iff hts hs hrule).mpr (hall s hs)
      · exact (isSection_of_read hm hs hts (lexed_of_mem hlexed he)).procedure
          (by rw [hm.kind]; exact hkind)
      · unfold Node.declares at hdeclared
        rw [hdeclares hm, hnone] at hdeclared
        cases hdeclared

end Language

/-! ### Sources that can be scanned -/

namespace Language

/-- No sort of the source is cut short, and none of its files and reports is nameless. -/
def IsWhole (source : String) : Prop :=
  ∀ s, .part s ∈ divide none ((Lexer.lex source).tail.map .token) → ¬ s.IsCutShort ∧ ¬ s.IsNameless

/-- The first root of a program that was read is the program. -/
theorem treeOf_of_elements (hfault : (parse source).fault = none)
    (helements : (parse source).elements = n.toElement :: es) (hkind : n.head.kind = program.kind) :
    Scan.treeOf source = .ok (.root n) := by
  have hroot : isRoot n = true := by
    unfold isRoot
    rw [hkind]
    rfl
  have hnodes : nodes (n.toElement :: es) = n :: nodes es := rfl
  unfold Scan.treeOf
  dsimp only
  rw [hfault, helements]
  rw [hnodes, find?_cons_of_pos hroot]

/-- **Which sources can be scanned.** A source that is neither a macro nor marked, and that is not
empty, has a tree in which all declarations have names exactly if it is whole. -/
theorem exists_isDeclarable_iff (hfirst : ¬ "MACRO".toList <+: source.toList)
    (hmark : ¬ "BEGIN_PROGRAM(".toList <+: source.toList) (hlex : Lexer.lex source ≠ []) :
    (∃ root, Scan.treeOf source = .ok (.root root) ∧ root.IsDeclarable) ↔ IsWhole source := by
  have hparse := parse_of_unmarked hfirst hmark
  have hlexed := Lexer.lexed_lex source
  obtain ⟨t, ts, htokens⟩ := exists_cons_of_ne_nil hlex
  unfold IsWhole
  rw [htokens] at hparse hlexed ⊢
  have hts : ∀ u ∈ ts, Lexer.Lexed u := fun u hu => hlexed u (mem_cons_of_mem t hu)
  -- what the source is read into if it is read to the end
  have hread : (Scope.parseAll programScopes (t :: ts)).fault = none →
    ∃ n, Scan.treeOf source = .ok (.root n) ∧
      (n.IsDeclarable ↔ ∀ s, .part s ∈ divide none (ts.map .token) → ¬ s.IsNameless) := by
    intro hfault
    obtain ⟨n, helements, hn⟩ := program_of_parseAll hlexed hfault
    refine ⟨n, treeOf_of_elements (hparse ▸ hfault) (hparse ▸ helements) hn.kind,
      hn.isDeclarable_iff hts fun u hu => ?_⟩
    exact hlexed u (mem_of_mem_leaves hfault (helements ▸ mem_cons_self) hu)
  constructor
  · rintro ⟨root, htree, hnamed⟩ s hs
    have hfault : (Scope.parseAll programScopes (t :: ts)).fault = none := by
      unfold Scan.treeOf at htree
      rw [hparse] at htree
      dsimp only at htree
      cases hstopped : (Scope.parseAll programScopes (t :: ts)).fault with
      | none => rfl
      | some =>
        rw [hstopped] at htree
        cases htree
    obtain ⟨n, htree', hiff⟩ := hread hfault
    obtain rfl := SyntaxTree.root.inj (Except.ok.inj (htree.symm.trans htree'))
    exact ⟨not_isCutShort_of_fault_eq_none hlexed hfault hs, hiff.mp hnamed s hs⟩
  · intro hwhole
    obtain ⟨n, htree, hiff⟩ :=
      hread (fault_eq_none_of_not_isCutShort hlexed fun s hs => (hwhole s hs).1)
    exact ⟨n, htree, hiff.mpr fun s hs => (hwhole s hs).2⟩

end Language

end EztScan
