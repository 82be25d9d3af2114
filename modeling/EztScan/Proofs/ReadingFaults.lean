import EztScan.Proofs.ProgramParts
import EztScan.Proofs.Stopping

/-!
# What can stop the reading of a source

A statement or term is complete when its operands are noted, and that stops if there are not enough
words. A program and a macro have no operands, and a job does without them. Each term takes in a
second word by its own shape. So all that can be missing are words of a sort, which goes on with
whatever comes next: it needs four words and may have fewer (`Section.IsCutShort`).

That is the whole truth about sources (`fault_parse`): reading stops exactly if some sort of the
program is cut short, and then always with the same fault.
-/

namespace EztScan

open Element Grouping Stage Work List

variable {n : Node} {f : Fault} {ts : List Token}

namespace Language

/-! ### Grammars of the language -/

/-- The rules of the only stage of a macro. -/
def macroIndex : Index where
  statements := { byWord := [("macro", macroForm), ("mstart", macroForm)] }

theorem mapM_macroStages : macroStages.mapM Scope.ofRules = .ok [.everywhere macroIndex] :=
  rfl

theorem isPlain_macroIndex : macroIndex.IsPlain :=
  ⟨rfl, by decide, by decide, by decide⟩

theorem isPlain_programIndex : programIndex.IsPlain :=
  ⟨rfl, by decide, by decide, by decide⟩

theorem isPlain_sectionIndex : sectionIndex.IsPlain :=
  ⟨rfl, areAll_isOrdered_sections, by decide, by decide⟩

theorem isPlain_termIndex : termIndex.IsPlain :=
  ⟨rfl, by decide, by decide, areAll_isOrdered_terms⟩

variable {regroup : Node → Work Ledger Node}

/-! ### Statements without operands -/

/-- Statements of some tokens never stop a stage if they have no operands. -/
theorem guard_of_nothing {index : Index} (hterms : index.terms = {})
    (hnothing : (index.statements.byWord.map (·.2) ++ index.statements.others).all
      (·.completion == .nothing) = true) :
    Guard index regroup (fun _ es => ∀ x ∈ es, ∃ t, x = .token t) fun _ => False := by
  -- a rule that asks for nothing completes without a fault
  have hcomplete : ∀ {o o' : OpenNode} {d : Desk} {f : Fault}, d.Follows index →
      d.statement = some o → o'.complete.2 = some f → o'.rule = o.rule → False := by
    intro o o' d f hd ho hf hrule
    have hc := all_eq_true.mp hnothing o.rule (hd.rule o ho)
    rw [beq_iff_eq] at hc
    unfold OpenNode.complete Rule.complete at hf
    rw [hrule, hc] at hf
    cases hf
  refine ⟨?_, ?_, ?_, ?_⟩
  · intro d e e' rest out d' rest' _ _ hI _ he hm x hx
    obtain ⟨t, rfl⟩ := hI e mem_cons_self
    obtain rfl : e' = .token t := he
    exact hI x (hm.subset hx)
  · intro d h cs rest l f hI _
    obtain ⟨t, ht⟩ := hI _ mem_cons_self
    cases ht
  · intro d e e' rest f _ hd _ h
    cases h with
    | close o taken rest ho htakes hclose hf | leave o rest ho htakes hf
    | interrupt o r taken rest ho hr hopen hf => exact hcomplete hd ho hf rfl
    | inside r taken rest ho hr
    | term r number o taken children rest ho hr => exact not_firstFit_of_empty hterms hr
  · intro d o f _ hd ho hf
    exact hcomplete hd ho hf rfl

/-! ### Terms -/

end Language

namespace Pattern

mutual

/-- Does everything that fits the pattern have code behind its first element? So it is for a
sequence that begins with something that must not be left out, and for a choice of such ones. -/
def usesMore : Pattern → Bool
  | .seq (p :: _ :: _) => !p.isMaybe
  | .oneOf ps => allUseMore ps
  | _ => false

/-- Do all of these patterns use more? -/
def allUseMore : List Pattern → Bool
  | [] => true
  | p :: ps => p.usesMore && allUseMore ps

end

mutual

theorem one_le_of_reads :
    ∀ (p : Pattern), p.usesMore = true → ∀ {e : Element} {es : List Element} {k : Nat},
    p.reads e es = some k → 1 ≤ k
  | .seq (p :: q :: ps), h, e, es, k, hreads => by
    unfold reads readsSeq at hreads
    cases hp : p.reads e es with
    | none =>
      unfold usesMore at h
      rw [Bool.not_eq_true'] at h
      rw [hp, h] at hreads
      cases hreads
    | some j =>
      -- what comes next is an element behind those that the first part uses
      rw [hp] at hreads
      change readsBehind _ j es = some k at hreads
      unfold readsBehind at hreads
      cases hdrop : es.drop j with
      | nil =>
        rw [hdrop] at hreads
        cases hreads
      | cons =>
        rw [hdrop] at hreads
        obtain ⟨i, -, hi⟩ := Option.map_eq_some_iff.mp hreads
        omega
  | .oneOf ps, h, e, es, k, hreads => by
    unfold reads at hreads
    exact one_le_of_readsOneOf ps h hreads

theorem one_le_of_readsOneOf : ∀ (ps : List Pattern), allUseMore ps = true →
    ∀ {e : Element} {es : List Element} {k : Nat}, readsOneOf ps e es = some k → 1 ≤ k
  | [], _, e, es, k, hreads => by cases hreads
  | p :: ps, h, e, es, k, hreads => by
    have h := Bool.and_eq_true_iff.mp h
    unfold readsOneOf at hreads
    rcases Option.or_eq_some_iff.mp hreads with hreads | ⟨-, hreads⟩
    · exact one_le_of_reads p h.1 hreads
    · exact one_le_of_readsOneOf ps h.2 hreads

end

end Pattern

namespace Language

variable {regroup : Node → Work Ledger Node}
variable {e : Element} {es : List Element} {k depth : Nat} {way : List NodeKind} {l : Ledger}
  {t : Token} {s : Section}

/-- A term takes in at least one word behind its first one. -/
theorem one_le_of_termAt {r : Rule} (h : termAt e es = some (r, k)) : 1 ≤ k := by
  have hmore : areAll Pattern.usesMore Rule.shape termRules = true := by decide
  obtain ⟨hr, p, hp, hreads⟩ := mem_of_firstReads h
  obtain ⟨p', hp', huses⟩ := exists_of_areAll (areAll_rulesFor hmore e) hr
  obtain rfl := Option.some.inj (hp.symm.trans hp')
  exact p.one_le_of_reads huses hreads

/-- What the third stage is given has no words among its blanks and comments. -/
def Legible (e : Element) : Prop :=
  ∀ t ∈ e.leaves, Lexer.Lexed t

theorem hereditary_legible : Hereditary Legible := by
  intro h cs hnode c hc t ht
  refine hnode t ?_
  rw [leaves_node]
  exact mem_leavesOfList hc ht

/-- **Terms never stop a stage**: two words are enough for their operands, and they have them. -/
theorem guard_of_terms
    (hregroup : ∀ {n : Node} {l : Ledger} {f : Fault}, Legible n.toElement →
      ¬ Stops (regroup n) l f) :
    Guard termIndex regroup (fun _ es => ∀ x ∈ es, Legible x) fun _ => False := by
  have hstatement : ∀ {d : Desk}, d.Follows termIndex → d.statement = none := by
    intro d hd
    cases ho : d.statement with
    | none => rfl
    | some o => exact absurd (hd.rule o ho) not_mem_nil
  have hneeds : termRules.all (fun r => decide (r.completion.needs ≤ 2)) = true := rfl
  refine ⟨?_, ?_, ?_, ?_⟩
  · intro d e e' rest out d' rest' _ _ hI hd _ hm x hx
    exact hI x (mem_cons_of_mem e (hm.rest_subset (hstatement hd) hx))
  · intro d h cs rest l f hI hstops
    exact hregroup (n := ⟨h, cs⟩) (hI _ mem_cons_self) hstops
  · intro d e e' rest f hI hd he h
    have hnone := hstatement hd
    cases h with
    | close o taken rest ho | leave o rest ho | interrupt o r taken rest ho =>
      exact nomatch hnone.symm.trans ho
    | inside r taken rest ho hr h cs l hmem =>
      obtain ⟨k, hk, -, hlength⟩ :=
        firstReads_of_firstFit (areAll_rulesFor areAll_isOrdered_terms e') hr
      obtain ⟨⟨t, rfl⟩, htokens⟩ := tokens_of_termAt hk
      rw [code_append, ← hlength, take_left] at htokens
      -- all that a term takes in are tokens
      have hcode : (Element.node h cs).isCode = true := rfl
      rcases mem_append.mp hmem with hmem | hmem
      · exact nomatch (hd.comments _ hmem).symm.trans hcode
      rcases mem_cons.mp hmem with hmem | hmem
      · cases hmem
      · obtain ⟨u, hu⟩ := htokens _ (mem_filter.mpr ⟨hmem, hcode⟩)
        cases hu
    | term r number o taken children rest ho hr hbegin hch hf =>
      obtain ⟨k, hk, -, hlength⟩ :=
        firstReads_of_firstFit (areAll_rulesFor areAll_isOrdered_terms e') hr
      obtain ⟨⟨t, rfl⟩, -⟩ := tokens_of_termAt hk
      obtain rfl : e = .token t := eq_token_of_rebuilt he
      have hlexed : Lexer.Lexed t :=
        hI _ mem_cons_self t (by rw [leaves_token]; exact mem_singleton_self t)
      have hcode : (Element.token t).isCode = true := Bool.of_not_eq_false fun hidle =>
        (unfit_termIndex (hlexed.not_isWord hidle) _ r taken rest rfl).1 hr
      -- the word itself, and those that its reading uses
      have hwords : 2 ≤ (code o.node.children).length := by
        have hone := one_le_of_termAt hk
        rw [hbegin, OpenNode.children_begin, code_append, length_append, code_cons_of_isCode hcode,
          length_cons]
        omega
      -- regrouping changes neither what is code nor how much there is of it
      have hchildren : (code children).length = (code o.node.children).length :=
        (forall₂_code (fun _ _ h => alike_of_rebuilt h) hch.flip).length_eq
      have hshort := (OpenNode.fault_complete hf).2
      rw [OpenNode.node_withNode] at hshort
      change (code children).length < o.rule.completion.needs at hshort
      have hrule : o.rule ∈ termRules := by
        rw [hbegin]
        exact mem_of_mem_rulesFor hr.mem
      have hfew := of_decide_eq_true (all_eq_true.mp hneeds o.rule hrule)
      omega
  · intro d o f _ hd ho
    exact nomatch (hstatement hd).symm.trans ho

theorem not_stops_regroup_terms (hn : Legible n.toElement) :
    ¬ Stops (Stage.regroup (.everywhere termIndex) [] depth way n) l f := by
  refine of_stops_regroup (Q := Legible) (P := fun _ => False) hereditary_legible ?_ hn
  intro depth way n l f ih hn h
  have hinner : ∀ x ∈ n.inner, Legible x := fun x hx => hereditary_legible hn x (n.inner_subset hx)
  obtain ⟨g, hg, -⟩ :=
    (guard_of_terms fun hm hstops => ih hm hstops).fault_of_group isPlain_termIndex hinner h
  exact hg

/-! ### Sections -/

namespace Section

variable {s : Section}

/-- The section is a sort with fewer words than it needs: `SORT`, a file, and two more up to the
name of the other file. -/
def IsCutShort (s : Section) : Prop :=
  s.rule = sort ∧ s.words.length < 4

theorem eq_sort_or_needs_eq_zero {r : Rule} (hr : r ∈ sectionRules) :
    r = sort ∨ r.completion.needs = 0 := by
  have hrules : ∀ r ∈ sectionRules, r = sort ∨ r.completion.needs = 0 := by
    simp only [sectionRules, sectionIndex, map_cons, map_nil, cons_append, nil_append,
      forall_mem_cons]
    exact ⟨.inr rfl, .inr rfl, .inl trivial, .inr rfl, .inr rfl, .inr rfl, forall_mem_nil _⟩
  exact hrules r hr

/-- A section that cannot be completed is cut short. -/
theorem Open.isCutShort {o : OpenNode} {closing : List Element} (h : s.Open o closing)
    (hf : o.complete.2 = some f) : s.IsCutShort := by
  obtain ⟨comments, opening, body, hparts⟩ := h.parts
  have hshort := (OpenNode.fault_complete hf).2
  rw [h.rule, hparts.code] at hshort
  rcases eq_sort_or_needs_eq_zero h.mem with hrule | hneeds
  · rw [hrule] at hshort
    exact ⟨hrule, hshort⟩
  · rw [hneeds] at hshort
    exact absurd hshort (Nat.not_lt_zero _)

theorem Shown.not_isCutShort (h : s.Shown n) : ¬ s.IsCutShort := by
  rintro ⟨hrule, hlength⟩
  obtain ⟨comments, opening, body, closing, hparts⟩ := h.parts
  have hcode : code s.words = s.words := by
    rw [← hparts.code]
    exact Rule.code_code n.children
  have hfault := sort.completion.fault_note ⟨{ kind := sort.kind }, s.words⟩
  have hfew : (Node.code ⟨{ kind := sort.kind }, s.words⟩).length < sort.completion.needs := by
    rw [show Node.code ⟨{ kind := sort.kind }, s.words⟩ = s.words from hcode]
    exact hlength
  rw [if_pos hfew] at hfault
  have hcomplete := h.complete
  rw [hrule] at hcomplete
  exact nomatch hfault.symm.trans hcomplete

end Section

/-- **Sections stop a stage only where a sort is cut short.** The pieces of the elements to come are
among those that the stage comes to. -/
theorem guard_of_sections (pieces : List Piece) : Guard sectionIndex regroup
      (fun d es => (∀ x ∈ es, ∃ t, x = .token t) ∧ ∃ state, Divides d state ∧
        divide state es ⊆ pieces)
      fun _ => ∃ s, .part s ∈ pieces ∧ s.IsCutShort := by
  refine ⟨?_, ?_, ?_, ?_⟩
  · rintro d e e' rest out d' rest' _ _ ⟨htokens, state, hstate, hpieces⟩ - he hm
    obtain ⟨t, rfl⟩ := htokens e mem_cons_self
    obtain rfl : e' = .token t := he
    obtain ⟨state', made, hstate', -, hdivide⟩ := move_divides hm hstate htokens
    rw [hdivide] at hpieces
    exact ⟨fun x hx => htokens x (hm.subset hx), state', hstate', (append_subset.mp hpieces).2⟩
  · rintro d h cs rest l f ⟨htokens, -⟩ -
    obtain ⟨t, ht⟩ := htokens _ mem_cons_self
    cases ht
  · rintro d e e' rest f ⟨htokens, state, hstate, hpieces⟩ - he h
    obtain ⟨t, rfl⟩ := htokens e mem_cons_self
    obtain rfl : e' = .token t := he
    have hordered := areAll_rulesFor areAll_isOrdered_sections (.token t)
    -- only its end and the next section complete a section before the source ends
    cases h with
    | close o taken rest ho htakes hclose hf =>
      obtain ⟨s, rfl, hopen⟩ := hstate.of_some ho
      obtain ⟨rfl, hcloses⟩ := hopen.of_takes hclose
      have hone : ∀ x ∈ d.comments ++ [.token t], ∃ t, x = .token t := by
        refine forall_mem_append.mpr ⟨fun x hx => (isPlain_of_not_isCode (hstate.comments x hx)).1,
          fun x hx => ?_⟩
        exact ⟨t, mem_singleton.mp hx⟩
      refine ⟨s.close [.token t], hpieces ?_, (hopen.close hstate.comments hone).isCutShort hf⟩
      rw [nil_append, divide_close hcloses]
      exact mem_cons_self
    | leave o rest ho htakes =>
      obtain ⟨s, -, hopen⟩ := hstate.of_some ho
      rw [hopen.rule, (takesEnd_and_yields hopen.mem).1] at htakes
      cases htakes
    | interrupt o r taken rest ho hr hstays hf =>
      obtain ⟨s, rfl, hopen⟩ := hstate.of_some ho
      obtain ⟨k, hk, -⟩ := firstReads_of_firstFit hordered hr
      refine ⟨s, hpieces ?_, hopen.isCutShort hf⟩
      rw [divide_interrupt (hopen.of_staysOpen hstays) hk]
      exact mem_cons_self
    | inside r taken rest ho hr
    | term r number o taken children rest ho hr => exact absurd hr (not_firstFit_of_empty rfl)
  · rintro d o f ⟨-, state, hstate, hpieces⟩ - ho hf
    obtain ⟨s, rfl, hopen⟩ := hstate.of_some ho
    exact ⟨s, hpieces mem_cons_self, hopen.isCutShort hf⟩

/-- Regrouping a program of tokens stops only where a sort in it is cut short. -/
theorem isCutShort_of_stops_regroup (hn : ∀ x ∈ n.children, ∃ t, x = .token t)
    (h : Stops (Stage.regroup (.everywhere sectionIndex) [] depth way n) l f) :
    ∃ s, .part s ∈ divide none n.inner ∧ s.IsCutShort := by
  refine of_stops_regroup (Q := fun e => (∃ t, e = .token t) ∨ e = n.toElement)
    (P := fun _ => ∃ s, .part s ∈ divide none n.inner ∧ s.IsCutShort) ?_ ?_ (.inr rfl) h
  · rintro hd cs (⟨t, ht⟩ | hnode) c hc
    · cases ht
    · obtain ⟨-, rfl⟩ := Element.node.inj hnode
      exact .inl (hn c hc)
  · rintro depth way m l f - (⟨t, ht⟩ | hnode) hgroup
    · cases ht
    · obtain ⟨hhead, hchildren⟩ := Element.node.inj hnode
      obtain rfl : m = n := by
        cases m
        cases n
        obtain rfl := hhead
        obtain rfl := hchildren
        rfl
      have hinner : ∀ x ∈ m.inner, ∃ t, x = .token t := fun x hx => hn x (m.inner_subset hx)
      obtain ⟨g, hg, -⟩ :=
        (guard_of_sections (divide none m.inner)).fault_of_group isPlain_sectionIndex
        ⟨hinner, none, ⟨rfl, forall_mem_nil _, .idle⟩, Subset.refl _⟩ hgroup
      exact hg

/-! ### Whole sources -/

/-- In the second stage the comments at the end wait and the program is passed on, so that nothing
but the regrouping of the program can stop the stage. -/
theorem guard_of_program (hts : ∀ t ∈ trailingComments ts, Lexer.Lexed t)
    (hn : ∀ {l : Ledger} {f : Fault}, ¬ Stops (regroup n) l f) : Guard sectionIndex regroup
      (fun d es => d.statement = none ∧
        (es = [] ∨ ∃ before after, trailingComments ts = before ++ after ∧
        d.comments = before.map .token ∧ es = after.map .token ++ [n.toElement])) fun _ =>
          False := by
  refine ⟨?_, ?_, ?_, ?_⟩
  · rintro d e e' rest out d' rest' _ _ ⟨hnone, hnil | ⟨before, after, hsplit, hcomments, hes⟩⟩
      hd he hm
    · cases hnil
    cases after with
    | nil =>
      -- the comments are through, and the program is passed on
      obtain ⟨rfl, rfl⟩ := List.cons.inj hes
      obtain ⟨l, n', l', -, rfl⟩ := he
      obtain ⟨rfl, -, hpassed⟩ := move_outside rfl hm hd.stack hnone (unfit_program n')
      obtain ⟨-, rfl⟩ := hpassed rfl rfl
      exact ⟨hnone, .inl rfl⟩
    | cons t after =>
      obtain ⟨rfl, rfl⟩ := List.cons.inj hes
      obtain rfl : e' = .token t := he
      obtain ⟨rfl, hheld, -⟩ :=
        move_outside rfl hm hd.stack hnone (unfit_trailingComment hts hsplit n)
      obtain ⟨-, rfl⟩ := hheld (by rw [hcomments]; exact awaitsWith_trailingComments hsplit)
      refine ⟨hnone, .inr ⟨before ++ [t], after, by rw [hsplit, append_assoc]; rfl, ?_, rfl⟩⟩
      change d.comments ++ [.token t] = _
      rw [hcomments, map_append]
      rfl
  · rintro d h cs rest l f ⟨-, hnil | ⟨before, after, -, -, hes⟩⟩ hstops
    · cases hnil
    cases after with
    | nil =>
      obtain ⟨hnode, -⟩ := List.cons.inj hes
      obtain ⟨rfl, rfl⟩ := Element.node.inj hnode
      exact hn hstops
    | cons => cases (List.cons.inj hes).1
  · rintro d e e' rest f ⟨hnone, -⟩ - - h
    cases h with
    | close o taken rest ho | leave o rest ho | interrupt o r taken rest ho =>
      exact nomatch hnone.symm.trans ho
    | inside r taken rest ho hr
    | term r number o taken children rest ho hr => exact not_firstFit_of_empty rfl hr
  · rintro d o f ⟨hnone, -⟩ - ho
    exact nomatch hnone.symm.trans ho

/-- **A program without a sort that is cut short is read to its end.** -/
theorem fault_eq_none_of_not_isCutShort (hlexed : ∀ u ∈ t :: ts, Lexer.Lexed u)
    (hsorts : ∀ s, .part s ∈ divide none (ts.map .token) → ¬ s.IsCutShort) :
    (Scope.parseAll programScopes (t :: ts)).fault = none := by
  have hcomments := forall_mem_trailingComments hlexed
  unfold Scope.parseAll programScopes
  generalize (t :: ts).length = depth
  -- the first stage
  obtain ⟨o₁, ho₁, hreading₁⟩ := readingOf_runStages_cons (depth + 1) (.everywhere programIndex)
    [.everywhere sectionIndex, .everywhere termIndex] {} ((t :: ts).map .token) none
  have htokens : ∀ x ∈ (t :: ts).map Element.token, ∃ t, x = .token t :=
    fun _ => exists_token_of_mem_map
  have hfault₁ : o₁.fault = none := by
    rw [ho₁]
    exact (guard_of_nothing rfl rfl).fault_run_eq_none isPlain_programIndex htokens {}
  have hgrouped₁ :
      Grouped programIndex (Stage.regroup (.everywhere programIndex) [] (depth + 1) []) {}
        (.token t :: ts.map .token) o₁.out := by
    rw [ho₁] at hfault₁ ⊢
    exact ⟨_, _, (grouped_of_run rfl hfault₁).1⟩
  rw [hreading₁, if_neg (cons_ne_nil _ _), hfault₁]
  -- the second stage
  obtain ⟨o₂, ho₂, hreading₂⟩ := readingOf_runStages_cons (depth + 1) (.everywhere sectionIndex)
    [.everywhere termIndex] o₁.bench.ledger o₁.out none
  obtain ⟨n, inner, hout₁, -, -, hsections, hchildren, -, hinner⟩ := laid_program hgrouped₁
  have hfault₂ : o₂.fault = none := by
    rw [ho₂, hout₁]
    refine (guard_of_program hcomments fun h => ?_).fault_run_eq_none isPlain_sectionIndex
      ⟨rfl, .inr ⟨[], trailingComments ts, rfl, rfl, rfl⟩⟩ _
    have hn : ∀ x ∈ n.children, ∃ t, x = .token t := by
      intro x hx
      rw [hchildren] at hx
      refine htokens x (mem_cons.mpr ((mem_cons.mp hx).imp_right fun hx => ?_))
      exact hinner ▸ mem_append_left _ hx
    obtain ⟨s, hs, hshort⟩ := isCutShort_of_stops_regroup hn h
    rw [Node.inner_of_opening hsections hchildren,
      divide_of_append_trailingComments hcomments hinner] at hs
    exact hsorts s hs hshort
  have hgrouped₂ :
      Grouped sectionIndex (Stage.regroup (.everywhere sectionIndex) [] (depth + 1) []) {}
        o₁.out o₂.out := by
    rw [ho₂] at hfault₂ ⊢
    exact ⟨_, _, (grouped_of_run rfl hfault₂).1⟩
  rw [hreading₂, if_neg (cons_ne_nil _ _), hfault₂]
  -- the third stage
  obtain ⟨o₃, ho₃, hreading₃⟩ := readingOf_runStages_cons (depth + 1) (.everywhere termIndex)
    [] o₂.bench.ledger o₂.out none
  obtain ⟨m, hout₂, hdivided⟩ := divided_of_grouped hlexed hgrouped₁ hgrouped₂
  obtain ⟨body, hlaid, -, hbody⟩ := hdivided.parts
  rw [hreading₃, if_pos rfl, ho₃]
  refine (guard_of_terms not_stops_regroup_terms).fault_run_eq_none isPlain_termIndex ?_ _
  rw [hout₂]
  refine forall_mem_cons.mpr ⟨fun u hu => ?_, fun x hx u hu => ?_⟩
  · rw [Node.toElement, leaves_node, hlaid.children, append_nil, nil_append, singleton_append,
      leavesOfList_cons, leaves_token] at hu
    rcases mem_cons.mp hu with rfl | hu
    · exact hlexed u mem_cons_self
    · exact hbody u hu
  · obtain ⟨c, hc, rfl⟩ := mem_map.mp hx
    rw [leaves_token] at hu
    rw [mem_singleton.mp hu]
    exact hcomments c hc

/-- A program that is read to its end has no sort that is cut short. -/
theorem not_isCutShort_of_fault_eq_none (hlexed : ∀ u ∈ t :: ts, Lexer.Lexed u)
    (hfault : (Scope.parseAll programScopes (t :: ts)).fault = none)
    (hs : .part s ∈ divide none (ts.map .token)) : ¬ s.IsCutShort := by
  have hshown : ∀ {es : List Element} {pieces : List Piece}, Forall₂ Piece.Shown es pieces →
      .part s ∈ pieces → ¬ s.IsCutShort := by
    intro es pieces h hmem
    induction h with
    | nil => cases hmem
    | cons hhead _ ih =>
      rcases mem_cons.mp hmem with rfl | hmem
      · cases hhead with
        | part h => exact h.not_isCutShort
      · exact ih hmem
  have hpassed := passed_of_parseAll hfault
  generalize (Scope.parseAll programScopes (t :: ts)).elements = elements at hpassed
  rcases hpassed with _ | ⟨hg₁, _ | ⟨hg₂, _⟩⟩
  obtain ⟨n, -, hdivided⟩ := divided_of_grouped hlexed hg₁ hg₂
  obtain ⟨body, -, hpieces, -⟩ := hdivided.parts
  exact hshown hpieces hs

/-- A sort begins with its word. -/
theorem spells_of_sectionAt_sort (h : sectionAt e es = some (sort, k)) :
    e.spells "sort" = true := by
  have hname : ∀ r : Rule, r = sort → r.kind.name = "Sort" := by
    rintro r rfl
    rfl
  rw [sectionAt_eq] at h
  rcases Option.or_eq_some_iff.mp h with h | ⟨-, h⟩
  · obtain ⟨p, hp, heq⟩ := Option.map_eq_some_iff.mp h
    have hwords : ∀ p ∈ keywords, p.2.kind.name = "Sort" → p.1 = "sort" := by decide
    rw [← hwords p (mem_of_find?_eq_some hp) (hname _ (Prod.mk.inj heq).1)]
    simpa using find?_some hp
  · rcases openerAt_cases h with ⟨hr, -⟩ | ⟨hr, -⟩ | ⟨hr, -⟩
    all_goals
      have hkind := hname _ hr.symm
      exact absurd hkind (by decide)

/-- A source with a sort has the word for it. -/
theorem exists_sort_of_mem_divide (hs : .part s ∈ divide none (ts.map .token))
    (hrule : s.rule = sort) : ∃ t ∈ ts, t.isA .string = false ∧ t.lowerText = some "sort" := by
  -- one of the elements has begun the section
  obtain ⟨e, he, rest, k, hat⟩ : ∃ e ∈ ts.map Element.token, ∃ rest k,
      sectionAt e rest = some (s.rule, k) := by
    refine of_mem_divide (I := fun s _ _ => ∃ e ∈ ts.map Element.token, ∃ rest k,
      sectionAt e rest = some (s.rule, k))
      ?_ id id (fun _ => id) (fun _ => id) (suffix_refl _) ?_ hs
    · exact fun hes hat => ⟨_, hes.subset mem_cons_self, _, _, hat⟩
    · rintro s₀ k ⟨⟩
  obtain ⟨t, ht, rfl⟩ := mem_map.mp he
  rw [hrule] at hat
  have hspells := spells_of_sectionAt_sort hat
  unfold Element.spells at hspells
  rw [Bool.and_eq_true, Bool.and_eq_true, Bool.not_eq_true'] at hspells
  exact ⟨t, ht, hspells.1.2, beq_iff_eq.mp hspells.2⟩

/-- A source that is a macro is sent through one stage. -/
theorem parse_of_isMacroSource {source : String}
    (h : isMacroSource (withoutMark source.toList) = true) :
    parse source = Scope.parseAll [.everywhere macroIndex]
      (Lexer.lex (String.ofList (withoutMark source.toList))) := by
  unfold parse stagesFor
  dsimp only
  rw [h, if_pos rfl]
  unfold readWith
  rw [mapM_macroStages]

/-- A source is read as a macro or as a program. Its text is the source without a mark in front. -/
theorem parse_cases (source : String) : ∃ text,
    parse source = Scope.parseAll [.everywhere macroIndex] (Lexer.lex text) ∨
      parse source = Scope.parseAll programScopes (Lexer.lex text) := by
  refine ⟨String.ofList (withoutMark source.toList), ?_⟩
  cases hmacro : isMacroSource (withoutMark source.toList) with
  | true => exact .inl (parse_of_isMacroSource hmacro)
  | false => exact .inr (parse_of_not_isMacroSource hmacro)

/-- Reading a macro never stops. -/
theorem fault_parseAll_macroIndex (ts : List Token) :
    (Scope.parseAll [.everywhere macroIndex] ts).fault = none := by
  unfold Scope.parseAll
  obtain ⟨o, ho, hreading⟩ := readingOf_runStages_cons (ts.length + 1) (.everywhere macroIndex) []
    {} (ts.map .token) none
  rw [hreading, if_pos rfl, ho]
  exact (guard_of_nothing rfl rfl).fault_run_eq_none isPlain_macroIndex
    (fun _ => exists_token_of_mem_map) {}

/-- **What can stop the reading of a source.** Either it ends normally, and this is so exactly for
macros and for programs without a sort that is cut short. Or it stops because elements have run out,
and then the source has the word `SORT`. -/
theorem fault_parse (source : String) :
    ((parse source).fault = none ∧
      ("MACRO".toList <+: withoutMark source.toList ∨
        ∀ s, .part s ∈ divide none
          ((Lexer.lex (String.ofList (withoutMark source.toList))).tail.map .token) →
          ¬ s.IsCutShort)) ∨
    ((parse source).fault = some .exhaustedInside ∧
      Fault.exhaustedInside.message? = some "generator raised StopIteration" ∧
      ¬ "MACRO".toList <+: withoutMark source.toList ∧
      (∃ s, .part s ∈ divide none
        ((Lexer.lex (String.ofList (withoutMark source.toList))).tail.map .token) ∧
        s.IsCutShort) ∧
      ∃ t ∈ Lexer.lex (String.ofList (withoutMark source.toList)), t.isA .string = false ∧
        t.lowerText = some "sort") := by
  have hlexed : ∀ t ∈ Lexer.lex (String.ofList (withoutMark source.toList)), Lexer.Lexed t :=
    Lexer.lexed_linesFrom _ _ _
  -- a macro is read in one stage, which cannot stop
  by_cases hmacro : "MACRO".toList <+: withoutMark source.toList
  · rw [parse_of_isMacroSource (List.isPrefixOf_iff_prefix.mpr hmacro)]
    exact .inl ⟨fault_parseAll_macroIndex _, .inl hmacro⟩
  rw [parse_of_not_isMacroSource (isMacroSource_eq_false hmacro)]
  generalize Lexer.lex (String.ofList (withoutMark source.toList)) = tokens at hlexed ⊢
  have hplain : ∀ scope ∈ programScopes, ∃ index, scope = .everywhere index ∧ index.IsPlain := by
    simp only [programScopes, forall_mem_cons]
    exact ⟨⟨_, rfl, isPlain_programIndex⟩, ⟨_, rfl, isPlain_sectionIndex⟩,
      ⟨_, rfl, isPlain_termIndex⟩, forall_mem_nil _⟩
  cases tokens with
  | nil => exact .inl ⟨rfl, .inr fun s hs => absurd hs not_mem_nil⟩
  | cons t ts =>
    -- only a `SORT` that is cut short stops the stages of a program
    by_cases hshort : ∃ s, .part s ∈ divide none (ts.map .token) ∧ s.IsCutShort
    · right
      obtain ⟨s, hs, hcut⟩ := id hshort
      cases hfault : (Scope.parseAll programScopes (t :: ts)).fault with
      | none => exact absurd hcut (not_isCutShort_of_fault_eq_none hlexed hfault hs)
      | some =>
        obtain ⟨u, hu, hsort⟩ := exists_sort_of_mem_divide hs hcut.1
        rw [fault_readingOf_of_isPlain hplain (.inl rfl) hfault]
        exact ⟨rfl, rfl, hmacro, hshort, u, mem_cons_of_mem t hu, hsort⟩
    · have hnone : ∀ s, .part s ∈ divide none (ts.map .token) → ¬ s.IsCutShort :=
        fun s hs hcut => hshort ⟨s, hs, hcut⟩
      exact .inl ⟨fault_eq_none_of_not_isCutShort hlexed hnone, .inr hnone⟩

example : (parse "PARM\nSORT A\n").fault = some .exhaustedInside := by
  decide +kernel

end Language

end EztScan
