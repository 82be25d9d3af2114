import EztScan.Proofs.Callers

/-!
# Called programs that are not known

A call of a program that the library does not have makes a symbol for it, a member of the symbol
that the walk is inside of. A second call of that name from there finds the symbol that the first
one has made (`Provides`). So there is never more than one for each owner and name, and none for a
name that the library has (`Tallied`): this is what one visit preserves (`Tallied.linkVisit`), and
with it a whole walk (`Tallied.linkVisits`).

What the calls ahead stand for is not touched by a visit, as no two statements have the same number.
So a call is linked according to what the library said of its name.
-/

namespace EztScan

open Element EztScan.Language Work List Program

variable {p : Program} {k owner : Nat} {name : String} {n root : Node} {o : Operand}
  {vs : List Visit}
variable {rs : List Reference} {caller : Option ObjectId} {i : ProgramId} {c : Option Node}
  {stack stack' : Enclosing} {q : Program} {v : Visit} {library : Option Library} {origin : Origin}

namespace Program

/-- The programs that are not known and were called by a name, in capitals, from a symbol. -/
def unknowns (p : Program) (owner : Nat) (key : String) : List Nat :=
  p.numbersOf fun c =>
    c.parent == some owner && Text.upper c.name == key && c.kind == .unknownProgram

theorem Indexed.filter_get (h : p.Indexed) (owner : Nat) (key : String) :
    ((p.membersOf owner).get key).filter (p.isOneOf [.unknownProgram]) = p.unknowns owner key := by
  rw [h.get, filter_isOneOf]
  rfl

theorem findOne_eq_some {name : Option String} {kinds : List SymbolKind} :
    p.findOne owner name kinds none = some k ↔ p.find owner name kinds = [k] := by
  unfold findOne
  split
  next only heq => rw [heq, Option.some.injEq, List.cons.injEq, and_iff_left rfl]
  next hne => exact iff_of_false nofun (hne k)

end Program

namespace Scan

variable {path : String} {s t u : Scan} {known : Objects}

/-! ### Calls -/

/-- Statements that are linked name no programs, calls apart, which name one. -/
theorem linked?_cases {kind : String} (h : linked? kind = some rs) :
    (∀ r ∈ rs, r.expects ≠ .program) ∨ kind = "Call" ∧
      rs = [⟨.program, .program, .call, false⟩] := by
  have hrs := ofStatement?_of_linked? h
  by_cases hcall : kind = "Call"
  · subst hcall
    exact .inr ⟨rfl, (Option.some.inj hrs).symm⟩
  · unfold Reference.ofStatement? at hrs
    -- all other statements are taken from the list of references one by one
    split at hrs
    all_goals first | exact absurd rfl hcall | cases hrs
    all_goals exact .inl (by decide)

/-- Links to symbols of the program itself change nothing of it. -/
theorem program_of_runs_linkReferences (hrs : ∀ r ∈ rs, r.expects ≠ .program)
    (hrun : Runs (linkReferences known owner caller n rs) s () u) : u.program = s.program := by
  have hkeeps : Keeps (Preserves fun t => t.program = s.program)
      (linkReferences known owner caller n rs) :=
    keeps_linkReferences (fun r hr _ _ => keeps_targetsOf (fun h => absurd h (hrs r hr))
      fun h => absurd h (hrs r hr)) fun _ _ _ _ _ _ _ _ _ _ _ => keeps_linkTarget fun _ h _ => h
  exact hkeeps.of_runs hrun rfl

/-- The operand of a call is a word. -/
theorem exists_word_of_call (hroot : root.IsSource) (hn : n ∈ allNodes [root.toElement])
    (hkind : n.head.kind.name = "Call") :
    ∃ word name, n.operand? .program = some (.word word) ∧ word.HasLines ∧ word.text = some name ∧
      name ≠ "" := by
  have hlinked : linked? n.head.kind.name = some [⟨.program, .program, .call, false⟩] := by
    rw [hkind]
    rfl
  have hoffers := hroot.isApt hn _ (ofStatement?_of_linked? hlinked)
  obtain ⟨o, ho⟩ := Option.isSome_iff_exists.mp (hoffers.needed _ (mem_singleton_self _) rfl)
  obtain ⟨word, name, rfl, hname, hne⟩ := hoffers.words _ (mem_singleton_self _) o ho
  obtain ⟨word', heq, hlines⟩ :=
    callsByWord_of_isSource hroot hn hlinked _ (mem_singleton_self _) rfl _ ho
  obtain rfl := Operand.word.inj heq
  exact ⟨word, name, ho, hlines, hname, hne⟩

/-- The symbol for a called program is one of the program, found or new. -/
theorem Provides.lt (h : Provides owner name k s t) (hs : s.program.Indexed) :
    k < t.program.symbols.length := by
  rw [← length_cards]
  rcases h.cards with ⟨hfound, hcards⟩ | ⟨-, rfl, own, hcards, -⟩
  · obtain ⟨own, hown, -⟩ := hs.of_mem_find (findOne_eq_some.mp hfound ▸ mem_singleton_self k)
    rw [hcards]
    exact (List.getElem?_eq_some_iff.mp hown).1
  · rw [hcards, length_append]
    exact Nat.lt_succ_self _

/-- Pieces of a program that is stored are pieces of its file. -/
theorem of_runs_bookmark (h : s.IsStored path) {span : Span} {place : Bookmark}
    (hrun : Runs (bookmark span) s place u) : place = ⟨some path, span⟩ ∧ s = u := by
  obtain ⟨self, hself, hrun⟩ := runs_symbol_bind.mp (runs_program_bind.mp hrun)
  obtain ⟨file, hfile, hrun⟩ := runs_ofExcept_bind.mp hrun
  obtain rfl := Except.ok.inj ((h.storable.fileOf_top hself).symm.trans hfile)
  obtain ⟨rfl, rfl⟩ := runs_pure.mp hrun
  exact ⟨rfl, rfl⟩

/-- A link to a symbol of the program itself. -/
theorem eq_of_runs_linkTarget (h : s.IsStored path) {c : Nat} (hc : c < s.program.symbols.length)
    (hi : i = s.program.id) {kind : LinkKind}
    (hrun : Runs (linkTarget known kind caller o ⟨i, c⟩) s () u) :
    ⟨s.program, s.events.push (.link kind caller (s.program.objectOf c) ⟨some path, o.span⟩)⟩ =
      u := by
  have hrun := runs_program_bind.mp hrun
  obtain ⟨callee, hcallee⟩ := Option.isSome_iff_exists.mp (h.isSome hc)
  have hobject : objectOf known s.program ⟨i, c⟩ = some callee := (if_pos hi).trans hcallee
  rw [hobject] at hrun
  obtain ⟨place, s₁, hplace, hemit⟩ := runs_bind.mp hrun
  obtain ⟨rfl, rfl⟩ := of_runs_bookmark h hplace
  rw [hcallee]
  exact runs_modify.mp hemit

/-- From `s` to `u`, a call of a program that is not known was linked, to the symbol `c` that there
is for it. -/
structure Calls (path : String) (k : Nat) (n : Node) (o : Operand) (name : String) (c : Nat)
    (s u : Scan) : Prop where
  provides : ∃ t, Provides k name c s t ∧
    u.program = t.program.setResolved n.head.number .program [⟨t.program.id, c⟩]
  stored : (u.program.objectOf c).isSome = true
  links : ∃ new, u.events.toList = s.events.toList ++ new ∧
    new.filter Event.isLink =
      [.link .call (s.program.objectOf k) (u.program.objectOf c) ⟨some path, o.span⟩]

/-- **A call** leaves the program as it is, if what is called was found. Otherwise it is linked to a
symbol of its own. -/
theorem of_runs_call (h : s.IsStored path) (hkind : n.head.kind.name = "Call") {word : Token}
    (ho : n.operand? .program = some (.word word)) (hword : word.HasLines)
    (hrun : Runs (linkVisit known stack (.entering n)) s stack' u) :
    ∃ k, current stack = .ok k ∧ k < s.program.symbols.length ∧
      (s.program.resolvedAs n.head.number .program ≠ [] ∧ u.program = s.program ∨
        s.program.resolvedAs n.head.number .program = [] ∧
          ∃ name c, word.text = some name ∧ Calls path k n (.word word) name c s u) := by
  have hne : n.head.kind.name ≠ "Procedure" := by
    rw [hkind]
    decide
  rw [linkVisit, if_neg hne, hkind] at hrun
  obtain ⟨_, hstatement, -⟩ := runs_bind_pure.mp hrun
  rcases of_runs_linkStatement hstatement with ⟨hidle, -⟩ | ⟨k, hcurrent, hk, hrun⟩
  · cases hidle
  refine ⟨k, hcurrent, hk, ?_⟩
  -- a call has one reference, by the word that names the program
  obtain ⟨operand, hoperand, hrun⟩ := runs_ofExcept_bind.mp hrun
  obtain rfl : operand = some (.word word) := (operandIn_eq hoperand).trans ho
  obtain ⟨refs, s₂, htargets, hrun⟩ := runs_bind.mp hrun
  obtain ⟨_, hlinks, -⟩ := runs_bind_pure.mp hrun
  have htargets := runs_program_bind.mp htargets
  dsimp only at htargets
  by_cases hnone : s.program.resolvedAs n.head.number .program = []
  · refine .inr ⟨hnone, ?_⟩
    rw [hnone, if_pos (by rfl)] at htargets
    obtain ⟨c, t, hunknown, htargets⟩ := runs_bind.mp htargets
    obtain ⟨hstored, -, ⟨new, hnew, hquiet⟩, -, name, hname, hprovides⟩ :=
      h.unknownProgram hk ⟨word, rfl, hword⟩ hunknown
    obtain ⟨_, hmodify, rfl⟩ := runs_bind_pure.mp htargets
    obtain rfl := runs_modify.mp hmodify
    obtain ⟨_, hlink, -⟩ := runs_bind_pure.mp hlinks
    -- the symbol is stored by now, so there is a link to it
    obtain ⟨hstored', -⟩ := hstored.setResolved n.head.number .program [⟨t.program.id, c⟩]
    have hc := hprovides.lt h.storable.indexed
    obtain rfl := eq_of_runs_linkTarget hstored' hc hprovides.id.symm hlink
    let linked : Event := .link .call (s.program.objectOf k)
      ((t.program.setResolved n.head.number .program [⟨t.program.id, c⟩]).objectOf c)
        ⟨some path, (Operand.word word).span⟩
    refine ⟨name, c, hname, ⟨t, hprovides, rfl⟩, hstored'.isSome hc, new ++ [linked], ?_, ?_⟩
    · rw [Array.toList_push, hnew, append_assoc]
    · have hnone : new.filter Event.isLink = [] := by
        refine filter_eq_nil_iff.mpr fun e he hlink => ?_
        have hno := hquiet e he
        rw [isNoLink, hlink] at hno
        cases hno
      rw [filter_append, hnone]
      rfl
  · refine .inl ⟨hnone, ?_⟩
    rw [isEmpty_eq_false_iff.mpr hnone, Bool.and_false, if_neg Bool.false_ne_true] at htargets
    obtain ⟨-, rfl⟩ := runs_pure.mp htargets
    exact program_of_runs_linkTargets hlinks

end Scan

/-! ### What a walk preserves -/

/-- A new symbol for a program that is not known is one more for its owner and name, and no
other. -/
theorem Program.unknowns_append {own : Symbol} (hcards : q.cards = p.cards ++ [own])
    (hkind : own.kind = .unknownProgram) (hparent : own.parent = some k) (owner : Nat)
    (key : String) :
    q.unknowns owner key = p.unknowns owner key ++
      if owner = k ∧ key = Text.upper own.name then [p.cards.length] else [] := by
  unfold unknowns
  rw [numbersOf_append hcards]
  congr 1
  by_cases hown : owner = k ∧ key = Text.upper own.name
  · rw [if_pos hown]
    simp [hown.1, hown.2, hkind, hparent]
  · rw [if_neg hown]
    simpa [hkind, hparent] using fun (hk : k = owner) (hkey : Text.upper own.name = key) =>
      hown ⟨hk.symm, hkey.symm⟩

namespace Scan

variable {path : String} {s t u start : Scan} {known : Objects} {absent : String → Prop}

/-- What holds on the way of a walk that began at `start`: no two programs that are not known have
the same owner and name, all of their names are absent from the library, and the statements ahead
stand for what they stood for. -/
structure Tallied (absent : String → Prop) (start s : Scan) (ahead : List Visit) : Prop where
  once : ∀ owner key, (s.program.unknowns owner key).length ≤ 1
  absent : ∀ c ∈ s.program.cards, c.kind = .unknownProgram → absent c.name
  ahead : ∀ n, .entering n ∈ ahead → ∀ role,
    s.program.resolvedAs n.head.number role = start.program.resolvedAs n.head.number role

/-- The names of the calls in a source that stand for nothing yet are absent from the library. -/
def CallsAbsent (absent : String → Prop) (s : Scan) (root : Node) : Prop :=
  ∀ n ∈ allNodes [root.toElement], n.head.kind.name = "Call" →
    s.program.resolvedAs n.head.number .program = [] →
    ∀ o name, n.operand? .program = some o → o.name = some name → absent name

/-- A visit that changes no symbol keeps the tally. -/
theorem Tallied.of_program_eq (h : Tallied absent start s (v :: vs))
    (hprogram : u.program = s.program) : Tallied absent start u vs := by
  obtain ⟨honce, habsent, hahead⟩ := h
  rw [← hprogram] at honce habsent hahead
  exact ⟨honce, habsent, fun n hn => hahead n (mem_cons_of_mem v hn)⟩

/-- **A call** of a program that is not known is the only one with its owner and name. -/
theorem Tallied.calls (h : Tallied absent start s (.entering n :: vs)) (hs : s.program.Indexed)
    (hahead : ∀ m, .entering m ∈ vs → m.head.number ≠ n.head.number) {c : Nat} (hname : name ≠ "")
    (habsent : absent name) (hcalls : Calls path k n o name c s u) :
    Tallied absent start u vs ∧ u.program.unknowns k (Text.upper name) = [c] := by
  obtain ⟨t, hprovides, hprogram⟩ := hcalls.provides
  have hfind : s.program.find k (some name) [.unknownProgram] =
    s.program.unknowns k (Text.upper name) := hs.find hname k _
  -- nothing but the symbols and what the call itself stands for has changed
  have hsame : ∀ owner key, u.program.unknowns owner key = t.program.unknowns owner key := by
    rw [hprogram]
    exact fun _ _ => rfl
  have hcards : u.program.cards = t.program.cards := by
    rw [hprogram]
    rfl
  have hresolved : ∀ m, .entering m ∈ vs → ∀ role,
      u.program.resolvedAs m.head.number role = start.program.resolvedAs m.head.number role := by
    intro m hm role
    rw [hprogram, resolvedAs_setResolved, if_neg fun heq => hahead m hm (Prod.mk.inj heq).1,
      ← h.ahead m (mem_cons_of_mem _ hm) role]
    unfold resolvedAs
    rw [hprovides.resolved]
  -- the symbol was found, so that nothing is new, or it is a new one and there was none
  rcases hprovides.cards with ⟨hfound, hcards'⟩ | ⟨hfound, rfl, own, hcards', hkind, rfl, hparent⟩
  · have hunknowns : ∀ owner key, u.program.unknowns owner key = s.program.unknowns owner key := by
      intro owner key
      rw [hsame]
      unfold unknowns numbersOf
      rw [hcards']
    refine ⟨⟨fun owner key => ?_, fun own hown => h.absent own (by rwa [← hcards', ← hcards]),
      hresolved⟩, ?_⟩
    · rw [hunknowns]
      exact h.once owner key
    · rw [hunknowns, ← hfind]
      exact findOne_eq_some.mp hfound
  · have hnone : s.program.unknowns k (Text.upper own.name) = [] := by
      rcases hunknowns : s.program.unknowns k (Text.upper own.name) with _ | ⟨c, _ | ⟨d, rest⟩⟩
      · rfl
      · rw [findOne_eq_some.mpr (hfind.trans hunknowns)] at hfound
        cases hfound
      · have hlength := h.once k (Text.upper own.name)
        rw [hunknowns, length_cons, length_cons] at hlength
        omega
    have hunknowns : ∀ owner key, u.program.unknowns owner key = s.program.unknowns owner key ++
        if owner = k ∧ key = Text.upper own.name then [s.program.cards.length] else [] := by
      intro owner key
      rw [hsame]
      exact unknowns_append hcards' hkind hparent owner key
    refine ⟨⟨fun owner key => ?_, fun c hc hunknown => ?_, hresolved⟩, ?_⟩
    · rw [hunknowns]
      split
      · next heq =>
        rw [heq.1, heq.2, hnone]
        exact Nat.le_refl 1
      · rw [append_nil]
        exact h.once owner key
    · rw [hcards, hcards'] at hc
      rcases mem_append.mp hc with hc | hc
      · exact h.absent c hc hunknown
      · rw [mem_singleton.mp hc]
        exact habsent
    · rw [hunknowns, if_pos ⟨rfl, rfl⟩, hnone]
      rfl

section Walk

variable {root : Node} (hroot : root.IsSource) (habsent : CallsAbsent absent start root)

include hroot habsent

/-- **One visit** keeps the tally. -/
theorem Tallied.linkVisit (hs : s.IsStored path) (hv : v.Fits root c)
    (h : Tallied absent start s (v :: vs))
    (hnodup : (((v :: vs).filterMap Visit.entered?).map (·.head.number)).Nodup)
    (hrun : Runs (linkVisit known stack v) s stack' u) : Tallied absent start u vs := by
  rcases of_runs_linkVisit hrun with ⟨rfl, -⟩ | ⟨n, rs, rfl, hlinked, -, hstatement⟩
  · exact h.of_program_eq rfl
  -- only calls can declare programs
  rcases linked?_cases hlinked with hrs | ⟨hkind, -⟩
  · refine h.of_program_eq ?_
    rcases of_runs_linkStatement hstatement with ⟨-, rfl⟩ | ⟨k, -, -, hreferences⟩
    · rfl
    · exact program_of_runs_linkReferences hrs hreferences
  · have hn := mem_allNodes_of_placed hroot hv
    obtain ⟨word, name, ho, hword, hname, hne⟩ := exists_word_of_call hroot hn hkind
    -- the library had the program, or it did not
    obtain ⟨k, -, -, ⟨-, hprogram⟩ | ⟨hnone, name', d, hname', hcalls⟩⟩ :=
      of_runs_call hs hkind ho hword hrun
    · exact h.of_program_eq hprogram
    · obtain rfl := Option.some.inj (hname.symm.trans hname')
      rw [h.ahead n mem_cons_self] at hnone
      refine (h.calls hs.storable.indexed (fun m hm heq => ?_) hne
        (habsent n hn hkind hnone _ _ ho hname) hcalls).1
      refine (nodup_cons.mp hnodup).1 (mem_map.mpr ⟨m, ?_, heq⟩)
      exact mem_filterMap.mpr ⟨.entering m, hm, rfl⟩

/-- **A walk** keeps the tally. -/
theorem Tallied.linkVisits {rest : List Visit} :
    ∀ {s u : Scan} {c : Option Node} {stack stack' : Enclosing}, s.IsStored path →
      Orderly root c vs → Tallied absent start s (vs ++ rest) →
      (((vs ++ rest).filterMap Visit.entered?).map (·.head.number)).Nodup →
      Runs (linkVisits known stack vs) s stack' u → Tallied absent start u rest := by
  induction vs with
  | nil =>
    intro s u c stack stack' _ _ h _ hrun
    obtain ⟨-, rfl⟩ := runs_pure.mp hrun
    exact h
  | cons v vs ih =>
    intro s u c stack stack' hs horderly h hnodup hrun
    obtain ⟨hv, horderly⟩ := horderly
    obtain ⟨mid, t, hvisit, hrest⟩ := runs_bind.mp hrun
    obtain ⟨hstored, -, -⟩ := hs.linkVisit (Visit.Fits.callsByWord hroot hv) hvisit
    have hnodup' : (((vs ++ rest).filterMap Visit.entered?).map (·.head.number)).Nodup := by
      refine hnodup.sublist (List.Sublist.map _ ?_)
      exact (sublist_cons_self v (vs ++ rest)).filterMap _
    exact ih hstored horderly (Tallied.linkVisit hroot habsent hs hv h hnodup hvisit) hnodup' hrest

end Walk

/-! ### From the source to the calls -/

theorem Enlarges.root?_eq (h : s.Enlarges t) (hroot : s.program.root? = some root) :
    t.program.root? = some root := by
  rw [root?_eq_cards] at hroot ⊢
  obtain ⟨own, hown, htree⟩ := Option.bind_eq_some_iff.mp hroot
  rw [getElem?_of_isPrefix h.isPrefix hown]
  exact htree

section Source

variable {p : Program} {i : ProgramId} {origin : Origin} {root : Node}
  (henrolled : p.Enrolled i origin root root.declarations)

include henrolled

/-- Nothing that a source declares is a program that is not known. -/
theorem kind_ne_unknownProgram {c : Symbol} (hc : c ∈ p.cards) : c.kind ≠ .unknownProgram := by
  intro hunknown
  obtain ⟨k, hk⟩ := mem_iff_getElem?.mp hc
  cases k with
  | zero =>
    rw [Option.some.inj (hk.symm.trans henrolled.own)] at hunknown
    cases hunknown
  | succ =>
    obtain ⟨d, -, hentered⟩ := henrolled.exists_entered hk
    have hkind := hentered.kind
    rw [hunknown] at hkind
    -- no kind of declaration is that of a called program
    unfold declaredKind at hkind
    repeat' split at hkind
    all_goals exact nomatch hkind

/-- When the walk begins, no program has been called. -/
theorem tallied_start (htable : p.SameTable start.program) (vs : List Visit) :
    Tallied absent start start vs := by
  refine ⟨fun owner key => ?_, fun c hc hunknown => ?_, fun _ _ _ => rfl⟩
  · have hnone : start.program.unknowns owner key = [] := by
      refine eq_nil_iff_forall_not_mem.mpr fun k hk => ?_
      obtain ⟨c, hc, htest⟩ := mem_numbersOf.mp hk
      rw [htable.cards] at hc
      rw [Bool.and_eq_true, beq_iff_eq] at htest
      exact kind_ne_unknownProgram henrolled (mem_of_getElem? hc) htest.2
    rw [hnone]
    exact Nat.zero_le 1
  · rw [htable.cards] at hc
    exact absurd hunknown (kind_ne_unknownProgram henrolled hc)

/-- A call stands for what the library has. -/
theorem exists_found_of_settles (hkind : n.head.kind.name = "Call")
    (ho : n.operand? .program = some o)
    (hsettles : ∀ rs, Reference.ofStatement? n.head.kind.name = some rs → p.Settles library n rs) :
    ∃ l name found, library = some l ∧ o.name = some name ∧ l.find name i.path = .ok found ∧
      (p.resolvedAs n.head.number .program = [] ↔ found = none) := by
  have hrs : Reference.ofStatement? n.head.kind.name =
      some [⟨.program, .program, .call, false⟩] := by
    rw [hkind]
    rfl
  obtain ⟨l, name, found, hl, hname, hfound, hrefs⟩ :=
    (hsettles _ hrs _ (mem_singleton_self _) o ho).called rfl
  refine ⟨l, name, found, hl, hname, ?_, ?_⟩
  · rw [← hfound, path, henrolled.id]
  · rw [hrefs]
    cases found with
    | none => exact iff_of_true rfl rfl
    | some => exact iff_of_false (cons_ne_nil _ _) nofun

end Source

end Scan

/-- The symbol that a walk takes for the one around a statement: the first one of the procedures
that cannot be told from the procedure in which the statement is, or the program if it is in
none. -/
structure Program.IsAround (p : Program) (n : Node) (k : Nat) : Prop where
  inside : ∀ m ∈ p.treeNodes, m.isProcedure = true → n ∈ allNodes m.children →
    (p.lookalikes m).head? = some k ∧
    ∃ own ∈ p.lookalikes m, ∀ (j : Nat) self, p.symbols[j]? = some self →
      (self.kind = .procedure ∧ self.tree = .root m ↔ j = own)
  outside : (∀ m ∈ p.treeNodes, m.isProcedure = true → n ∉ allNodes m.children) → k = 0

/-- What the walk has found for a procedure is what `IsAround` asks for. -/
theorem isAround_of_lookalikes (henrolled : p.Enrolled i origin root root.declarations)
    (hroot : root.IsSource)
    (hcards : ∃ new, q.cards = p.cards ++ new ∧ ∀ c ∈ new, c.kind = .unknownProgram)
    (hnodes : q.treeNodes = allNodes [root.toElement]) (hn : (c, n) ∈ (none, root) :: root.placed)
    (hk : c = none ∧ k = 0 ∨ ∃ m, c = some m ∧ (p.lookalikes m).head? = some k) :
    q.IsAround n k := by
  refine ⟨fun m hm hprocedure hmem => ?_, fun hout => ?_⟩
  · rw [hnodes] at hm
    obtain rfl := (mem_allNodes_iff hroot hn hm hprocedure).mp hmem
    obtain ⟨hpart, hsection⟩ := mem_nodes_of_isProcedure hroot hm hprocedure
    obtain ⟨own, hown, hstands⟩ :=
      exists_mem_lookalikes henrolled hroot hcards hpart hsection hprocedure
    refine ⟨?_, own, hown, stands_iff henrolled hroot hcards hstands⟩
    rw [lookalikes_eq hcards]
    obtain ⟨hnone, -⟩ | ⟨m', hm', hhead⟩ := hk
    · cases hnone
    · rw [Option.some.inj hm']
      exact hhead
  · obtain ⟨-, hzero⟩ | ⟨m, rfl, -⟩ := hk
    · exact hzero
    · -- the statement is in this procedure
      obtain ⟨hm, hprocedure⟩ := mem_allNodes_of_encloses hroot hn
      exact absurd ((mem_allNodes_iff hroot hn hm hprocedure).mpr rfl)
        (hout m (hnodes ▸ hm) hprocedure)

namespace Scan

/-- In a walk from `s` to `u`, the only visit that enters the node leads from `t` to `t'`. -/
def Enters (known : Objects) (s u : Scan) (n : Node) (t t' : Scan) : Prop :=
  ∃ before after stack stack' last, Runs visits s (before ++ .entering n :: after) s ∧
    .entering n ∉ before ++ after ∧
    Runs (linkVisits known [some 0] before) s stack t ∧
    Runs (linkVisit known stack (.entering n)) t stack' t' ∧
    Runs (linkVisits known stack' after) t' last u

/-- The walk through a source enters each of its nodes at one place only. -/
theorem exists_split_of_mem (hroot : root.IsSource) (hn : n ∈ allNodes [root.toElement]) :
    ∃ before after, root.toElement.walk = before ++ .entering n :: after ∧
      .entering n ∉ before ++ after := by
  have hnodup := hroot.numbers
  rw [← entered_walk] at hn hnodup
  obtain ⟨v, hv, hentered⟩ := mem_filterMap.mp hn
  obtain rfl : v = .entering n := by
    cases v with
    | entering => exact congrArg Visit.entering (Option.some.inj hentered)
    | leaving => cases hentered
  obtain ⟨before, after, hsplit⟩ := append_of_mem hv
  refine ⟨before, after, hsplit, fun hmem => ?_⟩
  have hfirst : ((n :: (before ++ after).filterMap Visit.entered?).map (·.head.number)).Nodup := by
    rw [hsplit] at hnodup
    exact ((perm_middle.filterMap Visit.entered?).map _).nodup_iff.mp hnodup
  exact (nodup_cons.mp hfirst).1 (mem_map.mpr ⟨n, mem_filterMap.mpr ⟨_, hmem, rfl⟩, rfl⟩)

section Linked

variable {p : Program} {i : ProgramId} {origin : Origin} {root : Node} {path : String} {s u : Scan}
  {known : Objects} {absent : String → Prop} {last : Enclosing}
  (henrolled : p.Enrolled i origin root root.declarations) (hroot : root.IsSource)
  (htable : p.SameTable s.program) (hstored : s.IsStored path) (habsent : CallsAbsent absent s root)
  (hwalk : Runs (linkVisits known [some 0] root.toElement.walk) s last u)

include henrolled hroot htable hstored habsent hwalk

/-- What holds at the end of the walk. -/
theorem tallied_of_walk : u.IsStored path ∧ s.Enlarges u ∧ Tallied absent s u [] := by
  obtain ⟨horderly, -⟩ := isRound_walk hroot
  obtain ⟨hu, henlarges, -⟩ :=
    linkVisits_lookalikes henrolled hroot htable hstored (Enlarges.refl s) horderly rfl hwalk
  refine ⟨hu, henlarges, Tallied.linkVisits hroot habsent hstored horderly
    (tallied_start henrolled htable _) ?_ hwalk⟩
  rw [append_nil, entered_walk]
  exact hroot.numbers

/-- **The link of a call** of a program that is not known. -/
theorem exists_link_of_call (hn : n ∈ allNodes [root.toElement]) (hkind : n.head.kind.name = "Call")
    (hnone : s.program.resolvedAs n.head.number .program = []) (ho : n.operand? .program = some o)
    (hname : o.name = some name) (hvisits : Runs visits s root.toElement.walk s) :
    ∃ t t' new k c, Enters known s u n t t' ∧ t'.events.toList = t.events.toList ++ new ∧
      new.filter Event.isLink = [.link .call (u.program.objectOf k) (u.program.objectOf c)
        ⟨some path, o.span⟩] ∧
      (u.program.objectOf k).isSome = true ∧ (u.program.objectOf c).isSome = true ∧
      u.program.find k (some name) [.unknownProgram] = [c] ∧
      ∃ m, (m, n) ∈ (none, root) :: root.placed ∧
        (m = none ∧ k = 0 ∨ ∃ l, m = some l ∧ (p.lookalikes l).head? = some k) := by
  obtain ⟨word, name', hword, hlines, hname', hne⟩ := exists_word_of_call hroot hn hkind
  obtain rfl := Option.some.inj (hword.symm.trans ho)
  obtain rfl : name = name' := Option.some.inj (hname.symm.trans hname')
  obtain ⟨before, after, hsplit, honly⟩ := exists_split_of_mem hroot hn
  obtain ⟨horderly, -⟩ := isRound_walk hroot
  have hnodup := hroot.numbers
  rw [← entered_walk] at hnodup
  obtain ⟨hu, -, htallied⟩ := tallied_of_walk henrolled hroot htable hstored habsent hwalk
  rw [hsplit] at hwalk horderly hnodup
  obtain ⟨hbefore, hfits, hafter⟩ := orderly_append.mp horderly
  obtain ⟨stack, t, hrunBefore, hrest⟩ := runs_linkVisits_append.mp hwalk
  obtain ⟨stack', t', hvisit, hrunAfter⟩ := runs_bind.mp hrest
  -- up to the call
  obtain ⟨ht, hstart, hstack⟩ :=
    linkVisits_lookalikes henrolled hroot htable hstored (Enlarges.refl s) hbefore rfl hrunBefore
  have htallied₁ := Tallied.linkVisits hroot habsent hstored hbefore
    (tallied_start henrolled htable _) hnodup hrunBefore
  -- the call
  obtain ⟨k, hcurrent, hk, ⟨hsome, -⟩ | ⟨-, name', c, hname', hcalls⟩⟩ :=
    of_runs_call ht hkind hword hlines hvisit
  · rw [htallied₁.ahead n mem_cons_self, hnone] at hsome
    exact absurd rfl hsome
  obtain rfl : name = name' := Option.some.inj (hname.symm.trans hname')
  have hnumbers : ∀ m, .entering m ∈ after → m.head.number ≠ n.head.number := by
    intro m hm heq
    rw [filterMap_append, map_append] at hnodup
    have hnodup := (nodup_append.mp hnodup).2.1
    exact (nodup_cons.mp hnodup).1 (mem_map.mpr ⟨m, mem_filterMap.mpr ⟨_, hm, rfl⟩, heq⟩)
  obtain ⟨-, hunknowns⟩ :=
    htallied₁.calls ht.storable.indexed hnumbers hne (habsent n hn hkind hnone _ _ ho hname) hcalls
  -- what follows leaves all this as it is
  obtain ⟨ht', htt', -⟩ := ht.linkVisit (Visit.Fits.callsByWord hroot hfits) hvisit
  obtain ⟨-, htu⟩ := ht'.linkVisits hroot hafter hrunAfter
  obtain ⟨c', hc', -⟩ := mem_numbersOf.mp (hunknowns ▸ mem_singleton_self c :
    c ∈ t'.program.unknowns k _)
  have hc : c < t'.program.symbols.length := by
    rw [← length_cards]
    exact (List.getElem?_eq_some_iff.mp hc').1
  have hk' := Nat.lt_of_lt_of_le hk htt'.length_le
  have hcaller : t.program.objectOf k = u.program.objectOf k := by
    rw [htu.objects k hk', htt'.objects k hk]
  obtain ⟨new, hevents, hlinks⟩ := hcalls.links
  rw [hcaller, ← htu.objects c hc] at hlinks
  refine ⟨t, t', new, k, c, ⟨before, after, stack, stack', last, hsplit ▸ hvisits, honly,
    hrunBefore, hvisit, hrunAfter⟩, hevents, hlinks,
    hu.isSome (Nat.lt_of_lt_of_le hk' htu.length_le), ?_, ?_, _, hfits, hstack.of_current hcurrent⟩
  · rw [htu.objects c hc]
    exact hcalls.stored
  · -- the symbol of the call is still the only one
    obtain ⟨more, hcards, -⟩ := htu.cards
    have hkept : t'.program.unknowns k (Text.upper name) <+:
        u.program.unknowns k (Text.upper name) :=
      ⟨_, (numbersOf_append hcards _).symm⟩
    rw [hunknowns] at hkept
    rw [hu.storable.indexed.find hne]
    exact (hkept.eq_of_length_le (htallied.once k (Text.upper name))).symm

end Linked

/-- **One symbol for each caller and name.** Linking a program declares no two programs that are not
known with the same owner and name, case put aside, and none whose name the library has. The walk
comes once to every call. A call whose name the library does not have is given exactly one link, to
the program of that name that is a member of the symbol around the call, and from the object of this
symbol. -/
theorem calls_of_unknown_programs {files : SourceFiles} {library : Option Library} {i : ProgramId}
    {origin : Origin} {text : Option String} {known : Objects} {s u : Scan}
    (hsaved : Runs (do readProgram files; resolve files library; discard (save 0 none))
      ⟨Program.unread i origin text, #[]⟩ () s)
    (hlinked : Runs (saveLinks known) s () u) :
    (∀ k key,
      (((u.program.membersOf k).get key).filter (u.program.isOneOf [.unknownProgram])).length ≤ 1) ∧
      (∀ (c : Nat) own, u.program.symbols[c]? = some own → own.kind = .unknownProgram →
        ∃ l, library = some l ∧ l.find own.name i.path = .ok none) ∧
      ∀ n ∈ u.program.treeNodes, n.head.kind.name = "Call" →
        ∃ l o name found, library = some l ∧ n.operand? .program = some o ∧ o.name = some name ∧
          l.find name i.path = .ok found ∧
          (found = none → ∃ path t t' new k c, origin = .file path ∧ Enters known s u n t t' ∧
            t'.events.toList = t.events.toList ++ new ∧
            new.filter Event.isLink = [.link .call (u.program.objectOf k) (u.program.objectOf c)
              ⟨some path, o.span⟩] ∧
            (u.program.objectOf k).isSome = true ∧ (u.program.objectOf c).isSome = true ∧
            u.program.find k (some name) [.unknownProgram] = [c] ∧ u.program.IsAround n k) := by
  obtain ⟨vs, s₁, hvisits, hwalk⟩ := runs_bind.mp hlinked
  obtain ⟨rfl, hvs⟩ := of_runs_visits hvisits
  obtain ⟨last, hwalk⟩ := runs_discard.mp hwalk
  rcases exists_settled_of_runs_saved hsaved with
    ⟨hbare, -⟩ | ⟨root, path, p, -, hroot, henrolled, htable, hstored, rfl, hresolved, hsettles⟩
  · -- there is nothing to walk through
    rw [hbare.root?_eq] at hvs
    obtain rfl : vs = [] := hvs
    obtain ⟨-, rfl⟩ := runs_pure.mp hwalk
    obtain ⟨self, hsymbols, hkind, -⟩ := exists_self_of_isBare hbare
    have hprograms : ∀ (c : Nat) own, s.program.symbols[c]? = some own → own.kind = .program := by
      intro c own hown
      rw [hsymbols] at hown
      rw [mem_singleton.mp (mem_of_getElem? hown)]
      exact hkind
    refine ⟨fun k key => ?_, fun c own hown hunknown => ?_, fun n hn => ?_⟩
    · rw [filter_eq_nil_iff.mpr fun c _ => ?_]
      · exact Nat.zero_le 1
      · unfold isOneOf
        cases hown : s.program.symbols[c]? with
        | none => exact Bool.false_ne_true
        | some own =>
          dsimp only
          rw [hprograms c own hown]
          decide
    · cases (hprograms c own hown).symm.trans hunknown
    · unfold treeNodes at hn
      rw [hbare.root?_eq] at hn
      exact absurd hn (allNodes_nil ▸ not_mem_nil)
  · have hsame : s.program.root? = some root := htable.root?_eq.trans henrolled.root?_eq
    rw [hsame] at hvs
    obtain rfl : vs = root.toElement.walk := hvs
    have hrefs : s.program.resolvedAs = p.resolvedAs := by
      unfold resolvedAs
      rw [hresolved]
    have habsent : CallsAbsent (fun name => ∃ l, library = some l ∧ l.find name i.path = .ok none)
        s root := by
      -- a call that stands for nothing was not found in the library
      intro n hn hkind hnone o name ho hname
      obtain ⟨l, name', found, hl, hname', hfound, hiff⟩ :=
        exists_found_of_settles henrolled hkind ho (hsettles n hn)
      obtain rfl := Option.some.inj (hname.symm.trans hname')
      rw [hrefs] at hnone
      exact ⟨l, hl, hiff.mp hnone ▸ hfound⟩
    obtain ⟨hu, henlarges, htallied⟩ := tallied_of_walk henrolled hroot htable hstored habsent hwalk
    have hcards := htable.cards ▸ henlarges.cards
    have hnodes := treeNodes_eq (henlarges.root?_eq hsame)
    refine ⟨fun k key => ?_, fun c own hown => ?_, fun n hn hkind => ?_⟩
    · rw [hu.storable.indexed.filter_get]
      exact htallied.once k key
    · exact htallied.absent own.card (mem_of_getElem? (cards_of_getElem? hown))
    · rw [hnodes] at hn
      obtain ⟨word, -, ho, -⟩ := exists_word_of_call hroot hn hkind
      obtain ⟨l, name, found, hl, hname, hfound, hiff⟩ :=
        exists_found_of_settles henrolled hkind ho (hsettles n hn)
      refine ⟨l, _, name, found, hl, ho, hname, hfound, fun hnone => ?_⟩
      rw [← hiff, ← hrefs] at hnone
      obtain ⟨t, t', new, k, c, henters, hevents, hlinks, hcaller, hcallee, hfind, m, hm, hk⟩ :=
        exists_link_of_call henrolled hroot htable hstored habsent hwalk hn hkind hnone ho hname
          hvisits
      exact ⟨path, t, t', new, k, c, rfl, henters, hevents, hlinks, hcaller, hcallee, hfind,
        isAround_of_lookalikes henrolled hroot hcards hnodes hm hk⟩

/-- The library with the program `A` alone. -/
def ownLibrary : Library where
  entries := [⟨⟨"A.ezt", 0⟩, "A"⟩]

/-- A program that calls itself, and twice from one procedure a program that is not known. -/
def repeatedCalls : Scan :=
  ⟨unread ⟨"A.ezt", 0⟩ (.file "A.ezt") (some "JOB\nCALL a\nX PROC\nCALL B\nCALL b\n"), #[]⟩

theorem calls_of_unknown_programs_repeated :
    ∃ s u, Runs (do readProgram []; resolve [] (some ownLibrary); discard (save 0 none))
      repeatedCalls () s ∧
      Runs (saveLinks fun _ => none) s () u ∧
        (u.events.toList.filterMap Event.caller?).map (·.index) = [0, 1, 1] ∧
      ∀ k key, (((u.program.membersOf k).get key).filter
        (u.program.isOneOf [.unknownProgram])).length ≤ 1 := by
  have hsaved : Runs (do readProgram []; resolve [] (some ownLibrary); discard (save 0 none))
      repeatedCalls () _ :=
    runs_of_isOk (by decide +kernel)
  have hlinked : Runs (saveLinks fun _ => none)
      ((do readProgram []; resolve [] (some ownLibrary); discard (save 0 none) :
        Work Scan Unit).runOn repeatedCalls).2 () _ :=
    runs_of_isOk (by decide +kernel)
  exact ⟨_, _, hsaved, hlinked, by decide +kernel, (calls_of_unknown_programs hsaved hlinked).1⟩

/-- A program with two procedures of one name in one line, of which the second one calls a program
that is not known. -/
def twinProcedures : Scan :=
  ⟨unread ⟨"A.ezt", 0⟩ (.file "A.ezt") (some "PARM\nX PROC END-PROC X PROC CALL B\n"), #[]⟩

/-- The call is in the second procedure. Its link starts from the object of the first one, and what
it leads to is a member of the first one. -/
theorem link_of_call_in_twin :
    ∃ s u, Runs (do readProgram []; resolve [] (some ownLibrary); discard (save 0 none))
      twinProcedures () s ∧
      Runs (saveLinks fun _ => none) s () u ∧
      u.program.symbols.map
        (fun own => (own.name, own.kind, own.parent, own.stored.map (·.index))) =
        [("A", .program, none, some 0), ("X", .procedure, some 0, some 1),
          ("X", .procedure, some 0, some 2), ("B", .unknownProgram, some 1, some 3)] ∧
      (u.program.symbols.filter (·.kind == .procedure)).map (fun own =>
        (own.tree.root?.toList.flatMap fun m => allNodes m.children).map (·.head.kind.name)) =
        [[], ["Call"]] ∧
      (u.events.toList.filterMap Event.caller?).map (·.index) = [1] := by
  have hsaved : Runs (do readProgram []; resolve [] (some ownLibrary); discard (save 0 none))
      twinProcedures () _ :=
    runs_of_isOk (by decide +kernel)
  have hlinked : Runs (saveLinks fun _ => none)
      ((do readProgram []; resolve [] (some ownLibrary); discard (save 0 none) :
        Work Scan Unit).runOn twinProcedures).2 () _ :=
    runs_of_isOk (by decide +kernel)
  exact ⟨_, _, hsaved, hlinked, by decide +kernel, by decide +kernel, by decide +kernel⟩

end Scan

end EztScan
