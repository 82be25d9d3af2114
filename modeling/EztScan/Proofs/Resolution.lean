import EztScan.Proofs.Declaring

/-!
# What names stand for

After a program has been resolved, an operand that names a file, a procedure or a report stands for
all symbols of that kind and name in the program, in the order of their declarations, case put
aside. It does not matter what comes first in the source, the use or the declaration, as everything
is declared before anything is resolved.

Resolving changes nothing but what operands stand for (`Scan.OnlyResolves`). A statement is resolved
up to the first operand that is left out; as no operand in front of another one is ever left out
(`Node.Offers`), it is resolved as a whole (`of_runs_resolveReferences`). No two statements have the
same number, so what is found out about one of them is not lost later in the walk
(`of_runs_resolveVisits`).
-/

namespace EztScan

open Element EztScan.Language Work List Program Reference

variable {s t : Scan} {library : Option Library} {r : Reference} {n root : Node}
  {rs : List Reference} {kind : SymbolKind} {ds : List (Option Node × Node)}
variable {p : Program} {i : ProgramId} {origin : Origin}
variable {vs : List Visit} {name : String} {c : Symbol}

/-! ### Setting what an operand stands for -/

theorem Program.resolvedAs_setResolved (p : Program) (statement other : Nat) (role role' : Role)
    (refs : List SymbolRef) :
    (p.setResolved statement role refs).resolvedAs other role' =
      if (other, role') = (statement, role) then refs else p.resolvedAs other role' := by
  unfold resolvedAs setResolved
  rw [lookup_cons]
  by_cases h : (other, role') = (statement, role)
  · rw [if_pos h, h, beq_self_eq_true]
    rfl
  · rw [if_neg h, beq_eq_false_iff_ne.mpr h, lookup_filter_ne, if_neg h]

/-- What an operand is found to stand for: the program of that name in the library, or the symbols
with that name. -/
structure Program.Answers (p : Program) (library : Option Library) (r : Reference) (o : Operand)
    (refs : List SymbolRef) : Prop where
  called : r.expects = .program → ∃ l name entry, library = some l ∧ o.name = some name ∧
    l.find name p.path = .ok entry ∧
    refs = (entry.map fun e => (⟨e.program, 0⟩ : SymbolRef)).toList
  named : r.expects ≠ .program → refs = (p.find 0 o.name [r.expects]).map (⟨p.id, ·⟩)

/-- The operands of the statement stand for what they are found to stand for. -/
def Program.Settles (p : Program) (library : Option Library) (n : Node) (rs : List Reference) :
    Prop :=
  ∀ r ∈ rs, ∀ o, n.operand? r.role = some o →
    p.Answers library r o (p.resolvedAs n.head.number r.role)

namespace Scan

variable {o : Operand} {refs : List SymbolRef}

/-- From `s` to `t`, nothing has changed but what operands stand for. -/
structure OnlyResolves (s t : Scan) : Prop where
  program : ∃ resolved, t.program = { s.program with resolved }
  events : t.events = s.events

theorem OnlyResolves.refl (s : Scan) : OnlyResolves s s :=
  ⟨⟨s.program.resolved, rfl⟩, rfl⟩

theorem OnlyResolves.trans {u : Scan} (hst : OnlyResolves s t) (htu : OnlyResolves t u) :
    OnlyResolves s u := by
  obtain ⟨a, ha⟩ := hst.program
  obtain ⟨b, hb⟩ := htu.program
  exact ⟨⟨b, by rw [hb, ha]⟩, htu.events.trans hst.events⟩

/-- What is found does not depend on what operands stand for. -/
theorem OnlyResolves.answers (h : OnlyResolves s t)
    (hs : s.program.Answers library r o refs) : t.program.Answers library r o refs := by
  obtain ⟨resolved, hresolved⟩ := h.program
  rw [hresolved]
  exact ⟨hs.called, hs.named⟩

/-! ### Resolving a statement -/

/-- Looking up a name changes nothing. -/
theorem of_runs_lookUp (h : Runs (lookUp library r o) s refs t) :
    s = t ∧ s.program.Answers library r o refs := by
  obtain ⟨p, s₁, hprogram, h⟩ := runs_bind.mp h
  obtain ⟨hp, rfl⟩ : s.program = p ∧ s = s₁ := runs_pure.mp (runs_get_bind.mp hprogram)
  by_cases hexpects : r.expects = .program
  · rw [if_pos hexpects] at h
    split at h
    · exact absurd h not_runs_throw
    · exact absurd h not_runs_throw
    · next l name hname _ =>
      obtain ⟨entry, hfind, h⟩ := runs_ofExcept_bind.mp h
      obtain ⟨hrefs, rfl⟩ := runs_pure.mp h
      exact ⟨rfl, fun _ => ⟨l, name, entry, rfl, hname, hp ▸ hfind, hrefs.symm⟩,
        fun hne => absurd hexpects hne⟩
  · rw [if_neg hexpects] at h
    obtain ⟨hrefs, rfl⟩ := runs_pure.mp h
    refine ⟨rfl, fun heq => absurd heq hexpects, fun _ => ?_⟩
    rw [← hrefs, ← hp]

theorem operandIn_eq {operand : Option Operand} (h : r.operandIn n = .ok operand) :
    operand = n.operand? r.role := by
  unfold operandIn at h
  split at h
  · split at h
    next o ho =>
      rw [ho]
      exact (Except.ok.inj h).symm
    next ho =>
      split at h
      · rw [ho]
        exact (Except.ok.inj h).symm
      · cases h
  · cases h

/-- A statement is resolved as a whole, if no operand in front of another one is left out. -/
theorem of_runs_resolveReferences :
    ∀ {s t : Scan}, (rs.map (·.role)).Nodup →
      (∀ r ∈ rs.dropLast, (n.operand? r.role).isSome = true) →
      Runs (resolveReferences library n rs) s () t →
        OnlyResolves s t ∧ t.program.Settles library n rs ∧
        ∀ number role, (number ≠ n.head.number ∨ role ∉ rs.map (·.role)) →
          t.program.resolvedAs number role = s.program.resolvedAs number role := by
  induction rs with
  | nil =>
    intro s t _ _ h
    obtain ⟨-, rfl⟩ := runs_pure.mp h
    exact ⟨OnlyResolves.refl s, fun r hr => absurd hr not_mem_nil, fun _ _ _ => rfl⟩
  | cons r rs ih =>
    intro s t hnodup hleading h
    obtain ⟨operand, hoperand, h⟩ := runs_ofExcept_bind.mp h
    have hgiven := operandIn_eq hoperand
    cases operand with
    | none =>
      obtain ⟨-, rfl⟩ := runs_pure.mp h
      -- only the last operand can be left out
      obtain rfl : rs = [] := by
        cases rs with
        | nil => rfl
        | cons =>
          have hsome := hleading r mem_cons_self
          rw [← hgiven] at hsome
          cases hsome
      refine ⟨OnlyResolves.refl s, fun r' hr' o ho => ?_, fun _ _ _ => rfl⟩
      rw [mem_singleton.mp hr', ← hgiven] at ho
      cases ho
    | some o =>
      -- what is found is set for this operand and no other
      obtain ⟨refs, s₂, hlookUp, h⟩ := runs_bind.mp h
      obtain ⟨rfl, hrefs⟩ := of_runs_lookUp hlookUp
      obtain ⟨_, s₃, hset, h⟩ := runs_bind.mp h
      have hs₃ : s₃ = ⟨s.program.setResolved n.head.number r.role refs, s.events⟩ :=
        (runs_modify.mp hset).symm
      have hfirst : OnlyResolves s s₃ := by
        rw [hs₃]
        exact ⟨⟨_, rfl⟩, rfl⟩
      have hresolved : ∀ number role, s₃.program.resolvedAs number role =
          if (number, role) = (n.head.number, r.role) then refs
            else s.program.resolvedAs number role := by
        intro number role
        rw [hs₃]
        exact s.program.resolvedAs_setResolved _ _ _ _ _
      obtain ⟨hnew, hnodup⟩ := nodup_cons.mp hnodup
      have hleading' : ∀ r' ∈ rs.dropLast, (n.operand? r'.role).isSome = true := by
        intro r' hr'
        cases rs with
        | nil => exact absurd hr' not_mem_nil
        | cons => exact hleading r' (mem_cons_of_mem r hr')
      obtain ⟨hrest, hsettles, hothers⟩ := ih hnodup hleading' h
      refine ⟨hfirst.trans hrest, fun r' hr' o' ho' => ?_, fun number role hother => ?_⟩
      · rcases mem_cons.mp hr' with rfl | hr'
        · -- the operands behind it have other roles
          obtain rfl : o = o' := Option.some.inj (hgiven.trans ho')
          rw [hothers _ _ (.inr hnew), hresolved, if_pos rfl]
          exact (hfirst.trans hrest).answers hrefs
        · exact hsettles r' hr' o' ho'
      · -- neither this operand nor one behind it was meant
        rw [map_cons, mem_cons, not_or] at hother
        rw [hothers number role (hother.imp_right And.right), hresolved, if_neg]
        rintro ⟨⟩
        exact hother.elim (fun hne => hne rfl) fun hne => hne.1 rfl

/-! ### Resolving a program -/

/-- The references of a statement have different roles. -/
theorem nodup_roles {kind : String} (h : ofStatement? kind = some rs) :
    (rs.map (·.role)).Nodup := by
  unfold ofStatement? at h
  split at h
  all_goals cases h
  all_goals decide

/-- What a visit finds out is about the node that it enters. -/
theorem of_runs_resolveVisit (hn : n.IsApt) (h : Runs (resolveVisit library (.entering n)) s () t) :
    OnlyResolves s t ∧ (∀ rs, ofStatement? n.head.kind.name = some rs →
      t.program.Settles library n rs) ∧
      ∀ number role, number ≠ n.head.number →
        t.program.resolvedAs number role = s.program.resolvedAs number role := by
  unfold resolveVisit at h
  dsimp only at h
  cases hrs : ofStatement? n.head.kind.name with
  | none =>
    rw [hrs] at h
    obtain ⟨-, rfl⟩ := runs_pure.mp h
    refine ⟨OnlyResolves.refl s, fun rs hsome => ?_, fun _ _ _ => rfl⟩
    cases hsome
  | some rs =>
    rw [hrs] at h
    obtain ⟨hres, hsettles, hothers⟩ :=
      of_runs_resolveReferences (nodup_roles hrs) (hn rs hrs).leading h
    refine ⟨hres, fun rs' hrs' => ?_, fun number role hne => hothers number role (.inl hne)⟩
    rw [← Option.some.inj hrs']
    exact hsettles

/-- What is settled stays so when other statements are resolved. -/
theorem settles_of_onlyResolves (hst : OnlyResolves s t) (h : s.program.Settles library n rs)
    (hsame : ∀ role, t.program.resolvedAs n.head.number role =
      s.program.resolvedAs n.head.number role) :
    t.program.Settles library n rs := by
  intro r hr o ho
  rw [hsame]
  exact hst.answers (h r hr o ho)

/-- A walk settles all nodes that it enters, if no two of them have the same number. -/
theorem of_runs_resolveVisits : ∀ {s t : Scan}, (∀ n ∈ vs.filterMap Visit.entered?, n.IsApt) →
      ((vs.filterMap Visit.entered?).map (·.head.number)).Nodup →
      Runs (vs.forM (resolveVisit library)) s () t →
      OnlyResolves s t ∧ (∀ n ∈ vs.filterMap Visit.entered?, ∀ rs,
        ofStatement? n.head.kind.name = some rs → t.program.Settles library n rs) ∧
      ∀ number role, number ∉ (vs.filterMap Visit.entered?).map (·.head.number) →
        t.program.resolvedAs number role = s.program.resolvedAs number role := by
  induction vs with
  | nil =>
    intro s t _ _ h
    obtain ⟨-, rfl⟩ := runs_pure.mp h
    exact ⟨OnlyResolves.refl s, fun n hn => absurd hn not_mem_nil, fun _ _ _ => rfl⟩
  | cons v vs ih =>
    intro s t hapt hnodup h
    obtain ⟨_, s₁, hvisit, hrest⟩ := runs_bind.mp h
    cases v with
    | leaving =>
      obtain ⟨-, rfl⟩ := runs_pure.mp hvisit
      exact ih hapt hnodup hrest
    | entering n =>
      have hentered : (Visit.entering n :: vs).filterMap Visit.entered? =
        n :: vs.filterMap Visit.entered? := rfl
      rw [hentered] at hapt hnodup ⊢
      rw [map_cons] at hnodup ⊢
      obtain ⟨hn, hapt⟩ := forall_mem_cons.mp hapt
      obtain ⟨hnew, hnodup⟩ := nodup_cons.mp hnodup
      obtain ⟨hfirst, hsettles, hothers⟩ := of_runs_resolveVisit hn hvisit
      obtain ⟨hlater, hsettles', hothers'⟩ := ih hapt hnodup hrest
      refine ⟨hfirst.trans hlater, fun m hm rs hrs => ?_, fun number role hnumber => ?_⟩
      · -- the visits that follow are of statements with other numbers
        rcases mem_cons.mp hm with rfl | hm
        · exact settles_of_onlyResolves hlater (hsettles rs hrs) fun role => hothers' _ role hnew
        · exact hsettles' m hm rs hrs
      · obtain ⟨hne, hnumber⟩ := not_or.mp fun h => hnumber (mem_cons.mpr h)
        rw [hothers' number role hnumber, hothers number role hne]

end Scan

/-! ### Sources as a whole -/

/-- A walk enters the nodes that there are. -/
theorem entered_walk (root : Node) :
    root.toElement.walk.filterMap Visit.entered? = allNodes [root.toElement] := by
  unfold allNodes
  rw [walkAll, walkAll, append_nil]

theorem mem_allNodes_of_entering (hn : .entering n ∈ root.toElement.walk) :
    n ∈ allNodes [root.toElement] := by
  rw [← entered_walk]
  exact mem_filterMap.mpr ⟨.entering n, hn, rfl⟩

/-- Every node of a source has what it refers to. -/
theorem Node.IsSource.isApt (h : root.IsSource) (hn : n ∈ allNodes [root.toElement]) : n.IsApt := by
  rw [h.allNodes_eq] at hn
  rcases mem_cons.mp hn with rfl | hn
  · -- programs and macros refer to nothing
    intro rs hrs
    rw [h.of_names (P := fun name => ofStatement? name = none) rfl rfl] at hrs
    cases hrs
  · obtain ⟨d, hd, rfl⟩ := mem_map.mp hn
    rcases h.of_mem_placed hd with hterm | ⟨-, hsection⟩
    · exact hterm.apt
    · exact hsection.apt

/-- The symbols of a program are what they are, whatever operands stand for. -/
theorem Program.Enrolled.congr {q : Program} (h : p.Enrolled i origin root ds)
    (hq : ∃ resolved, q = { p with resolved }) : q.Enrolled i origin root ds := by
  obtain ⟨resolved, rfl⟩ := hq
  exact ⟨h.id, h.made, ⟨h.indexed.get, h.indexed.all⟩, h.fresh, h.own, h.length, h.entered⟩

theorem Program.Enrolled.root?_eq (h : p.Enrolled i origin root ds) : p.root? = some root := by
  have hown := h.own
  rw [getElem?_cards] at hown
  obtain ⟨self, hself, hcard⟩ := Option.map_eq_some_iff.mp hown
  have htree : self.card.tree = .root root := congrArg Symbol.tree hcard
  unfold root?
  rw [hself]
  change self.card.tree.root? = _
  rw [htree]
  rfl

namespace Scan

variable {i : ProgramId} {origin : Origin} {text : Option String}
variable {files : SourceFiles} {events : Array Event}

theorem OnlyResolves.onlyLogs {r : Scan} (hst : OnlyResolves s t) (hrs : OnlyLogs r s) :
    OnlyLogs r t := by
  obtain ⟨logs, hevents, hlogs⟩ := hrs
  exact ⟨logs, by rw [hst.events, hevents], hlogs⟩

/-- The visits of a walk through the tree of a program, if it has one. -/
theorem of_runs_visits (h : Runs visits s vs t) :
    s = t ∧ vs = (s.program.root?.map fun n => n.toElement.walk).getD [] := by
  obtain ⟨self, hself, h⟩ := runs_symbol_bind.mp h
  unfold root?
  rw [hself, Option.bind_some]
  cases hroot : self.tree.root? with
  | none | some =>
    rw [hroot] at h
    obtain ⟨rfl, rfl⟩ := runs_pure.mp h
    exact ⟨rfl, rfl⟩

/-- **A program that has been resolved**: what its statements refer to is settled. -/
theorem settles_of_runs_resolve
    (h : Runs (do readProgram files; resolve files library) ⟨unread i origin text, events⟩ () s) :
    OnlyLogs ⟨unread i origin text, events⟩ s ∧ s.program.HasRead files i origin text ∧
      ∀ root, s.program.root? = some root → ∀ n ∈ allNodes [root.toElement],
        ∀ rs, ofStatement? n.head.kind.name = some rs → s.program.Settles library n rs := by
  obtain ⟨_, s₁, hread, hresolve⟩ := runs_bind.mp h
  obtain ⟨hlogs, hread₁⟩ := hasRead_of_runs (isBare_unread i origin text) hread
  obtain ⟨self, hself, hresolve⟩ := runs_symbol_bind.mp hresolve
  -- a program without a tree is read once more, which changes nothing about what is known of it
  obtain ⟨s₂, hlogs₂, hread₂, hwalk⟩ : ∃ s₂, OnlyLogs ⟨unread i origin text, events⟩ s₂ ∧
      s₂.program.HasRead files i origin text ∧
        Runs (visits >>= fun vs => vs.forM (resolveVisit library)) s₂ () s := by
    by_cases hempty : self.tree.isEmpty = true
    · rw [if_pos hempty] at hresolve
      obtain ⟨_, s₂, hagain, hwalk⟩ := runs_bind.mp hresolve
      rcases hread₁ with ⟨hbare, -⟩ | ⟨root, -, -, henrolled⟩
      · obtain ⟨hlogs₂, hread₂⟩ := hasRead_of_runs hbare hagain
        exact ⟨s₂, hlogs.trans hlogs₂, hread₂, hwalk⟩
      · -- a root is not empty
        have hroot := henrolled.root?_eq
        unfold root? at hroot
        rw [hself, Option.bind_some] at hroot
        cases htree : self.tree with
        | root =>
          rw [htree] at hempty
          cases hempty
        | _ =>
          rw [htree] at hroot
          cases hroot
    · rw [if_neg hempty] at hresolve
      exact ⟨s₁, hlogs, hread₁, hresolve⟩
  -- from here on the tree stays as it is, and all of it is walked through
  obtain ⟨vs, s₃, hvisits, hforM⟩ := runs_bind.mp hwalk
  obtain ⟨rfl, rfl⟩ := of_runs_visits hvisits
  rcases hread₂ with ⟨hbare, hnone⟩ | ⟨root, hreads, hnamed, henrolled⟩
  · rw [hbare.root?_eq] at hforM
    obtain ⟨-, rfl⟩ := runs_pure.mp hforM
    refine ⟨hlogs₂, .inl ⟨hbare, hnone⟩, fun root hroot => ?_⟩
    rw [hbare.root?_eq] at hroot
    cases hroot
  · rw [henrolled.root?_eq, Option.map_some, Option.getD_some] at hforM
    obtain ⟨source, -, htree⟩ := id hreads
    have hsource := isSource_of_treeOf htree
    have hentered := entered_walk root
    obtain ⟨hres, hsettles, -⟩ := of_runs_resolveVisits (fun n hn => hsource.isApt (hentered ▸ hn))
      (hentered ▸ hsource.numbers) hforM
    have henrolled' := henrolled.congr hres.program
    refine ⟨hres.onlyLogs hlogs₂, .inr ⟨root, hreads, hnamed, henrolled'⟩, fun root' hroot' => ?_⟩
    rw [henrolled'.root?_eq] at hroot'
    rw [← Option.some.inj hroot', ← hentered]
    exact hsettles

end Scan

/-! ### Files, procedures and reports -/

/-- The operands that name files, procedures and reports, by the kinds of the statements. -/
def namingOperands : List (String × Role × SymbolKind) :=
  [("Perform", .procedure, .procedure), ("Start", .procedure, .procedure),
    ("Finish", .procedure, .procedure), ("Get", .file, .file), ("Point", .file, .file),
    ("Put", .file, .file), ("Put", .source, .file), ("Write", .file, .file),
    ("Write", .source, .file), ("Job", .input, .file), ("Sort", .sorted, .file),
    ("Sort", .target, .file), ("Print", .report, .report)]

/-- The operands that a statement can do without. -/
def optionalRoles : List Role :=
  [.source, .input, .target]

/-- The kinds of symbols that can be named by operands. -/
def namedKinds : List SymbolKind :=
  [.file, .procedure, .report]

/-- What a section declares, by its kind. -/
def sectionKind? : String → Option SymbolKind
  | "File" => some .file
  | "Procedure" => some .procedure
  | "Report" => some .report
  | _ => none

theorem mem_namedKinds (h : sectionKind? name = some kind) : kind ∈ namedKinds := by
  unfold sectionKind? at h
  split at h
  all_goals cases h
  all_goals decide

/-- Every operand that names something is resolved as a name of that kind. -/
theorem exists_reference {kind : String} {role : Role} {expects : SymbolKind}
    (h : (kind, role, expects) ∈ namingOperands) :
    expects ∈ namedKinds ∧ ∃ rs ∈ (ofStatement? kind).toList, ∃ r ∈ rs, r.role = role ∧
      r.expects = expects ∧
      (role ∈ optionalRoles ∨ r.optional = false ∨ ∃ r' ∈ rs.dropLast, r'.role = role) := by
  have hall : ∀ e ∈ namingOperands, e.2.2 ∈ namedKinds ∧ ∃ rs ∈ (ofStatement? e.1).toList, ∃ r ∈ rs,
      r.role = e.2.1 ∧ r.expects = e.2.2 ∧
        (e.2.1 ∈ optionalRoles ∨ r.optional = false ∨ ∃ r' ∈ rs.dropLast, r'.role = e.2.1) := by
    decide
  exact hall _ h

/-- Terms and sections declare what their kinds say, queries apart. -/
theorem sectionKind?_eq (hn : n.IsTerm ∨ n.IsSection) (hkind : kind ∈ namedKinds) :
    sectionKind? n.head.kind.name = some kind ↔ Scan.declaredKind n = some kind := by
  have hrules : ∀ r ∈ termRules ++ sectionRules, ∀ kind ∈ namedKinds,
      (sectionKind? r.kind.name = some kind ↔
        Scan.declaredKind ⟨{ kind := r.kind }, []⟩ = some kind) := by
    decide
  obtain ⟨r, hr, hkind'⟩ : ∃ r ∈ termRules ++ sectionRules, n.head.kind = r.kind := by
    rcases hn with hterm | hsection
    · obtain ⟨r, hr, heq⟩ := hterm.kind
      exact ⟨r, mem_append_left _ hr, heq⟩
    · obtain ⟨r, hr, heq⟩ := hsection.kind
      exact ⟨r, mem_append_right _ hr, heq⟩
  rw [Node.declaredKind_of_kind hkind', hkind']
  exact hrules r hr kind hkind

namespace Program

variable {p : Program} {i : ProgramId} {origin : Origin} {root : Node}

/-- The nodes of the tree of a program. -/
def treeNodes (p : Program) : List Node :=
  allNodes (p.root?.map Node.toElement).toList

theorem treeNodes_eq (h : p.root? = some root) : p.treeNodes = allNodes [root.toElement] := by
  rw [treeNodes, h]
  rfl

/-- The symbols of a kind with a name, case put aside, in the order of their declarations. -/
def namesakes (p : Program) (kind : SymbolKind) (name : String) : List Nat :=
  p.numbersOf fun c => c.kind == kind && Text.upper c.name == Text.upper name

theorem Enrolled.not_mem_namedKinds (h : p.Enrolled i origin root ds) (hc : p.cards[0]? = some c) :
    c.kind ∉ namedKinds := by
  have hkind : SymbolKind.program ∉ namedKinds := by decide
  rw [h.own] at hc
  rw [← Option.some.inj hc]
  exact hkind

end Program

/-- The symbol is the one of the section. -/
structure Symbol.IsOf (c : Symbol) (n : Node) : Prop where
  kind : sectionKind? n.head.kind.name = some c.kind
  name : declaredName n = .ok (some c.name)
  line : c.line = n.span.beginLine
  tree : c.tree = .root n
  parent : c.parent = some 0

/-- A file, procedure or report is the symbol of its section, and a member of the program. -/
theorem Entered.isOf (hroot : root.IsSource) {cs : List Symbol} {k : Nat} {d : Option Node × Node}
    (h : Entered cs k c d) (hd : d ∈ root.placed) (hkind : c.kind ∈ namedKinds) : c.IsOf d.2 := by
  rcases hroot.of_mem_placed hd with hterm | ⟨hencl, hsection⟩
  · -- terms declare queries only
    have hquery : SymbolKind.query ∉ namedKinds := by decide
    have hdeclares : d.2.declares = true := Option.isSome_of_eq_some h.kind
    have heq := (hterm.declaredKind_eq hdeclares).1
    rw [h.kind] at heq
    rw [Option.some.inj heq] at hkind
    exact absurd hkind hquery
  · obtain ⟨j, -, hparent, hstands⟩ := h.parent
    rw [hencl] at hstands
    obtain rfl : j = 0 := hstands
    exact ⟨(sectionKind?_eq (.inr hsection) hkind).mpr h.kind, h.name, h.line, h.tree, hparent⟩

namespace Program

variable {p : Program} {i : ProgramId} {origin : Origin} {root : Node}

/-- Names are looked up among the members of the program, and those are all symbols with such
names. -/
theorem Enrolled.find_eq (h : p.Enrolled i origin root root.declarations) (hroot : root.IsSource)
    (hkind : kind ∈ namedKinds) (hname : name ≠ "") :
    p.find 0 (some name) [kind] = p.namesakes kind name := by
  rw [h.indexed.find hname]
  refine numbersOf_congr fun k c hc => ?_
  by_cases hck : c.kind = kind
  · -- all of this kind are members of the program
    have hparent : c.parent = some 0 := by
      cases k with
      | zero => exact absurd (hck ▸ hkind) (h.not_mem_namedKinds hc)
      | succ =>
        obtain ⟨d, hd, hentered⟩ := h.exists_entered hc
        exact (hentered.isOf hroot (mem_placed_of_getElem? hd) (hck ▸ hkind)).parent
    rw [hck, hparent, beq_self_eq_true, beq_self_eq_true, Bool.true_and, Bool.and_true]
  · rw [beq_eq_false_iff_ne.mpr hck, Bool.and_false, Bool.false_and]

end Program

theorem forall₂_filter {α β : Type} {R S : α → β → Prop} {p : α → Bool} {q : β → Bool}
    (hpq : ∀ a b, R a b → p a = q b) (hS : ∀ a b, R a b → p a = true → S a b) {as : List α}
    {bs : List β} (h : Forall₂ R as bs) : Forall₂ S (as.filter p) (bs.filter q) := by
  induction h with
  | nil => exact .nil
  | @cons a b as bs hab _ ih =>
    cases hp : p a with
    | true =>
      rw [filter_cons_of_pos hp, filter_cons_of_pos (hpq a b hab ▸ hp)]
      exact .cons (hS a b hab hp) ih
    | false =>
      have hq : q b = false := hpq a b hab ▸ hp
      rw [filter_cons_of_neg (Bool.eq_false_iff.mp hp),
        filter_cons_of_neg (Bool.eq_false_iff.mp hq)]
      exact ih

namespace Program

variable {p : Program} {i : ProgramId} {origin : Origin} {root : Node}

/-- Files, procedures and reports are those of the sections of the source, one by one. -/
theorem Enrolled.forall₂_isOf (h : p.Enrolled i origin root root.declarations)
    (hroot : root.IsSource) :
    Forall₂ Symbol.IsOf (p.symbols.filter fun c => namedKinds.contains c.kind)
      (p.treeNodes.filter fun n => (sectionKind? n.head.kind.name).isSome) := by
  -- without the program itself, symbols and declarations go side by side
  have hsides : Forall₂ (fun c d => d ∈ root.placed ∧ ∃ k, Entered p.cards k c.card d)
      p.symbols.tail root.declarations := by
    refine forall₂_iff_get.mpr ⟨by rw [length_tail, h.length]; rfl, fun k hk hk' => ?_⟩
    have hlt : k + 1 < p.symbols.length := h.length ▸ Nat.succ_lt_succ hk'
    have hcard : p.cards[k + 1]? = some p.symbols[k + 1].card := by
      rw [getElem?_cards, getElem?_eq_getElem hlt]
      rfl
    obtain ⟨d, hd, hentered⟩ := h.exists_entered hcard
    have heq : root.declarations.get ⟨k, hk'⟩ = d :=
      Option.some.inj ((getElem?_eq_getElem hk').symm.trans hd)
    rw [heq, get_eq_getElem, getElem_tail]
    exact ⟨mem_placed_of_getElem? hd, k, hentered⟩
  -- what is kept on one side is kept on the other
  have hkind : ∀ c : Symbol, ∀ d ∈ root.placed, (∃ k, Entered p.cards k c.card d) →
      (namedKinds.contains c.kind = true ↔ (sectionKind? d.2.head.kind.name).isSome = true) := by
    intro c d hd hentered
    obtain ⟨k, hentered⟩ := hentered
    rw [contains_iff_mem, Option.isSome_iff_exists]
    constructor
    · exact fun hnamed => ⟨_, (hentered.isOf hroot hd hnamed).kind⟩
    · rintro ⟨kind, hsome⟩
      have hnamed : kind ∈ namedKinds := mem_namedKinds hsome
      have hpart := (hroot.of_mem_placed hd).imp_right And.right
      have hdeclared := (sectionKind?_eq hpart hnamed).mp hsome
      rw [hentered.kind] at hdeclared
      rw [← Option.some.inj hdeclared] at hnamed
      exact hnamed
  -- the symbol of the program and the root of the tree drop out
  have hleft : (p.symbols.filter fun c => namedKinds.contains c.kind) =
      p.symbols.tail.filter fun c => namedKinds.contains c.kind := by
    cases hsymbols : p.symbols with
    | nil => rfl
    | cons self =>
      have hself : self.card.kind ∉ namedKinds := by
        apply h.not_mem_namedKinds
        rw [getElem?_cards, hsymbols]
        rfl
      exact filter_cons_of_neg fun hnamed => hself (contains_iff_mem.mp hnamed)
  have hright : (p.treeNodes.filter fun n => (sectionKind? n.head.kind.name).isSome) =
      (root.declarations.filter fun d => (sectionKind? d.2.head.kind.name).isSome).map (·.2) := by
    have hself : (sectionKind? root.head.kind.name).isSome = false :=
      hroot.of_names (P := fun name => (sectionKind? name).isSome = false) rfl rfl
    have hdeclares : ∀ d ∈ root.placed, (sectionKind? d.2.head.kind.name).isSome = true →
        d.2.declares = true := by
      intro d hd hsome
      obtain ⟨kind, hkind⟩ := Option.isSome_iff_exists.mp hsome
      have hpart := (hroot.of_mem_placed hd).imp_right And.right
      exact Option.isSome_of_eq_some ((sectionKind?_eq hpart (mem_namedKinds hkind)).mp hkind)
    rw [treeNodes_eq h.root?_eq, hroot.allNodes_eq,
      filter_cons_of_neg (by rw [hself]; exact Bool.false_ne_true), filter_map,
      Node.declarations, filter_filter]
    congr 1
    refine filter_congr fun d hd => Bool.eq_iff_iff.mpr ?_
    rw [Bool.and_eq_true]
    exact ⟨fun hsome => ⟨hsome, hdeclares d hd hsome⟩, And.left⟩
  rw [hleft, hright, forall₂_map_right_iff]
  refine forall₂_filter (fun c d hcd => ?_) (fun c d hcd hnamed => ?_) hsides
  · exact Bool.eq_iff_iff.mpr (hkind c d hcd.1 hcd.2)
  · obtain ⟨hd, k, hentered⟩ := hcd
    -- a symbol and its card differ in their members and in what was stored only
    have hof := hentered.isOf hroot hd (contains_iff_mem.mp hnamed)
    exact ⟨hof.kind, hof.name, hof.line, hof.tree, hof.parent⟩

end Program

namespace Scan

/-- **Names are resolved soundly and completely.** After a program has been read and resolved, its
tree is the one of its source. Every operand that names a file, a procedure or a report stands for
all symbols of that kind and name, case put aside, in the order of their declarations. These symbols
are those of the files, procedures and reports in the tree, one for each. -/
theorem resolvedAs_eq_namesakes {files : SourceFiles} {library : Option Library} {i : ProgramId}
    {origin : Origin} {text : Option String} {s : Scan}
    (hrun : Runs (do readProgram files; resolve files library) ⟨Program.unread i origin text, #[]⟩
      () s) :
    (∀ root, s.program.root? = some root ↔ (Program.unread i origin text).Reads files root) ∧
      (∀ n ∈ s.program.treeNodes, ∀ role kind, (n.head.kind.name, role, kind) ∈ namingOperands →
        (role ∉ optionalRoles → (n.operand? role).isSome = true) ∧
        ∀ o, n.operand? role = some o → ∃ name, o.name = some name ∧
          s.program.resolvedAs n.head.number role = (s.program.namesakes kind name).map (⟨i, ·⟩)) ∧
      List.Forall₂ Symbol.IsOf (s.program.symbols.filter fun c => namedKinds.contains c.kind)
        (s.program.treeNodes.filter fun n => (sectionKind? n.head.kind.name).isSome) := by
  obtain ⟨-, hread, hsettles⟩ := settles_of_runs_resolve hrun
  rcases hread with ⟨hbare, hnone⟩ | ⟨root, hreads, -, henrolled⟩
  · -- without a tree there is only the program itself
    have hnodes : s.program.treeNodes = [] := by
      unfold treeNodes
      rw [hbare.root?_eq]
      exact allNodes_nil
    refine ⟨fun root => ?_, fun n hn => ?_, ?_⟩
    · rw [hbare.root?_eq]
      exact iff_of_false nofun (hnone root)
    · rw [hnodes] at hn
      exact absurd hn not_mem_nil
    · obtain ⟨tree, -, heq⟩ := hbare
      rw [hnodes, heq, withTree_unread]
      exact .nil
  · obtain ⟨source, hsource, htree⟩ := id hreads
    have hroot := isSource_of_treeOf htree
    refine ⟨fun root' => ?_, fun n hn role kind hnaming => ?_, henrolled.forall₂_isOf hroot⟩
    · rw [henrolled.root?_eq, Option.some.injEq]
      constructor
      · rintro rfl
        exact hreads
      · rintro ⟨source', hsource', htree'⟩
        obtain rfl := Option.some.inj (hsource.symm.trans hsource')
        rw [htree] at htree'
        exact SyntaxTree.root.inj (Except.ok.inj htree')
    · rw [treeNodes_eq henrolled.root?_eq] at hn
      obtain ⟨hkind, rs, hrs, r, hr, rfl, rfl, hoptional⟩ := exists_reference hnaming
      have hrs := Option.mem_toList.mp hrs
      have hoffers := hroot.isApt hn rs hrs
      refine ⟨fun hrole => ?_, fun o ho => ?_⟩
      · rcases hoptional with hoptional | hneeded | ⟨r', hr', hsame⟩
        · exact absurd hoptional hrole
        · exact hoffers.needed r hr hneeded
        · rw [← hsame]
          exact hoffers.leading r' hr'
      · obtain ⟨t, name, rfl, hname, hne⟩ := hoffers.words r hr o ho
        have hexpects : r.expects ≠ .program := by
          intro heq
          rw [heq] at hkind
          exact absurd hkind (by decide)
        refine ⟨name, hname, ?_⟩
        -- by name only members of the program are found, and these are all there are
        rw [(hsettles root henrolled.root?_eq n hn rs hrs r hr _ ho).named hexpects]
        change ((s.program.find 0 t.text [r.expects]).map _) = _
        rw [hname, henrolled.find_eq hroot hkind hne, henrolled.id]

/-- A program that performs a procedure before it declares it, and in other letters. -/
def earlyUse : Scan :=
  ⟨unread ⟨"A.ezt", 0⟩ .nowhere (some "JOB\nPERFORM p\nP PROC\n"), #[]⟩

theorem resolvedAs_eq_namesakes_earlyUse :
    ∃ s, Runs (do readProgram []; resolve [] none) earlyUse () s ∧
      s.program.resolvedAs 2 .procedure = [⟨⟨"A.ezt", 0⟩, 1⟩] ∧
      List.Forall₂ Symbol.IsOf (s.program.symbols.filter fun c => namedKinds.contains c.kind)
        (s.program.treeNodes.filter fun n => (sectionKind? n.head.kind.name).isSome) := by
  have hrun : Runs (do readProgram []; resolve [] none) earlyUse () _ :=
    runs_of_isOk (by decide +kernel)
  exact ⟨_, hrun, by decide +kernel, (resolvedAs_eq_namesakes hrun).2.2⟩

end Scan

end EztScan
