import EztScan.Proofs.Declarable
import EztScan.Proofs.Linking

/-!
# Files that are stored

A fault while a program is scanned goes to the log, and the other programs are scanned as if nothing
had happened. So a file can get lost. This module says when it does.

If the source of a program is read and all its declarations have names, then nothing stops the scan
before the program is stored. References can be looked up, whatever they refer to (`runs_resolve`),
and there is an object for each symbol (`runs_save`). If linking stops later, it stops between two
operations that leave all symbols stored (`keeps_saveLinks`). Otherwise the scan makes no object
(`objects_examineAll_eq_nil`).

Taken together: each file that an analysis takes has one object for its program if its source is
whole, and none if it is not (`count_programObjects`).
-/

namespace EztScan

open Element EztScan.Language Work List
variable {es : List Entry} {text : String} {root : Node}

/-! ### References never stop a scan -/

section Except

variable {α β : Type}

theorem exists_ok_bind {x : Except Fault α} {f : α → Except Fault β} {P : α → Prop}
    (hx : ∃ a, x = .ok a ∧ P a) (hf : ∀ a, P a → ∃ b, f a = .ok b) : ∃ b, x >>= f = .ok b := by
  obtain ⟨a, rfl, ha⟩ := hx
  exact hf a ha

theorem exists_ok_mapM {f : α → Except Fault β} {as : List α} (h : ∀ a ∈ as, ∃ b, f a = .ok b) :
    ∃ bs, as.mapM f = .ok bs := by
  induction as with
  | nil => exact ⟨[], rfl⟩
  | cons a as ih =>
    obtain ⟨b, hb⟩ := h a mem_cons_self
    obtain ⟨bs, hbs⟩ := ih fun a' ha' => h a' (mem_cons_of_mem a ha')
    exact ⟨b :: bs, by rw [mapM_cons, hb, hbs]; rfl⟩

end Except

namespace Library

/-- Distances to programs that have a path can be measured. -/
theorem exists_closest (hes : ∀ e ∈ es, e.path ≠ "") (start : String) :
    ∃ best, closest es start = .ok best := by
  unfold closest
  split
  · exact ⟨es, rfl⟩
  · refine exists_ok_bind (P := fun _ => True) ?_ fun measured _ => ?_
    · refine (exists_ok_mapM fun e he => ?_).imp fun _ h => ⟨h, trivial⟩
      -- only an empty path has no distance
      have hpath : e.path.isEmpty = false := String.isEmpty_eq_false_iff.mpr (hes e he)
      unfold distance
      rw [hpath]
      exact ⟨_, rfl⟩
    · cases (measured.map (·.1)).min? <;> exact ⟨_, rfl⟩

/-- Where a rule is asked only if there is a choice, it is enough that it answers. -/
theorem exists_narrow {rule : List Entry → Except Fault (List Entry)} {P : List Entry → Prop}
    (hes : P es) (hrule : ∃ best, rule es = .ok best ∧ P best) :
    ∃ best, narrow rule es = .ok best ∧ P best := by
  unfold narrow
  split
  · exact hrule
  · exact ⟨es, rfl, hes⟩

theorem inDirectory_subset (path : String) (es : List Entry) : inDirectory path es ⊆ es := by
  unfold inDirectory
  split
  · exact Subset.refl es
  · split
    · exact Subset.refl es
    · exact fun e he => mem_of_mem_filter he

/-- A path is looked up without a fault. -/
theorem exists_find {l : Library} (hl : ∀ e ∈ l.entries, e.path ≠ "") (path start : String) :
    ∃ best, l.find path start = .ok best := by
  let IsPlaced (es : List Entry) : Prop := ∀ e ∈ es, e.path ≠ ""
  have hnamed : ∀ name, IsPlaced (l.named name) := fun name e he => hl e (mem_of_mem_filter he)
  unfold find
  refine exists_ok_bind (P := IsPlaced) (exists_narrow (hnamed _) ⟨_, rfl, ?_⟩) fun near hnear => ?_
  · exact fun e he => hnamed _ e (inDirectory_subset path _ he)
  · -- whichever of them are near, they have paths
    refine exists_ok_bind (P := fun _ => True) (exists_narrow trivial ?_) fun best _ => ⟨_, rfl⟩
    exact (exists_closest hnear start).imp fun _ h => ⟨h, trivial⟩

end Library

namespace Scan

variable {library : Library} {s t : Scan}

section Resolving

variable (hlibrary : ∀ e ∈ library.entries, e.path ≠ "")

include hlibrary

/-- A word is looked up without a fault, and nothing changes. -/
theorem runs_lookUp (r : Reference) {t : Token} (ht : t.text = some text) :
    ∃ refs, Runs (lookUp (some library) r (.word t)) s refs s := by
  by_cases hexpects : r.expects = .program
  · obtain ⟨best, hbest⟩ := Library.exists_find hlibrary text s.program.path
    refine ⟨(best.map fun e => (⟨e.program, 0⟩ : SymbolRef)).toList, runs_program_bind.mpr ?_⟩
    rw [if_pos hexpects, show (Operand.word t).name = some text from ht]
    exact runs_ofExcept_bind.mpr ⟨best, hbest, rfl⟩
  · refine ⟨(s.program.find 0 (Operand.word t).name [r.expects]).map (⟨s.program.id, ·⟩),
      runs_program_bind.mpr ?_⟩
    rw [if_neg hexpects]
    exact rfl

/-- The references of a statement are found out if it has what they ask for. -/
theorem runs_resolveReferences {n : Node} {rs : List Reference} :
    ∀ {s : Scan}, (∀ r ∈ rs, (rolesOf n.head.kind.name).contains r.role = true) →
      (∀ r ∈ rs, r.optional = false → (n.operand? r.role).isSome = true) →
      (∀ r ∈ rs, ∀ o, n.operand? r.role = some o → ∃ t text, o = .word t ∧ t.text = some text ∧
        text ≠ "") →
      ∃ t, Runs (resolveReferences (some library) n rs) s () t := by
  induction rs with
  | nil => exact fun {s} _ _ _ => ⟨s, rfl⟩
  | cons r rs ih =>
    intro s hroles hneeded hwords
    obtain ⟨hrole, hroles⟩ := forall_mem_cons.mp hroles
    obtain ⟨hneed, hneeded⟩ := forall_mem_cons.mp hneeded
    obtain ⟨hword, hwords⟩ := forall_mem_cons.mp hwords
    -- an operand is left out only where it may be
    have hoperand : r.operandIn n = .ok (n.operand? r.role) := by
      unfold Reference.operandIn
      rw [if_pos hrole]
      cases ho : n.operand? r.role with
      | some => rfl
      | none =>
        cases hoptional : r.optional with
        | true => rfl
        | false =>
          have hsome := hneed hoptional
          rw [ho] at hsome
          cases hsome
    cases ho : n.operand? r.role with
    | none => exact ⟨s, runs_ofExcept_bind.mpr ⟨none, ho ▸ hoperand, rfl⟩⟩
    | some o =>
      obtain ⟨t, text, rfl, ht, -⟩ := hword o ho
      obtain ⟨refs, hrefs⟩ := runs_lookUp (s := s) hlibrary r ht
      obtain ⟨u, hu⟩ :=
        ih (s := ⟨s.program.setResolved n.head.number r.role refs, s.events⟩) hroles hneeded hwords
      refine ⟨u, runs_ofExcept_bind.mpr ⟨some (.word t), ho ▸ hoperand, ?_⟩⟩
      exact runs_bind.mpr ⟨refs, s, hrefs, runs_bind.mpr ⟨(), _, rfl, hu⟩⟩

/-- So no visit stops the walk. -/
theorem runs_resolveVisits {vs : List Visit} (hvs : ∀ n, .entering n ∈ vs → n.IsApt) :
    ∀ s, ∃ t, Runs (vs.forM (resolveVisit (some library))) s () t := by
  induction vs with
  | nil => exact fun s => ⟨s, rfl⟩
  | cons v vs ih =>
    intro s
    have hvisit : ∃ t, Runs (resolveVisit (some library) v) s () t := by
      cases v with
      | leaving => exact ⟨s, rfl⟩
      | entering n =>
        unfold resolveVisit
        dsimp only
        cases hrs : Reference.ofStatement? n.head.kind.name with
        | none => exact ⟨s, rfl⟩
        | some rs =>
          have hoffers := hvs n mem_cons_self rs hrs
          exact runs_resolveReferences hlibrary hoffers.roles hoffers.needed hoffers.words
    obtain ⟨t, ht⟩ := hvisit
    obtain ⟨u, hu⟩ := ih (fun n hn => hvs n (mem_cons_of_mem v hn)) t
    exact ⟨u, runs_bind.mpr ⟨(), t, ht, hu⟩⟩

/-- **The references of a source** can be found out, whatever they refer to. -/
theorem runs_resolve (files : SourceFiles) (hroot : root.IsSource)
    (hs : s.program.root? = some root) : ∃ t, Runs (resolve files (some library)) s () t := by
  obtain ⟨self, hself, htree⟩ := Option.bind_eq_some_iff.mp hs
  have hempty : self.tree.isEmpty = false := by
    cases hn : self.tree with
    | root => rfl
    | _ =>
      rw [hn] at htree
      cases htree
  obtain ⟨t, ht⟩ :=
    runs_resolveVisits hlibrary (fun n hn => hroot.isApt (mem_allNodes_of_entering hn)) s
  refine ⟨t, runs_symbol_bind.mpr ⟨self, hself, ?_⟩⟩
  rw [hempty]
  exact runs_bind.mpr ⟨_, s, runs_visits hs, ht⟩

end Resolving

/-! ### Forgetting reports nothing -/

/-- From `s` to `t`, nothing was reported, and symbols have kept their objects. -/
structure Forgets (s t : Scan) : Prop where
  events : t.events = s.events
  objects : ∀ k, t.program.objectOf k = s.program.objectOf k

instance : Std.Refl Forgets := ⟨fun _ => ⟨rfl, fun _ => rfl⟩⟩

instance : Trans Forgets Forgets Forgets :=
  ⟨fun hst htu => ⟨htu.events.trans hst.events, fun k => (htu.objects k).trans (hst.objects k)⟩⟩

theorem Forgets.objects_eq (h : Forgets s t) : t.objects = s.objects := by
  unfold Scan.objects
  rw [h.events]

theorem keeps_cleanWithin : ∀ fuel id, Keeps Forgets (cleanWithin fuel id) := by
  intro fuel
  induction fuel with
  | zero => exact fun _ => keeps_pure _
  | succ fuel ih =>
    intro id
    let f : Symbol → Symbol := fun s => { s with tree := .absent }
    have hheading : ∀ own, (f own).heading = own.heading := fun _ => rfl
    refine Keeps.bind (keeps_modify fun s => ⟨rfl, Program.objectOf_modifySymbol hheading id⟩)
      fun _ => Keeps.bind keeps_program fun p => keeps_forM fun member _ => ih member

/-- To forget the trees of a program is to leave everything else as it is. -/
theorem keeps_clean (id : Nat) : Keeps Forgets (clean id) :=
  Keeps.bind keeps_program fun p => keeps_cleanWithin p.symbols.length id

/-! ### The scan of a program -/

section Scans

variable {i : ProgramId} {files : SourceFiles} {events : Array Event}

/-- **A source that is not declared as a whole is not stored.** -/
theorem objects_examineAll_eq_nil (known : Objects) {library : Option Library}
    (hstart : ∀ e ∈ events.toList, e.isLog = true)
    (hno : ∀ root, i.start.Reads files root → ¬ root.IsDeclarable) :
    ((examineAll files library known).runOn ⟨i.start, events⟩).2.objects = [] := by
  -- it is not even declared, so that all there is stays bare
  have hbare : ∀ {p : Program}, p.HasRead files i (.file i.path) none →
      p.IsBare i (.file i.path) none := by
    rintro p (⟨hp, -⟩ | ⟨root, hreads, hnamed, -⟩)
    · exact hp
    · exact absurd hnamed (hno root hreads)
  have hnone {s : Scan} (h : ∀ e ∈ s.events.toList, e.isLog = true) : s.objects = [] :=
    filterMap_eq_nil_iff.mpr fun e he => Event.data?_of_isLog (h e he)
  let X : Surroundings := ⟨i, fun _ => none, fun _ _ h => (nomatch h), []⟩
  -- reading and resolving may stop anywhere, and tell nothing but the log
  have hquiet₁ := (X.alike_readProgram files _ _ (X.hushed_start hstart)).2.2
  refine of_runOn_bind (P := fun t : Scan => t.objects = []) (hnone hquiet₁.logs)
    fun _ s₁ hread => ?_
  rw [hread] at hquiet₁
  have hquiet₂ := (X.alike_resolve files library _ _ hquiet₁).2.2
  refine of_runOn_bind (P := fun t : Scan => t.objects = []) (hnone hquiet₂.logs)
    fun _ s₂ hresolve => ?_
  rw [hresolve] at hquiet₂
  obtain ⟨-, hread₂, -⟩ := settles_of_runs_resolve (runs_bind.mpr ⟨(), s₁, hread, hresolve⟩)
  -- there is no tree to be stored or to be walked through
  have hp := hbare hread₂
  have hsave : Runs (discard (save 0 none)) s₂ () s₂ := runs_discard.mpr ⟨none, runs_save_bare hp⟩
  have hlinks : Runs (saveLinks known) s₂ () s₂ := runs_saveLinks_bare hp
  rw [hsave.runOn_bind, hlinks.runOn_bind]
  exact (keeps_clean 0 s₂).objects_eq.trans (hnone hquiet₂.logs)

/-- **A source that is declared as a whole is stored as a whole**, wherever linking stops. -/
theorem exists_isStored_examineAll (known : Objects) {library : Library}
    (hlibrary : ∀ e ∈ library.entries, e.path ≠ "") (hstart : ∀ e ∈ events.toList, e.isLog = true)
    (hreads : i.start.Reads files root) (hnamed : root.IsDeclarable) :
    ∃ t : Scan, t.IsStored i.path ∧
      ((examineAll files (some library) known).runOn ⟨i.start, events⟩).2.objects = t.objects := by
  obtain ⟨s₁, (hread : Runs (readProgram files) ⟨i.start, events⟩ () s₁), -, henrolled₁⟩ :=
    runs_readProgram (Program.isBare_unread i (.file i.path) none) events hreads hnamed
  obtain ⟨source, -, htree⟩ := id hreads
  have hroot := isSource_of_treeOf htree
  obtain ⟨s₂, hresolve⟩ := runs_resolve hlibrary files hroot henrolled₁.root?_eq
  obtain ⟨hlogs, hread₂, -⟩ := settles_of_runs_resolve (runs_bind.mpr ⟨(), s₁, hread, hresolve⟩)
  rcases hread₂ with ⟨-, hunread⟩ | ⟨root', hreads', -, henrolled⟩
  · exact absurd hreads (hunread root)
  obtain ⟨source', -, htree'⟩ := id hreads'
  have hroot' := isSource_of_treeOf htree'
  have hnone : objects ⟨i.start, events⟩ = [] :=
    filterMap_eq_nil_iff.mpr fun e he => Event.data?_of_isLog (hstart e he)
  obtain ⟨object, s₃, hsave, hstores, -⟩ :=
    runs_save henrolled hroot' (hlogs.objects_eq.trans hnone)
  have hsaved : Runs (discard (save 0 none)) s₂ () s₃ := runs_discard.mpr ⟨object, hsave⟩
  have hlinked : ((saveLinks known).runOn s₃).2.IsStored i.path :=
    keeps_saveLinks hroot' (hstores.table.root?_eq.trans henrolled.root?_eq)
      (hstores.isStored henrolled hroot')
  -- if linking stops, that is the end of the scan; if not, all trees are forgotten
  refine ⟨_, hlinked, ?_⟩
  unfold examineAll
  rw [hread.runOn_bind, hresolve.runOn_bind, hsaved.runOn_bind]
  refine of_runOn_bind (P := fun t : Scan => t.objects = ((saveLinks known).runOn s₃).2.objects)
    rfl fun _ s₄ hlinks => ?_
  rw [(keeps_clean 0 s₄).objects_eq, hlinks]

end Scans

end Scan

/-! ### Objects of programs -/

/-- The number of objects that have been made for programs of the file at this path. -/
def programObjects (path : String) (objects : List ObjectData) : Nat :=
  objects.countP fun data => data.type = "Eztprogram" ∧ data.parent = some (.file path)

theorem programObjects_append (path : String) (as bs : List ObjectData) :
    programObjects path (as ++ bs) = programObjects path as + programObjects path bs :=
  countP_append

/-- The objects that have been reported. -/
def Project.reported (p : Project) : List ObjectData :=
  p.events.toList.filterMap Event.data?

theorem Surroundings.data?_filter_keeps (X : Surroundings) (es : List Event) :
    (es.filter X.keeps).filterMap Event.data? = es.filterMap Event.data? := by
  rw [filterMap_filter]
  refine filterMap_congr fun e _ => ?_
  by_cases hkeeps : X.keeps e = true
  · rw [if_pos hkeeps]
  · rw [if_neg hkeeps]
    cases e with
    | link => rfl
    | _ => exact absurd rfl hkeeps

/-- No other kind of symbol has the objects of programs. -/
theorem SymbolKind.eq_program_of_objectType {kind : SymbolKind}
    (h : kind.objectType = .ok "Eztprogram") : kind = .program := by
  cases kind with
  | program => rfl
  | plain => cases h
  | _ => exact absurd (Except.ok.inj h) (by decide)

theorem countP_eq_of_forall₂ {α β : Type} {R : α → β → Prop} {p : α → Bool} {q : β → Bool}
    (hpq : ∀ a b, R a b → p a = q b) {as : List α} {bs : List β} (h : Forall₂ R as bs) :
    as.countP p = bs.countP q := by
  induction h with
  | nil => rfl
  | cons hab _ ih => rw [countP_cons, countP_cons, ih, hpq _ _ hab]

namespace Scan

variable {s : Scan} {own : String}

/-- The object of a program is that of its first symbol. -/
theorem Holds.isProgram_iff {done : List Nat} (h : s.Holds own done) {k : Nat} {data : ObjectData}
    (hdata : s.program.Describes own k data) (path : String) :
    (data.type = "Eztprogram" ∧ data.parent = some (.file path)) ↔ k = 0 ∧ own = path := by
  obtain ⟨⟨c, hc, htype⟩, hparent⟩ := hdata
  cases k with
  | zero =>
    obtain ⟨c', hc', hkind, -, -⟩ := h.storable.own
    obtain rfl : c' = c := Option.some.inj (hc'.symm.trans hc)
    rw [hkind] at htype
    have hprogram : data.type = "Eztprogram" := (Except.ok.inj htype).symm
    rw [hparent rfl, Option.some.injEq, Ref.file.injEq]
    exact and_congr_left fun _ => iff_of_true hprogram rfl
  | succ k =>
    -- no member of a program is itself one
    obtain ⟨hkind, -⟩ := h.storable.member k c hc
    refine iff_of_false (fun hprogram => ?_) fun hzero => Nat.succ_ne_zero k hzero.1
    rw [hprogram.1] at htype
    exact hkind (SymbolKind.eq_program_of_objectType htype)

/-- **Of the objects of a stored source, one is a program.** It is the first one, and belongs to its
file. -/
theorem IsStored.programObjects_eq (h : s.IsStored own) (path : String) :
    programObjects path s.objects = if own = path then 1 else 0 := by
  obtain ⟨done, hholds, hperm⟩ := h
  have hsame : programObjects path s.objects = done.countP fun k => k = 0 ∧ own = path := by
    refine (countP_eq_of_forall₂ (fun k data hdata => ?_) hholds.data).symm
    exact decide_eq_decide.mpr (hholds.isProgram_iff hdata path).symm
  by_cases heq : own = path
  · -- all symbols are stored, and so is the first one
    have hfirst : 0 ∈ done := by
      obtain ⟨c, hc, -⟩ := hholds.storable.own
      rw [hperm.mem_iff, mem_range, ← s.program.length_cards]
      exact (List.getElem?_eq_some_iff.mp hc).1
    have hdistinct : done.Nodup := hperm.nodup_iff.mpr nodup_range
    rw [hsame, if_pos heq, ← count_eq_one_of_mem hdistinct hfirst]
    refine countP_congr fun k _ => ?_
    simp [heq]
  · rw [hsame, if_neg heq]
    exact countP_eq_zero.mpr fun k _ hk => heq (of_decide_eq_true hk).2

end Scan

/-- A program is read from the text of its file. -/
theorem ProgramId.reads_start_iff {i : ProgramId} {files : SourceFiles}
    (htext : (files.file i.path).text = some text) :
    i.start.Reads files root ↔ Scan.treeOf text = .ok (.root root) := by
  have hsource : i.start.source? files = some text := htext
  unfold Program.Reads
  rw [hsource]
  constructor
  · rintro ⟨source, heq, htree⟩
    rwa [Option.some.inj heq]
  · exact fun htree => ⟨text, rfl, htree⟩

namespace Survey

variable {V : Survey} {i : ProgramId} {path : String}

/-- What a scan stores, it stores between two messages. -/
theorem objects_scan (V : Survey) (known : Objects) (i : ProgramId) :
    ∃ events : Array Event, (∀ e ∈ events.toList, e.isLog = true) ∧ (V.scan known i).objects =
        ((Scan.examineAll V.files (some V.library) known).runOn ⟨i.start, events⟩).2.objects := by
  obtain ⟨t, hrun, hlogs⟩ := Scan.runOn_examine V.files (some V.library) known ⟨i.start, #[]⟩
  refine ⟨#[.log .info ("Scanning " ++ i.start.path) none], forall_mem_singleton.mpr rfl, ?_⟩
  unfold scan
  rw [hrun]
  exact Scan.OnlyLogs.objects_eq hlogs

/-- A source that is declared as a whole makes one object for its program. -/
theorem programObjects_scan (hlibrary : ∀ e ∈ V.library.entries, e.path ≠ "")
    (hreads : i.start.Reads V.files root) (hnamed : root.IsDeclarable) (known : Objects)
    (path : String) :
    programObjects path (V.scan known i).objects = if i.path = path then 1 else 0 := by
  obtain ⟨events, hlogs, hscan⟩ := V.objects_scan known i
  obtain ⟨t, hstored, ht⟩ := Scan.exists_isStored_examineAll known hlibrary hlogs hreads hnamed
  rw [hscan, ht, hstored.programObjects_eq]

theorem programObjects_scan_eq_zero (hno : ∀ root, i.start.Reads V.files root → ¬ root.IsDeclarable)
    (known : Objects) (path : String) : programObjects path (V.scan known i).objects = 0 := by
  obtain ⟨events, hlogs, hscan⟩ := V.objects_scan known i
  rw [hscan, Scan.objects_examineAll_eq_nil known hlogs hno]
  rfl

/-- No program gets into the file of another one. -/
theorem programObjects_scan_of_ne (hlibrary : ∀ e ∈ V.library.entries, e.path ≠ "")
    (hne : i.path ≠ path) (known : Objects) : programObjects path (V.scan known i).objects = 0 := by
  by_cases hroot : ∃ root, i.start.Reads V.files root ∧ root.IsDeclarable
  · obtain ⟨root, hreads, hnamed⟩ := hroot
    rw [programObjects_scan hlibrary hreads hnamed, if_neg hne]
  · exact programObjects_scan_eq_zero (fun root hreads hnamed => hroot ⟨root, hreads, hnamed⟩)
      known path

/-- Programs that make `n` objects each for one file make so many times that. -/
theorem programObjects_flatMap {n : Nat} {g : ProgramId → List Event} {is : List ProgramId}
    (h : ∀ i ∈ is,
      programObjects path ((g i).filterMap Event.data?) = if i.path = path then n else 0) :
    programObjects path ((is.flatMap g).filterMap Event.data?) =
      is.countP (·.path == path) * n := by
  induction is with
  | nil => exact (Nat.zero_mul n).symm
  | cons i is ih =>
    have hi := h i mem_cons_self
    have hrest := ih fun j hj => h j (mem_cons_of_mem i hj)
    rw [flatMap_cons, filterMap_append, programObjects_append, hi, hrest, countP_cons, Nat.add_mul,
      Nat.add_comm]
    congr 1
    by_cases hpath : i.path = path
    · rw [if_pos hpath, if_pos (beq_iff_eq.mpr hpath), Nat.one_mul]
    · rw [if_neg hpath, if_neg (mt beq_iff_eq.mp hpath), Nat.zero_mul]

end Survey

/-! ### No file gets lost -/

namespace Analysis

variable {active : Bool} {extensions : List String} {files : SourceFiles} {paths : List String}
  {path text : String}

/-- **Each file that an analysis takes** has one object for its program if its source is whole, and
none if it is not. This is so whatever the other files hold, and a file that is taken more than once
has as many programs.

A file without a path has no extension, so it is not among those that are taken if an extension is
asked for. -/
theorem count_programObjects
    (hpaths : ∀ p ∈ paths, (begun active extensions files).accepts p = true → p ≠ "")
    (haccepted : (begun active extensions files).accepts path = true)
    (htext : (files.file path).text = some text) (hfirst : ¬ "MACRO".toList <+: text.toList)
    (hmark : ¬ "BEGIN_PROGRAM(".toList <+: text.toList) (hlex : Lexer.lex text ≠ []) :
    ∃ b, Runs (do paths.forM startFile; Analysis.finish) (begun active extensions files) () b ∧
      (IsWhole text → programObjects path b.project.reported = paths.count path) ∧
      (¬ IsWhole text → programObjects path b.project.reported = 0) := by
  let is := numberedFrom [] (paths.filter (begun active extensions files).accepts)
  let V : Survey := { files, library := { entries := is.map ProgramId.entry } }
  have htaken : is.map (·.path) = paths.filter (begun active extensions files).accepts :=
    map_path_numberedFrom _ _
  have hcount : is.countP (·.path == path) = paths.count path := by
    rw [← count_filter haccepted, ← htaken, List.count, countP_map]
    rfl
  have hlibrary : ∀ e ∈ V.library.entries, e.path ≠ "" := by
    intro e he
    obtain ⟨i, hi, rfl⟩ := mem_map.mp he
    have hpath : i.path ∈ paths.filter (begun active extensions files).accepts :=
      htaken ▸ mem_map_of_mem hi
    obtain ⟨hmem, haccepts⟩ := mem_filter.mp hpath
    exact hpaths i.path hmem haccepts
  obtain ⟨b, hrun, logs, hlogs, hevents⟩ :=
    events_run paths (rfl : is = _) (rfl : V.files = files) rfl
  -- the programs of the file all do the same, and those of other files do not get into it
  have htotal : ∀ n, (∀ i : ProgramId, i.path = path →
      programObjects path (V.scan V.objects i).objects = n) →
      programObjects path b.project.reported = paths.count path * n := by
    intro n hn
    have hnone : logs.filterMap Event.data? = [] :=
      filterMap_eq_nil_iff.mpr fun e he => Event.data?_of_isLog (hlogs e he)
    unfold Project.reported
    rw [hevents, filterMap_append, hnone, nil_append, ← hcount]
    refine Survey.programObjects_flatMap fun i _ => ?_
    -- of a report at most links are left out
    rw [Surroundings.data?_filter_keeps]
    split
    next heq => exact hn i heq
    next hne => exact Survey.programObjects_scan_of_ne hlibrary hne V.objects
  have hdeclarable := exists_isDeclarable_iff hfirst hmark hlex
  refine ⟨b, hrun, fun hwhole => ?_, fun hnot => ?_⟩
  · obtain ⟨root, htree, hnamed⟩ := hdeclarable.mpr hwhole
    rw [← Nat.mul_one (paths.count path)]
    refine htotal 1 fun i hi => ?_
    have hreads : i.start.Reads V.files root := (ProgramId.reads_start_iff (hi ▸ htext)).mpr htree
    rw [Survey.programObjects_scan hlibrary hreads hnamed, if_pos hi]
  · refine htotal 0 fun i hi => Survey.programObjects_scan_eq_zero
      (fun root hreads hnamed => ?_) V.objects path
    exact hnot (hdeclarable.mp ⟨root, (ProgramId.reads_start_iff (hi ▸ htext)).mp hreads, hnamed⟩)

/-- A program with a file, a sort and a report, all of them whole. -/
def wholeSource : String :=
  "PARM\nFILE IN\nSORT IN TO OUT\nJOB\nCALL B\nREPORT R\n"

/-- A program with a file that has no name. -/
def namelessFile : String :=
  "PARM\nFILE\n"

def mixedSources : SourceFiles :=
  [("/s/A.ezt", { text := some wholeSource }), ("/s/B.ezt", { text := some namelessFile }),
    ("/s/C.txt", { text := some wholeSource })]

/-- What is taken twice is stored twice, next to a program that gets lost and a file that is not
taken. -/
theorem count_programObjects_mixedSources :
    ∃ b, Runs (do ["/s/B.ezt", "/s/A.ezt", "/s/C.txt", "/s/A.ezt"].forM startFile; Analysis.finish)
        (begun true [".ezt"] mixedSources) () b ∧
      programObjects "/s/A.ezt" b.project.reported = 2 := by
  let i : ProgramId := ⟨"/s/A.ezt", 0⟩
  have htext : (mixedSources.file i.path).text = some wholeSource := by decide +kernel
  have hfirst : ¬ "MACRO".toList <+: wholeSource.toList := by decide +kernel
  have hmark : ¬ "BEGIN_PROGRAM(".toList <+: wholeSource.toList := by decide +kernel
  have hlex : Lexer.lex wholeSource ≠ [] := by decide +kernel
  have hwhole : IsWhole wholeSource := by
    have hread : Runs (Scan.readProgram mixedSources) ⟨i.start, #[]⟩ () _ :=
      runs_of_isOk (by decide +kernel)
    have htree : ((Scan.readProgram mixedSources).runOn ⟨i.start, #[]⟩).2.program.root?.isSome =
      true := by decide +kernel
    refine (exists_isDeclarable_iff hfirst hmark hlex).mp ?_
    rcases (Scan.hasRead_of_runs (Program.isBare_unread i _ _) hread).2 with
      ⟨hbare, -⟩ | ⟨root, hreads, hnamed, -⟩
    · rw [hbare.root?_eq] at htree
      cases htree
    · exact ⟨root, (ProgramId.reads_start_iff htext).mp hreads, hnamed⟩
  have hpaths : ∀ p ∈ ["/s/B.ezt", "/s/A.ezt", "/s/C.txt", "/s/A.ezt"],
      (begun true [".ezt"] mixedSources).accepts p = true → p ≠ "" := by
    decide
  obtain ⟨b, hrun, hcount, -⟩ :=
    count_programObjects hpaths (by decide +kernel) htext hfirst hmark hlex
  exact ⟨b, hrun, hcount hwhole⟩

/-- A file without a name gets a program lost. -/
theorem programObjects_eq_zero_of_namelessFile :
    (begun true [".ezt"] [("/s/A.ezt", { text := some namelessFile })]).accepts "/s/A.ezt" = true ∧
      ¬ "MACRO".toList <+: namelessFile.toList ∧ ¬ "BEGIN_PROGRAM(".toList <+: namelessFile.toList ∧
        Lexer.lex namelessFile ≠ [] ∧
      ∃ b, Runs (do ["/s/A.ezt"].forM startFile; Analysis.finish)
        (begun true [".ezt"] [("/s/A.ezt", { text := some namelessFile })]) () b ∧
        programObjects "/s/A.ezt" b.project.reported = 0 := by
  refine ⟨by decide +kernel, by decide +kernel, by decide +kernel, by decide +kernel, _,
    runs_of_isOk ?_, ?_⟩
  · decide +kernel
  · decide +kernel

end Analysis

end EztScan
