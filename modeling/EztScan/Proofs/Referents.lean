import EztScan.Proofs.Presence

/-!
# What reports refer to

A new object stands under a source file or under another object, and a link has an object at each of
its ends. All of these have been reported before. Within a scan, `Founded` says so: an object stands
under one of the same program, a link starts from one of them, and a link may lead to another
program only if it is a call.

Storing goes down from owners to members, and a member is stored only when its owner is, so that
there is always an object to stand under (`runs_save`). While links are reported all symbols have
objects, and those of called programs that are not known are made before they are linked
(`Linked.saveLinks`). Reading and resolving, which may stop anywhere, report nothing that refers to
objects (`grounded_examineAll`).

Calls lead to the objects of other programs themselves, and these were reported while those programs
were scanned. So an analysis as a whole refers to nothing that was not reported before
(`events_backed`), whichever of its scans stop.
-/

namespace EztScan

open Element EztScan.Language Work List

variable {i : ProgramId} {kind : LinkKind} {rs : List Reference} {p : Program} {n root : Node}
  {callee : ObjectId} {X : Surroundings}
variable {k : Nat} {o : Operand} {r : Reference} {caller : Option ObjectId} {mark : Bookmark}

/-! ### Events that refer to objects -/

namespace Event

/-- What the event refers to is saved: the object that a new one stands under, unless that is a
source file, and both ends of a link. -/
def IsBacked (saved : ObjectId → Prop) : Event → Prop
  | .object _ data => ∃ ref, data.parent = some ref ∧ ∀ o, ref = .object o → saved o
  | .link _ caller callee _ => (∃ o, caller = some o ∧ saved o) ∧ ∃ o, callee = some o ∧ saved o
  | _ => True

/-- What refers to saved objects and else calls other programs is backed if those are saved too. -/
theorem IsFounded.isBacked {saved saved' : ObjectId → Prop} {e : Event} (he : e.IsFounded i saved)
    (h : ∀ o, saved o → saved' o)
    (hcalls : ∀ kind caller callee mark, e = .link kind caller (some callee) mark →
      callee.program ≠ i → saved' callee) :
    e.IsBacked saved' := by
  cases e with
  | object => exact he.mono h
  | link kind caller callee mark =>
    obtain ⟨⟨o, hcaller, ho⟩, o', rfl, ho'⟩ := he
    refine ⟨⟨o, hcaller, h o ho⟩, o', rfl, ?_⟩
    rcases ho' with ho' | ⟨hne, -⟩
    · exact h o' ho'
    · exact hcalls kind caller o' mark rfl hne
  | _ => trivial

end Event

/-! ### Linking -/

/-- What a statement reads from or writes to is in the program itself. -/
def Program.StaysWithin (p : Program) (root : Node) : Prop :=
  ∀ n ∈ allNodes [root.toElement], ∀ rs, Scan.linked? n.head.kind.name = some rs →
    ∀ r ∈ rs, r.link ≠ .call →
    ∀ o, n.operand? r.role = some o → ∀ ref ∈ p.resolvedAs n.head.number r.role, ref.program = p.id

/-- What a reference expects decides whether it is a call of a program. -/
theorem Reference.link_of_expects {kind : String} (hrs : ofStatement? kind = some rs) :
    ∀ r ∈ rs, r.expects = .program → r.link = .call := by
  unfold ofStatement? at hrs
  split at hrs
  all_goals cases hrs
  all_goals decide

/-- Once a program is resolved, only calls lead out of it. -/
theorem Program.staysWithin_of_settles {library : Option Library}
    (h : ∀ n ∈ allNodes [root.toElement], ∀ rs, Reference.ofStatement? n.head.kind.name = some rs →
      p.Settles library n rs) :
    p.StaysWithin root := by
  intro n hn rs hrs r hr hlink o ho ref href
  have hrs' := Scan.ofStatement?_of_linked? hrs
  have hexpects : r.expects ≠ .program :=
    fun hexpects => hlink (Reference.link_of_expects hrs' r hr hexpects)
  rw [(h n hn rs hrs' r hr o ho).named hexpects] at href
  obtain ⟨id, -, rfl⟩ := mem_map.mp href
  rfl

/-- What is set to symbols of the program itself does not lead out of it. -/
theorem Program.StaysWithin.setResolved (h : p.StaysWithin root) (statement : Nat) (role : Role)
    (id : Nat) : (p.setResolved statement role [⟨p.id, id⟩]).StaysWithin root := by
  intro n hn rs hrs r hr hlink o ho ref href
  rw [resolvedAs_setResolved] at href
  split at href
  · rw [mem_singleton.mp href]
    rfl
  · exact h n hn rs hrs r hr hlink o ho ref href

theorem Program.StaysWithin.congr {q : Program} (h : p.StaysWithin root) (hid : q.id = p.id)
    (hresolved : q.resolved = p.resolved) : q.StaysWithin root := by
  intro n hn rs hrs r hr hlink o ho ref href
  unfold resolvedAs at href
  rw [hresolved] at href
  rw [hid]
  exact h n hn rs hrs r hr hlink o ho ref href

theorem Program.lt_of_objectOf {o : ObjectId} (h : p.objectOf k = some o) :
    k < p.symbols.length := by
  unfold objectOf at h
  obtain ⟨self, hself, -⟩ := Option.bind_eq_some_iff.mp h
  exact (List.getElem?_eq_some_iff.mp hself).1

namespace Scan

variable {path : String} {s t u : Scan}

/-- All symbols are stored, what is reported refers to what has been reported, and only calls lead
out of the program. -/
structure Linked (i : ProgramId) (path : String) (root : Node) (s : Scan) : Prop where
  id : s.program.id = i
  stored : s.IsStored path
  backed : s.Backed path
  within : s.program.StaysWithin root

/-- Besides, this is the object of the symbol that links start from. -/
structure LinkedFrom (i : ProgramId) (path : String) (root : Node) (owner : Nat) (caller : ObjectId)
    (s : Scan) : Prop extends s.Linked i path root where
  caller : s.program.objectOf owner = some caller

section Links

variable {i : ProgramId} {root : Node} {known : Objects} {owner : Nat} {caller : ObjectId}

theorem LinkedFrom.owner_lt (h : s.LinkedFrom i path root owner caller) :
    owner < s.program.symbols.length :=
  Program.lt_of_objectOf h.caller

theorem LinkedFrom.unknownProgram (h : s.LinkedFrom i path root owner caller) {word : Token}
    (hword : word.HasLines) (hrun : Runs (unknownProgram owner (.word word)) s k t) :
    t.LinkedFrom i path root owner caller := by
  obtain ⟨hstored, henlarges, -, hbacked, -, -, hid, hresolved, -⟩ :=
    h.stored.unknownProgram h.owner_lt ⟨word, rfl, hword⟩ hrun
  refine ⟨⟨hid.trans h.id, hstored, hbacked h.backed, h.within.congr hid hresolved⟩, ?_⟩
  rw [henlarges.objects owner h.owner_lt]
  exact h.caller

theorem keeps_targetsOf_linked (ho : r.expects = .program → ∃ t, o = .word t ∧ t.HasLines) :
    Keeps (Preserves (LinkedFrom i path root owner caller)) (targetsOf owner n r o) := by
  refine keeps_targetsOf (fun hexpects => ?_) fun _ {s} k h => ?_
  · obtain ⟨word, rfl, hword⟩ := ho hexpects
    exact keeps_unknownProgram ⟨word, rfl, hword⟩ (fun h => ⟨h.stored, h.owner_lt⟩) fun h hrun =>
      h.unknownProgram hword hrun
  · obtain ⟨hstored, -⟩ := h.stored.setResolved n.head.number r.role [⟨s.program.id, k⟩]
    exact ⟨⟨h.id, hstored, h.backed.congr rfl (fun _ => rfl) rfl, h.within.setResolved _ _ _⟩,
      h.caller⟩

/-- What does not stand for a program in a call stands for symbols of the program itself. -/
theorem LinkedFrom.targetsOf (h : s.LinkedFrom i path root owner caller)
    (hn : n ∈ allNodes [root.toElement]) (hrs : linked? n.head.kind.name = some rs) (hr : r ∈ rs)
    (ho : n.operand? r.role = some o) {refs : List SymbolRef}
    (hrun : Runs (targetsOf owner n r o) s refs t) :
    ∀ ref ∈ refs, ref.program = i ∨ r.link = .call := by
  have hrun := runs_program_bind.mp hrun
  intro ref href
  by_cases hlink : r.link = .call
  · exact .inr hlink
  · refine .inl ?_
    rw [if_neg] at hrun
    · obtain ⟨rfl, -⟩ := runs_pure.mp hrun
      rw [← h.id]
      exact h.within n hn rs hrs r hr hlink o ho ref href
    · -- only a program is looked for a second time, and that is a call
      intro hcond
      rw [Bool.and_eq_true, decide_eq_true_iff] at hcond
      exact hlink (Reference.link_of_expects (ofStatement?_of_linked? hrs) r hr hcond.1)

/-- One more link, to an object of the program or as a call of another one. -/
theorem LinkedFrom.link (h : s.LinkedFrom i path root owner caller)
    (hcallee : Reported s.events.toList callee ∨ callee.program ≠ i ∧ kind = .call)
    (mark : Bookmark) :
    LinkedFrom i path root owner caller ⟨s.program,
      s.events.push (.link kind (some caller) (some callee) mark)⟩ := by
  obtain ⟨data, hmem, -⟩ := h.backed.objects owner caller h.caller
  refine ⟨⟨h.id, h.stored.of_adds rfl (adds_push rfl s _), ?_, h.within⟩, h.caller⟩
  exact h.backed.append rfl (fun _ => rfl) Array.toList_push
    ⟨⟨⟨caller, rfl, data, hmem⟩, callee, rfl, h.id ▸ hcallee⟩, trivial⟩

/-- **A link** leads to an object of the program, which has been reported, or it is a call of
another one. -/
theorem keeps_linkTarget_linked (hsound : ∀ ref o, known ref = some o → o.program = ref.program)
    (o : Operand) {ref : SymbolRef} (href : ref.program = i ∨ kind = .call) :
    Keeps (Preserves (LinkedFrom i path root owner caller))
      (linkTarget known kind (some caller) o ref) := by
  refine keeps_linkTarget fun {s callee} mark h hobject => h.link ?_ mark
  -- the program knows its own objects, and those of others are known from outside
  unfold objectOf at hobject
  by_cases hown : ref.program = s.program.id
  · rw [if_pos hown] at hobject
    obtain ⟨data, hmem, -⟩ := h.backed.objects ref.symbol callee hobject
    exact .inl ⟨data, hmem⟩
  · rw [if_neg hown] at hobject
    rw [h.id] at hown
    exact .inr ⟨hsound ref callee hobject ▸ hown, href.resolve_left hown⟩

/-- **The links of a statement** start from the object of the symbol that the walk is inside of. -/
theorem keeps_linkStatement_linked (hsound : ∀ ref o, known ref = some o → o.program = ref.program)
    (stack : Enclosing) (hn : n ∈ allNodes [root.toElement])
    (hrs : linked? n.head.kind.name = some rs) (hcalls : CallsByWord n rs) :
    Keeps (Preserves (Linked i path root)) (linkStatement known stack n rs) := by
  refine keeps_linkStatement stack fun {s owner self} h hself => ?_
  -- all symbols are stored, so links have a caller
  obtain ⟨caller, hcaller⟩ :=
    Option.isSome_iff_exists.mp (h.stored.isSome (List.getElem?_eq_some_iff.mp hself).1)
  have hstored : self.stored = some caller := by
    unfold Program.objectOf at hcaller
    rwa [hself, Option.bind_some] at hcaller
  have hkeeps : Keeps (Preserves (LinkedFrom i path root owner caller))
      (linkReferences known owner (some caller) n rs) := by
    refine keeps_linkReferences (fun r hr o ho => keeps_targetsOf_linked fun hexpects =>
      hcalls r hr hexpects o ho) ?_
    intro r hr o ho s refs t h hrun ref href
    exact keeps_linkTarget_linked hsound o (h.targetsOf hn hrs hr ho hrun ref href)
  rw [hstored]
  exact (hkeeps s ⟨h, hcaller⟩).toLinked

/-- **Linking** reports links between objects that have been reported, and calls of other programs,
wherever it stops. -/
theorem Linked.saveLinks (h : s.Linked i path root)
    (hsound : ∀ ref o, known ref = some o → o.program = ref.program) (hroot : root.IsSource)
    (hs : s.program.root? = some root) : ((saveLinks known).runOn s).2.Linked i path root := by
  have hvisits := (runs_visits hs).runOn_bind fun vs => discard (linkVisits known [some 0] vs)
  unfold Scan.saveLinks
  rw [hvisits]
  refine (keeps_linkVisits (fun n hn rs hrs stack => ?_) [some 0]).discard s h
  have hmem := mem_allNodes_of_entering hn
  exact keeps_linkStatement_linked hsound stack hmem hrs (callsByWord_of_isSource hroot hmem hrs)

end Links

/-! ### The scan of a program -/

/-- What is reported refers to what has been reported, and the object of the program has been
reported as one. -/
structure Grounded (i : ProgramId) (s : Scan) : Prop where
  object : ∀ o, s.program.objectOf 0 = some o → ∃ data, Event.object o data ∈ s.events.toList ∧
    data.IsProgramAt i.path
  founded : Founded i (fun _ => False) s.events.toList

theorem Backed.grounded (h : s.Backed i.path) (hid : s.program.id = i) : s.Grounded i := by
  refine ⟨fun o ho => ?_, hid ▸ h.founded⟩
  obtain ⟨data, hmem, hprogram⟩ := h.objects 0 o ho
  exact ⟨data, hmem, hprogram rfl⟩

theorem exists_data_of_guidIn {events : List Event} {o : ObjectId} {guid : String}
    (h : guidIn events o = some guid) : ∃ data, Event.object o data ∈ events := by
  by_contra hno
  have hnone : guidIn events o = none := by
    refine guidIn_eq_none fun o' data hmem => ?_
    rintro rfl
    exact hno ⟨data, hmem⟩
  cases hnone.symm.trans h

/-- As long as only the log has been told of the program, it has no object. -/
theorem grounded_of_hushed (h : X.Hushed s t) : s.Grounded X.own := by
  refine ⟨fun o ho => ?_, founded_of_remarks fun e he => Event.isRemark_of_isLog (h.logs e he)⟩
  obtain ⟨data, hmem⟩ := exists_data_of_guidIn (h.regular.guid o ho)
  cases h.logs _ hmem

theorem Grounded.log (h : s.Grounded i) (level : Level) (text : String) (cause : Option Fault) :
    Grounded i ⟨s.program, s.events.push (.log level text cause)⟩ := by
  refine ⟨fun o ho => ?_, ?_⟩
  · obtain ⟨data, hmem, hprogram⟩ := h.object o ho
    exact ⟨data, Array.toList_push ▸ mem_append_left _ hmem, hprogram⟩
  · rw [Array.toList_push]
    exact founded_append.mpr ⟨h.founded, trivial, trivial⟩

theorem Grounded.forget (h : s.Grounded i) (hst : Forgets s t) : t.Grounded i := by
  refine ⟨fun o ho => ?_, hst.events ▸ h.founded⟩
  rw [hst.events]
  exact h.object o (hst.objects 0 ▸ ho)

section Scans

variable {i : ProgramId} {files : SourceFiles} {library : Option Library} {known : Objects}
  {events : Array Event}

-- objects are known under their own programs
variable (hsound : ∀ ref o, known ref = some o → o.program = ref.program)

include hsound

/-- A program that has been resolved, stored and linked as a whole, wherever linking stops. -/
theorem linked_of_enrolled (hroot : root.IsSource)
    (henrolled : s.program.Enrolled i (.file i.path) root root.declarations)
    (hlogs : ∀ e ∈ s.events.toList, e.isLog = true) (hwithin : s.program.StaysWithin root) :
    ∃ object t, Runs (save 0 none) s object t ∧
      ((saveLinks known).runOn t).2.Linked i i.path root := by
  have hobjects : s.objects = [] :=
    filterMap_eq_nil_iff.mpr fun e he => Event.data?_of_isLog (hlogs e he)
  have hholds := holds_nil henrolled hroot hobjects
  have hbacked : s.Backed i.path := by
    refine ⟨fun k o ho => ?_, founded_of_remarks fun e he => Event.isRemark_of_isLog (hlogs e he)⟩
    have hk := Program.lt_of_objectOf ho
    have hsome : (s.program.objectOf k).isSome = true := by rw [ho]; rfl
    exact absurd ((hholds.stored k hk).mp hsome) not_mem_nil
  obtain ⟨object, t, hsave, hstores, hrefers⟩ := runs_save henrolled hroot hobjects
  have hlinked : t.Linked i i.path root :=
    ⟨hstores.table.id.trans henrolled.id, hstores.isStored henrolled hroot, hrefers hbacked,
      hwithin.congr hstores.table.id hstores.resolved⟩
  exact ⟨object, t, hsave, hlinked.saveLinks hsound hroot
    (hstores.table.root?_eq.trans henrolled.root?_eq)⟩

/-- **The scan of a program** refers to what it has reported, and otherwise calls other programs,
wherever it stops. -/
theorem grounded_examineAll (hlogs : ∀ e ∈ events.toList, e.isLog = true) :
    ((examineAll files library known).runOn ⟨i.start, events⟩).2.Grounded i := by
  let X : Surroundings := ⟨i, known, hsound, []⟩
  -- reading and resolving may stop anywhere, and have told nothing but the log
  have hquiet₁ := (X.alike_readProgram files _ _ (X.hushed_start hlogs)).2.2
  refine of_runOn_bind (P := Grounded i) (grounded_of_hushed hquiet₁) fun _ s₁ hread => ?_
  rw [hread] at hquiet₁
  have hquiet₂ := (X.alike_resolve files library _ _ hquiet₁).2.2
  refine of_runOn_bind (P := Grounded i) (grounded_of_hushed hquiet₂) fun _ s₂ hresolve => ?_
  rw [hresolve] at hquiet₂
  obtain ⟨-, hhas, hsettles⟩ := settles_of_runs_resolve (runs_bind.mpr ⟨(), s₁, hread, hresolve⟩)
  rcases hhas with ⟨hbare, -⟩ | ⟨root, hreads, -, henrolled⟩
  · -- there is no tree to be stored or to be walked through
    have hsave : Runs (discard (save 0 none)) s₂ () s₂ :=
      runs_discard.mpr ⟨none, runs_save_bare hbare⟩
    have hlinks : Runs (saveLinks known) s₂ () s₂ := runs_saveLinks_bare hbare
    rw [hsave.runOn_bind, hlinks.runOn_bind]
    exact (grounded_of_hushed hquiet₂).forget (keeps_clean 0 s₂)
  · -- what is stored and linked stands on what has been reported
    obtain ⟨source, -, htree⟩ := id hreads
    have hwithin := Program.staysWithin_of_settles (hsettles root henrolled.root?_eq)
    obtain ⟨object, s₃, hsave, hlinked⟩ :=
      linked_of_enrolled hsound (isSource_of_treeOf htree) henrolled hquiet₂.logs hwithin
    have hsaved : Runs (discard (save 0 none)) s₂ () s₃ := runs_discard.mpr ⟨object, hsave⟩
    rw [hsaved.runOn_bind]
    have hgrounded := hlinked.backed.grounded hlinked.id
    refine of_runOn_bind (P := Grounded i) hgrounded fun _ s₄ hlinks => ?_
    rw [hlinks] at hgrounded
    exact hgrounded.forget (keeps_clean 0 s₄)

/-- The log is told of the scan before it begins, and of the fault that stops it. -/
theorem grounded_examine : ((examine files library known).runOn ⟨i.start, #[]⟩).2.Grounded i := by
  have hstart : Grounded i ⟨i.start, #[]⟩ := by
    refine ⟨fun o ho => ?_, trivial⟩
    rw [i.objectOf_start] at ho
    cases ho
  refine of_runOn_bind (P := Grounded i) hstart fun p s₁ hprogram => ?_
  obtain ⟨rfl, rfl⟩ :=
    Runs.unique (show Runs program? ⟨i.start, #[]⟩ i.start ⟨i.start, #[]⟩ from rfl) hprogram
  refine of_runOn_bind (P := Grounded i) (hstart.log _ _ _) fun _ s₁ hlog => ?_
  obtain rfl := runs_modify.mp hlog
  have hall : ((examineAll files library known).runOn
      ⟨i.start, Array.push #[] (.log .info ("Scanning " ++ i.start.path) none)⟩).2.Grounded i :=
    grounded_examineAll hsound (forall_mem_singleton.mpr rfl)
  refine of_runOn_bind (P := Grounded i) hall fun outcome s₂ hattempt => ?_
  rw [runs_attempt.mp hattempt] at hall
  cases outcome with
  | ok => exact hall
  | error => exact hall.log _ _ _

end Scans

end Scan

/-- So it is for each scan of an analysis. -/
theorem Survey.grounded_scan (V : Survey) (i : ProgramId) (done : List ProgramId) :
    (V.scan (V.around i done).known i).Grounded i := by
  refine Scan.grounded_examine fun ref o ho => ?_
  unfold Surroundings.known at ho
  split at ho
  · exact (V.around i done).sound ref o ho
  · cases ho

/-! ### Analyses -/

section Splits

variable {α β : Type}

/-- An element of two lists put together is in the first or in the second one. -/
theorem exists_of_append_eq {as bs xs ys : List β} {b : β} (h : as ++ bs = xs ++ b :: ys) :
    (∃ zs, as = xs ++ b :: zs) ∨ ∃ zs, xs = as ++ zs ∧ bs = zs ++ b :: ys := by
  rcases append_eq_append_iff.mp h with ⟨zs, hxs, hbs⟩ | ⟨zs, has, hys⟩
  · exact .inr ⟨zs, hxs, hbs⟩
  · cases zs with
    | nil =>
      rw [append_nil] at has
      exact .inr ⟨[], by rw [has, append_nil], hys.symm⟩
    | cons z zs =>
      obtain ⟨rfl, -⟩ := List.cons.inj hys
      exact .inl ⟨zs, has⟩

/-- An element of many lists put together is in one of them. -/
theorem exists_of_flatMap_eq {g : α → List β} {as : List α} {xs ys : List β} {b : β}
    (h : as.flatMap g = xs ++ b :: ys) :
    ∃ front a back before after, as = front ++ a :: back ∧ g a = before ++ b :: after ∧
      xs = front.flatMap g ++ before := by
  induction as generalizing xs with
  | nil =>
    have hmem : b ∈ xs ++ b :: ys := mem_append_right xs mem_cons_self
    rw [← h] at hmem
    exact absurd hmem not_mem_nil
  | cons a as ih =>
    rw [flatMap_cons] at h
    rcases exists_of_append_eq h with ⟨zs, ha⟩ | ⟨zs, rfl, hrest⟩
    · exact ⟨[], a, as, xs, zs, rfl, ha, rfl⟩
    · obtain ⟨front, a', back, before, after, rfl, ha', rfl⟩ := ih hrest
      exact ⟨a :: front, a', back, before, after, rfl, ha', by rw [flatMap_cons, append_assoc]⟩

end Splits

theorem Surroundings.keeps_link_iff :
    X.keeps (.link kind caller (some callee) mark) = true ↔
      callee.program = X.own ∨ callee.program ∈ X.done := by
  change (decide (callee.program = X.own) || X.done.contains callee.program) = true ↔ _
  rw [Bool.or_eq_true, decide_eq_true_iff, contains_iff_mem]

namespace Survey

variable {V : Survey} {i : ProgramId}

/-- A link to another program is a call, and what is called has been reported by the scan of that
program. -/
theorem reported_of_link {done : List ProgramId}
    (hmem : Event.link kind caller (some callee) mark ∈ (V.report i).filter (V.around i done).keeps)
    (hne : callee.program ≠ i) :
    kind = .call ∧ callee.program ∈ done ∧ ∀ done', ∃ data, data.IsProgramAt callee.program.path ∧
      Event.object callee data ∈ (V.report callee.program).filter
        (V.around callee.program done').keeps := by
  have hproper := (V.beside_report i done).regular.events
  obtain ⟨hreport, hkeeps⟩ := mem_filter.mp hmem
  refine ⟨?_, (Surroundings.keeps_link_iff.mp hkeeps).resolve_left hne, fun done' => ?_⟩
  · obtain ⟨before, after, hsplit⟩ := append_of_mem hmem
    have hfounded := (V.grounded_scan i done).founded
    rw [V.scan_events, hsplit] at hfounded
    obtain ⟨-, o, ho, hsaved⟩ := hfounded.of_split
    obtain rfl := Option.some.inj ho
    rcases hsaved with (hfalse | ⟨data, hdata⟩) | ⟨-, hcall⟩
    · exact hfalse.elim
    · -- the scan of a program reports objects of that program only
      have hdata : Event.object callee data ∈ (V.report i).filter (V.around i done).keeps := by
        rw [hsplit]
        exact mem_append_left _ hdata
      exact absurd ((hproper _ (mem_filter.mp hdata).1).object callee data rfl).1 hne
    · exact hcall
  · have hobject := (hproper _ hreport).callee kind caller callee mark rfl hne
    have hsettled : (V.settled callee.program).objectOf 0 = some callee := by
      change V.objects ⟨callee.program, 0⟩ = some callee at hobject
      unfold objects at hobject
      split at hobject
      · exact hobject
      · cases hobject
    -- what is known of the called program comes from its own scan
    rw [← V.scan_program callee.program done'] at hsettled
    obtain ⟨data, hdata, hprogram⟩ := (V.grounded_scan callee.program done').object callee hsettled
    rw [V.scan_events] at hdata
    exact ⟨data, hprogram, hdata⟩

end Survey

namespace Analysis

/-- **What is reported refers to what has been reported before.** In every analysis, a new object
stands under a source file or under an object that has been reported, and a link leads from one such
object to another, whichever files cannot be read and whichever scans stop. -/
theorem events_backed (active : Bool) (extensions : List String) (files : SourceFiles)
    (paths : List String) :
    ∃ b, Runs (do paths.forM startFile; Analysis.finish) (begun active extensions files) () b ∧
      ∀ before e after, b.project.events.toList = before ++ e :: after →
        e.IsBacked (Reported before) := by
  let is := numberedFrom [] (paths.filter (begun active extensions files).accepts)
  let V : Survey := { files, library := { entries := is.map ProgramId.entry } }
  have hnodup : is.Nodup := nodup_append_numberedFrom nodup_nil (forall_mem_nil _) _
  obtain ⟨b, hrun, logs, hlogs, hevents⟩ :=
    events_run paths (rfl : is = _) (rfl : V.files = files) rfl
  refine ⟨b, hrun, fun before e after hsplit => ?_⟩
  rw [hevents] at hsplit
  rcases exists_of_append_eq hsplit with ⟨rest, hfront⟩ | ⟨reports, rfl, hreports⟩
  · -- messages about the files that are taken
    have hlog : e.isLog = true := hlogs e (hfront ▸ mem_append_right before mem_cons_self)
    cases e with
    | log => trivial
    | _ => cases hlog
  · obtain ⟨front, i, back, own, rest, his, hreport, rfl⟩ := exists_of_flatMap_eq hreports
    have hearlier : earlier is i = front := by
      rw [his] at hnodup ⊢
      exact earlier_append_cons fun hmem => (nodup_append.mp hnodup).2.2 i hmem i mem_cons_self rfl
    have hfounded := (V.grounded_scan i (earlier is i)).founded
    rw [V.scan_events, hreport] at hfounded
    have he : e ∈ (V.report i).filter (V.around i (earlier is i)).keeps := by
      rw [hreport]
      exact mem_append_right own mem_cons_self
    refine hfounded.of_split.isBacked (fun o ho => ?_) fun kind caller callee mark hlink hne => ?_
    · exact reported_append.mpr (.inr (reported_append.mpr (.inr (ho.resolve_left id))))
    · -- a program that is called has been scanned before
      rw [hlink] at he
      obtain ⟨-, hdone, hcalled⟩ := Survey.reported_of_link he hne
      obtain ⟨data, -, hmem⟩ := hcalled (earlier is callee.program)
      rw [hearlier] at hdone
      exact reported_append.mpr
        (.inr (reported_append.mpr (.inl ⟨data, mem_flatMap.mpr ⟨_, hdone, hmem⟩⟩)))

end Analysis

end EztScan
