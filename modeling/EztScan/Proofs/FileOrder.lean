import EztScan.Proofs.Analysing
import EztScan.Proofs.ProgramNames
import Mathlib.Data.List.Nodup

/-!
# The order of the files

Do the links that an analysis reports depend on the order in which it takes its files? They do: a
call is linked only if the program that is called has been scanned before
(`not_links_perm_of_call`). Apart from that the order does not matter. Where no two programs have
one name, **two orders of the same files lead to the same links if and only if every called program
comes before its caller in both of them or in neither** (`links_perm_iff`).

What is reported for a program reads the source files and the library, and both look the same in any
order (`Survey.Agrees`). So the links of an analysis are those of each program, cut down to what
comes before it (`links_ofFiles`). For the other direction, a link tells the file that it was found
in and the global name of the program that it leads to; as these tell the two programs, a link that
is missing in one order cannot be made up for by another one.
-/

namespace EztScan

open List Scan Survey

variable {l : Library} {sources : SourceFiles} {i : ProgramId} {kind : LinkKind}
  {caller : Option ObjectId} {callee : ObjectId} {mark : Bookmark} {done : List ProgramId}
variable {l' : Library} {sources' : SourceFiles} {done' : List ProgramId}

/-! ### What a scan reads -/

/-- A library is read by asking for names. -/
theorem resolveVisit_congr (hfind : l.find = l'.find) :
    resolveVisit (some l) = resolveVisit (some l') := by
  have hlook : lookUp (some l) = lookUp (some l') := by
    funext r o
    unfold lookUp
    cases o.name with
    | none => rfl
    | some => simp only [hfind]
  have hall (n : Node) (rs : List Reference) :
      resolveReferences (some l) n rs = resolveReferences (some l') n rs := by
    induction rs with
    | nil => rfl
    | cons r rs ih => simp only [resolveReferences, hlook, ih]
  funext v
  unfold resolveVisit
  simp only [hall]

namespace Surroundings

open Work

variable {X : Surroundings}

/-- What goes on in two scans alike keeps the first one regular. -/
theorem keeps_of_alike {α : Type} {Q : α → Prop} {w : Work Scan α} (h : X.Alike Q w) :
    Keeps (Preserves X.Regular) w :=
  fun s hs => (h s ⟨s.program, (s.events.toList.filter X.keeps).toArray⟩ ⟨hs, rfl, rfl⟩).2.2.regular

section Reading

variable {files files' : SourceFiles} (hfile : files.file X.own.path = files'.file X.own.path)

include hfile

theorem agreeOn_readProgram : AgreeOn X.Regular (readProgram files) (readProgram files') := by
  have hsource : AgreeOn X.Regular (sourceText files) (sourceText files') := by
    intro s hs
    have hprogram : program?.runOn s = (.ok s.program, s) := rfl
    have hsame : files.file s.program.path = files'.file s.program.path := by
      unfold Program.path
      rw [hs.id, hfile]
    unfold sourceText
    rw [runOn_bind, runOn_bind, hprogram]
    dsimp only
    rw [hsame]
  exact ((hsource.bind_left _).attempt.bind_left _).bind_left _

/-- A scan reads the source of its program and no other, and the library by asking for names. -/
theorem agreeOn_examine (hfind : l.find = l'.find) (known : Objects) :
    AgreeOn X.Regular (examine files (some l) known) (examine files' (some l') known) := by
  have hread := agreeOn_readProgram hfile
  have hresolve : AgreeOn X.Regular (resolve files (some l)) (resolve files' (some l')) := by
    unfold resolve
    rw [resolveVisit_congr hfind]
    refine (agreeOn_refl _).bind (keeps_of_alike (alike_symbol 0)) fun self => ?_
    split
    · exact hread.bind_left _
    · exact agreeOn_refl _
  refine (agreeOn_refl _).bind (keeps_of_alike alike_program) fun p =>
    (agreeOn_refl _).bind (keeps_of_alike (alike_log _ _ _)) fun _ => ?_
  refine AgreeOn.bind_left (AgreeOn.attempt ?_) _
  exact hread.bind (keeps_of_alike (alike_readProgram files)) fun _ => hresolve.bind_left _

end Reading

end Surroundings

namespace Survey

/-- Two surveys that answer all questions alike, for the same programs in any order. -/
structure Agrees (V W : Survey) : Prop where
  file : V.files.file = W.files.file
  find : V.library.find = W.library.find
  programs : V.programs.Perm W.programs

variable {V W : Survey}

theorem scan_congr (hfind : V.library.find = W.library.find)
    (hfile : V.files.file i.path = W.files.file i.path) (known : Objects) :
    V.scan known i = W.scan known i := by
  let X : Surroundings := ⟨i, fun _ => none, fun _ _ h => (nomatch h), []⟩
  unfold Survey.scan
  rw [X.agreeOn_examine hfile hfind known _ X.abridged_start.regular]

variable (h : V.Agrees W)

include h

theorem Agrees.scan : V.scan = W.scan := by
  funext known i
  exact scan_congr h.find (congrFun h.file i.path) known

theorem Agrees.objects : V.objects = W.objects := by
  funext ref
  unfold Survey.objects Survey.settled
  rw [h.scan]
  exact if_congr h.programs.mem_iff rfl rfl

theorem Agrees.report : V.report = W.report := by
  funext i
  unfold Survey.report
  rw [h.scan, h.objects]

end Survey

/-! ### Files and libraries in another order -/

/-- Is no name, case put aside, that of two programs? -/
def DistinctNames (sources : SourceFiles) : Prop :=
  (sources.map fun f => Text.upper (Program.nameAt f.1)).Nodup

instance (sources : SourceFiles) : Decidable (DistinctNames sources) :=
  inferInstanceAs (Decidable (List.Nodup _))

theorem DistinctNames.paths (h : DistinctNames sources) : (sources.map (·.1)).Nodup := by
  unfold DistinctNames at h
  rw [show (fun f : String × SourceFile => Text.upper (Program.nameAt f.1)) =
    (fun path => Text.upper (Program.nameAt path)) ∘ (·.1) from rfl, ← map_map] at h
  exact List.Nodup.of_map _ h

theorem DistinctNames.perm (h : DistinctNames sources) (hperm : sources.Perm sources') :
    DistinctNames sources' :=
  (hperm.map _).nodup_iff.mp h

theorem lookup_eq_some_iff {α β : Type} [DecidableEq α] {l : List (α × β)} (h : (l.map (·.1)).Nodup)
    {a : α} {b : β} : l.lookup a = some b ↔ (a, b) ∈ l := by
  induction l with
  | nil => simp
  | cons p l ih =>
    obtain ⟨k, v⟩ := p
    rw [map_cons, nodup_cons] at h
    have hmem : (k, b) ∉ l := fun hkb => h.1 (mem_map.mpr ⟨(k, b), hkb, rfl⟩)
    by_cases hak : a = k
    · subst hak
      simp [hmem, eq_comm]
    · have hbeq : (a == k) = false := by simp [hak]
      simp [lookup_cons, hbeq, ih h.2, hak]

/-- Where paths are distinct, a file is found by its path in any order. -/
theorem file_eq_of_perm (hnodup : (sources.map (·.1)).Nodup) (hperm : sources.Perm sources') :
    SourceFiles.file sources = SourceFiles.file sources' := by
  have hnodup' : (sources'.map (·.1)).Nodup := (hperm.map _).nodup_iff.mp hnodup
  funext path
  have hlookup : sources.lookup path = sources'.lookup path := by
    refine Option.ext fun file => ?_
    rw [lookup_eq_some_iff hnodup, lookup_eq_some_iff hnodup', hperm.mem_iff]
  unfold SourceFiles.file
  rw [hlookup]

namespace Library

/-- At most one program has the name asked for, so that there is nothing to choose. -/
theorem length_named_le_one (h : (l.entries.map fun e => Text.upper e.name).Nodup) (name : String) :
    (l.named name).length ≤ 1 := by
  have hpairwise : (l.named name).Pairwise fun a b => Text.upper a.name ≠ Text.upper b.name :=
    (pairwise_map.mp h).filter _
  rcases hnamed : l.named name with _ | ⟨a, _ | ⟨b, rest⟩⟩
  · exact Nat.zero_le _
  · exact Nat.le_refl _
  · have hall : ∀ e ∈ l.named name, Text.upper e.name = Text.upper name :=
      fun e he => beq_iff_eq.mp (mem_filter.mp he).2
    rw [hnamed] at hall hpairwise
    have hne := rel_of_pairwise_cons hpairwise (mem_cons_self (a := b))
    exact absurd ((hall a mem_cons_self).trans
      (hall b (mem_cons_of_mem _ mem_cons_self)).symm) hne

/-- So the order of its entries does not matter to a library. -/
theorem find_eq_of_perm (h : (l.entries.map fun e => Text.upper e.name).Nodup)
    (hperm : l.entries.Perm l'.entries) : l.find = l'.find := by
  have hnamed : l.named = l'.named := by
    funext name
    have hfilter : (l.named name).Perm (l'.named name) := hperm.filter _
    have hlen := length_named_le_one h name
    rcases hl : l.named name with _ | ⟨a, _ | ⟨b, rest⟩⟩
    · rw [hl] at hfilter
      exact hfilter.nil_eq
    · rw [hl] at hfilter
      exact (perm_singleton.mp hfilter.symm).symm
    · rw [hl] at hlen
      simp at hlen
  funext path start
  unfold Library.find
  rw [hnamed]

end Library

namespace Analysis

variable {active : Bool} {extensions : List String} {sources sources' : SourceFiles}

/-- **The order of the files is nothing that a scan could find out.** -/
theorem agrees_of_perm (hnames : DistinctNames sources) (hperm : sources.Perm sources') :
    (survey active extensions sources).Agrees (survey active extensions sources') := by
  have hprograms : ((begun active extensions sources).programsAt (sources.map (·.1))).Perm
      ((begun active extensions sources').programsAt (sources'.map (·.1))) :=
    ((hperm.map _).filter _).map _
  refine ⟨file_eq_of_perm hnames.paths hperm, ?_, ?_⟩
  · refine Library.find_eq_of_perm (hnames.sublist ?_) (hprograms.map _)
    have hname : ((fun e : Entry => Text.upper e.name) ∘ ProgramId.entry) ∘
        (fun path => (⟨path, 0⟩ : ProgramId)) = fun path => Text.upper (Program.nameAt path) := by
      funext path
      dsimp only [Function.comp_apply, ProgramId.entry]
    have hpaths : sources.map (fun f => Text.upper (Program.nameAt f.1)) =
        (sources.map (·.1)).map fun path => Text.upper (Program.nameAt path) := by
      rw [map_map]
      rfl
    dsimp only [survey, programsAt]
    rw [map_map, map_map, hname, hpaths]
    exact filter_sublist.map _
  · rw [programs_survey, programs_survey]
    exact hprograms

end Analysis

/-! ### Links -/

/-- A link as the host keeps it: what it says, the global names of its two ends, and the place that
it was found at. -/
structure Link where
  kind : LinkKind
  caller : Option String
  callee : Option String
  mark : Bookmark
deriving Repr, DecidableEq

/-- The link that an event reports, where objects have these global names. -/
def Event.link? (guid : ObjectId → Option String) : Event → Option Link
  | .link kind caller callee mark => some ⟨kind, caller.bind guid, callee.bind guid, mark⟩
  | _ => none

/-- The links that have been reported in a project. -/
def Project.links (p : Project) : List Link :=
  p.events.toList.filterMap (Event.link? (guidIn p.events.toList))

namespace Survey

variable (V : Survey)

/-- What is reported for a program if some others have been scanned before. -/
def reportAfter (done : List ProgramId) (i : ProgramId) : List Event :=
  (V.report i).filter (V.around i done).keeps

/-- The global name of an object. -/
def guidOf (o : ObjectId) : Option String :=
  if o.program ∈ V.programs then guidIn (V.report o.program) o else none

/-- The links that are reported for a program if some others have been scanned before. -/
def linksAfter (done : List ProgramId) (i : ProgramId) : List Link :=
  (V.reportAfter done i).filterMap (Event.link? V.guidOf)

variable {V}

theorem regular_scan (i : ProgramId) (done : List ProgramId) :
    (V.around i done).Regular (V.scan V.objects i) :=
  (V.beside_report i done).regular

theorem guidIn_report_eq_none {o : ObjectId} (h : i ≠ o.program) :
    guidIn (V.report i) o = none := by
  refine guidIn_eq_none fun o' data hmem heq => h ?_
  rw [← heq]
  exact (((regular_scan i []).events _ hmem).object o' data rfl).1.symm

/-- What is left out of a report makes no objects. -/
theorem guidIn_reportAfter (done : List ProgramId) (i : ProgramId) (o : ObjectId) :
    guidIn (V.reportAfter done i) o = guidIn (V.report i) o := by
  unfold reportAfter
  generalize V.report i = events
  induction events with
  | nil => rfl
  | cons e events ih =>
    by_cases hkeeps : (V.around i done).keeps e = true
    · rw [filter_cons_of_pos hkeeps]
      unfold guidIn at ih ⊢
      rw [findSome?_cons, findSome?_cons, ih]
    · -- only links are left out
      rw [filter_cons_of_neg hkeeps, ih]
      have hnone : e.guidFor? o = none := by
        cases e with
        | object => exact absurd rfl hkeeps
        | _ => rfl
      unfold guidIn
      rw [findSome?_cons, hnone]

/-- Only the report of a program tells the global names of its objects. -/
theorem guidIn_flatMap (done : ProgramId → List ProgramId) (is : List ProgramId) (o : ObjectId) :
    guidIn (is.flatMap fun i => V.reportAfter (done i) i) o =
      if o.program ∈ is then guidIn (V.report o.program) o else none := by
  induction is with
  | nil => rfl
  | cons i is ih =>
    rw [flatMap_cons, guidIn_append, guidIn_reportAfter, ih]
    by_cases hi : i = o.program
    · subst hi
      rw [if_pos mem_cons_self]
      split
      · exact Option.or_self
      · exact Option.or_none
    · rw [guidIn_report_eq_none hi, Option.none_or]
      simp [Ne.symm hi]

theorem Agrees.linksAfter {W : Survey} (h : V.Agrees W) : V.linksAfter = W.linksAfter := by
  have hguid : V.guidOf = W.guidOf := by
    funext o
    unfold guidOf
    rw [h.report]
    exact if_congr h.programs.mem_iff rfl rfl
  have hkeeps (i : ProgramId) (done : List ProgramId) :
      (V.around i done).keeps = (W.around i done).keeps := by
    funext e
    dsimp only [Surroundings.keeps, around]
  funext done i
  unfold Survey.linksAfter reportAfter
  rw [hguid, h.report, hkeeps]

/-! ### What a link tells -/

theorem file_of_mem_report {callee : Option ObjectId}
    (h : Event.link kind caller callee mark ∈ V.report i) : mark.file = some i.path :=
  ((regular_scan i []).events _ h).file kind caller callee mark rfl

theorem file_of_mem_linksAfter {l : Link} (h : l ∈ V.linksAfter done i) :
    l.mark.file = some i.path := by
  obtain ⟨e, he, hl⟩ := mem_filterMap.mp h
  have hreport : e ∈ V.report i := (mem_filter.mp he).1
  cases e with
  | link =>
    rw [← Option.some.inj hl]
    exact file_of_mem_report hreport
  | _ => exact nomatch hl

/-- A link to another program leads to the program itself, under its own global name. -/
theorem callee_of_mem_report (h : Event.link kind caller (some callee) mark ∈ V.report i)
    (hne : callee.program ≠ i) :
    callee.program ∈ V.programs ∧ V.guidOf callee = some callee.program.guid := by
  have hobject := ((regular_scan i []).events _ h).callee kind caller callee mark rfl hne
  have hmem : callee.program ∈ V.programs := (V.program_of_objects hobject).2
  refine ⟨hmem, ?_⟩
  have hstored : (V.settled callee.program).objectOf 0 = some callee := by
    change (if callee.program ∈ V.programs then (V.settled callee.program).objectOf 0 else none) =
      _ at hobject
    rwa [if_pos hmem] at hobject
  -- its scan ends with the same program, whatever is known to it
  have hsettled : (V.scan V.objects callee.program).program = V.settled callee.program :=
    (V.beside_report callee.program []).program.symm.trans (V.scan_program callee.program [])
  unfold guidOf
  rw [if_pos hmem]
  exact (regular_scan callee.program []).guid callee (hsettled ▸ hstored)

/-! ### Links that are left out -/

/-- The report of a program depends on which of those that it calls have been scanned before. -/
theorem reportAfter_congr
    (h : ∀ kind caller callee mark, Event.link kind caller (some callee) mark ∈ V.report i →
      callee.program ≠ i → (callee.program ∈ done ↔ callee.program ∈ done')) :
    V.reportAfter done i = V.reportAfter done' i := by
  refine filter_congr fun e he => ?_
  unfold Surroundings.keeps
  split
  next kind caller callee mark =>
    by_cases hown : callee.program = i
    · simp [around, hown]
    · simp [around, hown, h kind caller callee mark he hown]
  · rfl

theorem count_filterMap_eq {α β : Type} [DecidableEq β] (f : α → Option β) (b : β) (as : List α) :
    (as.filterMap f).count b = (as.filter fun a => f a = some b).length := by
  induction as with
  | nil => rfl
  | cons a as ih =>
    cases hf : f a with
    | none => simp [hf, ih]
    | some c =>
      by_cases hcb : c = b <;> simp [hf, hcb, ih]

/-- Links are counted among those of the report that look alike. -/
theorem count_linksAfter (done : List ProgramId) (i : ProgramId) (l : Link) :
    (V.linksAfter done i).count l =
      (((V.report i).filter fun e => e.link? V.guidOf = some l).filter
        (V.around i done).keeps).length := by
  unfold linksAfter reportAfter
  rw [count_filterMap_eq, filter_filter, filter_filter]
  congr 2
  funext e
  exact Bool.and_comm _ _

/-- Links that look alike to the host lead to the same program, unless one of them stays within the
program that has it. -/
theorem program_eq_of_guid_eq (hcopy : ∀ j ∈ V.programs, j = ⟨j.path, 0⟩) {kind' : LinkKind}
    {caller' : Option ObjectId} {callee' : ObjectId} {mark' : Bookmark}
    (h : Event.link kind caller (some callee) mark ∈ V.report i) (hne : callee.program ≠ i)
    (h' : Event.link kind' caller' (some callee') mark' ∈ V.report i) (hne' : callee'.program ≠ i)
    (hguid : V.guidOf callee' = V.guidOf callee) : callee'.program = callee.program := by
  obtain ⟨hmem, hown⟩ := callee_of_mem_report h hne
  obtain ⟨hmem', hown'⟩ := callee_of_mem_report h' hne'
  rw [hown, hown', Option.some_inj] at hguid
  rw [hcopy _ hmem, hcopy _ hmem', ProgramId.path_eq_of_guid_eq hguid]

/-- **A missing link is not made up for.** What is known without a program that is called falls
short of what is known with it, by the link to that program. -/
theorem count_linksAfter_lt (h : Event.link kind caller (some callee) mark ∈ V.report i)
    (hne : callee.program ≠ i) (hcopy : ∀ j ∈ V.programs, j = ⟨j.path, 0⟩)
    (hdone : callee.program ∈ done) (hdone' : callee.program ∉ done') :
    (V.linksAfter done' i).count ⟨kind, caller.bind V.guidOf, V.guidOf callee, mark⟩ <
      (V.linksAfter done i).count ⟨kind, caller.bind V.guidOf, V.guidOf callee, mark⟩ := by
  rw [count_linksAfter, count_linksAfter]
  -- with the program known, nothing that looks like this link is left out
  have hall : ∀ e ∈ (V.report i).filter fun e =>
      e.link? V.guidOf = some ⟨kind, caller.bind V.guidOf, V.guidOf callee, mark⟩,
        (V.around i done).keeps e = true := by
    intro e he
    obtain ⟨hreport, hlink⟩ := mem_filter.mp he
    rw [decide_eq_true_eq] at hlink
    cases e with
    | link kind' caller' callee' =>
      cases callee' with
      | none => rfl
      | some o =>
        by_cases hown : o.program = i
        · simp [Surroundings.keeps, around, hown]
        · have hguid : V.guidOf o = V.guidOf callee := congrArg Link.callee (Option.some.inj hlink)
          have hprogram := program_eq_of_guid_eq hcopy h hne hreport hown hguid
          simp [Surroundings.keeps, around, hprogram, hdone]
    | _ => rfl
  rw [filter_eq_self.mpr hall, length_filter_lt_length_iff_exists]
  -- without it, the link itself is
  refine ⟨_, mem_filter.mpr ⟨h, decide_eq_true rfl⟩, ?_⟩
  simp [Surroundings.keeps, around, hne, hdone']

end Survey

namespace Analysis

variable {active : Bool} {extensions : List String} {sources sources' : SourceFiles}

/-- **The links of an analysis** are those of each program, as far as they lead to programs before
it. -/
theorem links_ofFiles (hnodup : (sources.map (·.1)).Nodup) :
    (ofFiles active extensions sources).project.links =
      (survey active extensions sources).programs.flatMap fun i =>
        (survey active extensions sources).linksAfter
          (earlier (survey active extensions sources).programs i) i := by
  obtain ⟨logs, hlogs, hevents⟩ := @events_ofFiles active extensions sources hnodup
  have hguid : guidIn (ofFiles active extensions sources).project.events.toList =
      (survey active extensions sources).guidOf := by
    funext o
    have hnone : guidIn logs o = none :=
      guidIn_eq_none fun o' data hmem => absurd (hlogs _ hmem) Bool.false_ne_true
    rw [hevents, guidIn_append, hnone, Option.none_or]
    exact guidIn_flatMap _ _ o
  have hsilent : logs.filterMap (Event.link? (survey active extensions sources).guidOf) = [] := by
    refine filterMap_eq_nil_iff.mpr fun e he => ?_
    cases e with
    | link => exact absurd (hlogs _ he) Bool.false_ne_true
    | _ => rfl
  unfold Project.links
  rw [hguid, hevents, filterMap_append, hsilent, nil_append, filterMap_flatMap]
  rfl

/-! ### Programs before others -/

theorem eq_of_mem_programs (h : i ∈ (survey active extensions sources).programs) :
    i = ⟨i.path, 0⟩ := by
  rw [programs_survey, programsAt] at h
  obtain ⟨path, -, rfl⟩ := mem_map.mp h
  rfl

theorem path_mem_of_mem_programs (h : i ∈ (survey active extensions sources).programs) :
    i.path ∈ sources.map (·.1) := by
  rw [programs_survey, programsAt] at h
  obtain ⟨path, hpath, rfl⟩ := mem_map.mp h
  exact (mem_filter.mp hpath).1

theorem earlier_map {α β : Type} [DecidableEq α] [DecidableEq β] {f : α → β}
    (hf : Function.Injective f) (as : List α) (a : α) :
    earlier (as.map f) (f a) = (earlier as a).map f := by
  unfold earlier
  rw [takeWhile_map]
  congr 2
  funext b
  simp [hf.eq_iff]

theorem earlier_filter {α : Type} [DecidableEq α] {p : α → Bool} {a : α} (ha : p a = true)
    (as : List α) : earlier (as.filter p) a = (earlier as a).filter p := by
  unfold earlier
  induction as with
  | nil => rfl
  | cons b bs ih =>
    by_cases hb : p b = true
    · by_cases hba : b = a
      · simp [hba, ha]
      · simpa [hb, hba] using ih
    · have hba : b ≠ a := fun h => hb (h ▸ ha)
      simpa [hb, hba] using ih

/-- Programs stand in the order of their files. -/
theorem mem_earlier_programs {j : ProgramId} (hi : i ∈ (survey active extensions sources).programs)
    (hj : j ∈ (survey active extensions sources).programs) :
    j ∈ earlier (survey active extensions sources).programs i ↔
      j.path ∈ earlier (sources.map (·.1)) i.path := by
  have hinj : Function.Injective fun path => (⟨path, 0⟩ : ProgramId) :=
    fun p q h => congrArg ProgramId.path h
  rw [programs_survey, programsAt] at hi hj ⊢
  obtain ⟨a, ha, rfl⟩ := mem_map.mp hi
  obtain ⟨b, hb, rfl⟩ := mem_map.mp hj
  rw [earlier_map hinj, earlier_filter (mem_filter.mp ha).2, mem_map_of_injective hinj, mem_filter]
  exact and_iff_left (mem_filter.mp hb).2

/-! ### Calls -/

/-- The same files, with the one at a path behind all others. -/
def putLast (sources : SourceFiles) (path : String) : SourceFiles :=
  sources.filter (·.1 ≠ path) ++ sources.filter (·.1 = path)

theorem putLast_perm (sources : SourceFiles) (path : String) :
    sources.Perm (putLast sources path) := by
  have hperm := filter_append_perm (fun f : String × SourceFile => decide (f.1 ≠ path)) sources
  simpa [putLast] using hperm.symm

/-- Whatever else there is comes before the file that is put last. -/
theorem mem_earlier_putLast {path other : String} (hother : other ∈ sources.map (·.1))
    (hne : other ≠ path) : other ∈ earlier ((putLast sources path).map (·.1)) path := by
  unfold earlier putLast
  rw [map_append, takeWhile_append_of_pos]
  · obtain ⟨f, hf, rfl⟩ := mem_map.mp hother
    exact mem_append_left _ (mem_map_of_mem (mem_filter.mpr ⟨hf, decide_eq_true hne⟩))
  · intro p hp
    obtain ⟨f, hf, rfl⟩ := mem_map.mp hp
    exact (mem_filter.mp hf).2

/-- There is a link from the program at one path to the program at another one, provided that all
other programs are known when the first one is scanned, as they are if its file is taken last. -/
def Calls (active : Bool) (extensions : List String) (sources : SourceFiles)
    (caller callee : String) : Prop :=
  caller ≠ callee ∧ ∃ kind object target mark,
    Event.link kind object (some target) mark ∈
        (ofFiles active extensions (putLast sources caller)).project.events.toList ∧
      mark.file = some caller ∧ target.program.path = callee

/-- A program calls another one if the link is among all that can be reported for it. -/
theorem calls_iff (hnames : DistinctNames sources) {caller callee : String} :
    Calls active extensions sources caller callee ↔
      caller ≠ callee ∧ ⟨caller, 0⟩ ∈ (survey active extensions sources).programs ∧
        ∃ kind object target mark, Event.link kind object (some target) mark ∈
          (survey active extensions sources).report ⟨caller, 0⟩ ∧ target.program.path = callee := by
  have hperm := putLast_perm sources caller
  have hagrees := @agrees_of_perm active extensions sources (putLast sources caller) hnames hperm
  obtain ⟨logs, hlogs, hevents⟩ :=
    @events_ofFiles active extensions (putLast sources caller) (hnames.perm hperm).paths
  unfold Calls
  rw [hevents, hagrees.report]
  refine and_congr_right fun hne => ⟨?_, ?_⟩
  · rintro ⟨kind, object, target, mark, hmem, hfile, hcallee⟩
    rcases mem_append.mp hmem with hmem | hmem
    · exact absurd (hlogs _ hmem) Bool.false_ne_true
    · obtain ⟨i, hi, he⟩ := mem_flatMap.mp hmem
      have hreport := (mem_filter.mp he).1
      -- the place of the link tells the program that it was reported for
      rw [file_of_mem_report hreport, Option.some_inj] at hfile
      have hi' : i = ⟨caller, 0⟩ := hfile ▸ eq_of_mem_programs hi
      rw [hi'] at hi hreport
      exact ⟨hagrees.programs.mem_iff.mpr hi, kind, object, target, mark, hreport, hcallee⟩
  · rintro ⟨hcaller, kind, object, target, mark, hreport, hcallee⟩
    refine ⟨kind, object, target, mark, ?_, file_of_mem_report hreport, hcallee⟩
    have hcaller' := hagrees.programs.mem_iff.mp hcaller
    have hother : target.program ≠ ⟨caller, 0⟩ :=
      fun heq => hne (hcallee ▸ (congrArg ProgramId.path heq).symm)
    have htarget := (callee_of_mem_report hreport hother).1
    refine mem_append_right _ (mem_flatMap.mpr ⟨_, hcaller', mem_filter.mpr ⟨hreport, ?_⟩⟩)
    -- with its caller put last, the called program has been scanned before
    have hbefore : target.program ∈ earlier
        (survey active extensions (putLast sources caller)).programs ⟨caller, 0⟩ := by
      rw [mem_earlier_programs hcaller' htarget]
      refine mem_earlier_putLast ?_ fun heq => hne (hcallee ▸ heq.symm)
      exact (hperm.map _).mem_iff.mpr (path_mem_of_mem_programs htarget)
    simp [Surroundings.keeps, around, hbefore]

theorem calls_of_perm (hnames : DistinctNames sources) (hperm : sources.Perm sources')
    {caller callee : String} (h : Calls active extensions sources caller callee) :
    Calls active extensions sources' caller callee := by
  have hagrees := @agrees_of_perm active extensions sources sources' hnames hperm
  rw [calls_iff hnames, hagrees.programs.mem_iff, hagrees.report] at h
  exact (calls_iff (hnames.perm hperm)).mpr h

/-! ### The order of callers and called programs -/

/-- What is in one of some lists only is counted there. -/
theorem count_flatMap_of_unique {α β : Type} [BEq β] [LawfulBEq β] {g : α → List β} {as : List α}
    (hnodup : as.Nodup) {a : α} (ha : a ∈ as) {b : β} (h : ∀ a' ∈ as, a' ≠ a → b ∉ g a') :
    (as.flatMap g).count b = (g a).count b := by
  obtain ⟨before, after, rfl⟩ := append_of_mem ha
  obtain ⟨-, hafter, hbefore⟩ := nodup_append.mp hnodup
  have hzero (as : List α) (has : ∀ a' ∈ as, a' ∈ before ++ a :: after ∧ a' ≠ a) :
      (as.flatMap g).count b = 0 := by
    refine count_eq_zero.mpr fun hmem => ?_
    obtain ⟨a', ha', hb⟩ := mem_flatMap.mp hmem
    exact h a' (has a' ha').1 (has a' ha').2 hb
  rw [flatMap_append, flatMap_cons, count_append, count_append, hzero before, hzero after,
    Nat.zero_add, Nat.add_zero]
  · intro a' ha'
    refine ⟨mem_append_right _ (mem_cons_of_mem a ha'), ?_⟩
    rintro rfl
    exact (nodup_cons.mp hafter).1 ha'
  · exact fun a' ha' => ⟨mem_append_left _ ha', hbefore a' ha' a mem_cons_self⟩

/-- A link is reported as often as for the program that it was found in. -/
theorem count_links (hnames : DistinctNames sources)
    (hi : i ∈ (survey active extensions sources).programs) {l : Link}
    (hl : l.mark.file = some i.path) : (ofFiles active extensions sources).project.links.count l =
      ((survey active extensions sources).linksAfter
        (earlier (survey active extensions sources).programs i) i).count l := by
  rw [links_ofFiles hnames.paths]
  refine count_flatMap_of_unique (nodup_programs_survey hnames.paths) hi fun j hj hne hmem => hne ?_
  -- the place of a link names the file, and there is one program for each file
  have hpath := hl.symm.trans (file_of_mem_linksAfter hmem)
  rw [eq_of_mem_programs hj, eq_of_mem_programs hi, Option.some.inj hpath]

/-- A called program that comes before its caller does so in every order with the same links. -/
theorem mem_earlier_of_links_perm (hnames : DistinctNames sources) (hperm : sources.Perm sources')
    (hlinks : (ofFiles active extensions sources).project.links.Perm
      (ofFiles active extensions sources').project.links)
    {caller callee : String} (hcalls : Calls active extensions sources caller callee)
    (hbefore : callee ∈ earlier (sources.map (·.1)) caller) :
    callee ∈ earlier (sources'.map (·.1)) caller := by
  have hagrees := @agrees_of_perm active extensions sources sources' hnames hperm
  obtain ⟨hne, hcaller, kind, object, target, mark, hreport, rfl⟩ := (calls_iff hnames).mp hcalls
  have hother : target.program ≠ ⟨caller, 0⟩ := fun heq => hne (congrArg ProgramId.path heq).symm
  have htarget := (callee_of_mem_report hreport hother).1
  have hcaller' := hagrees.programs.mem_iff.mp hcaller
  have htarget' := hagrees.programs.mem_iff.mp htarget
  have hfile := file_of_mem_report hreport
  by_contra hnot
  -- otherwise the link would be missing in the other order
  have hlt := count_linksAfter_lt hreport hother (fun j hj => eq_of_mem_programs hj)
    ((mem_earlier_programs hcaller htarget).mpr hbefore)
    (mt (mem_earlier_programs hcaller' htarget').mp hnot)
  rw [← count_links hnames hcaller hfile, hagrees.linksAfter,
    ← count_links (hnames.perm hperm) hcaller' hfile, hlinks.count_eq] at hlt
  exact Nat.lt_irrefl _ hlt

/-- **When the order of the files does not matter.** Two orders of the same files, no two of which
have programs of one name, lead to the same links if and only if every called program comes before
its caller in both orders or in neither. -/
theorem links_perm_iff (hnames : DistinctNames sources) (hperm : sources.Perm sources') :
    (ofFiles active extensions sources).project.links.Perm
      (ofFiles active extensions sources').project.links ↔
      ∀ caller callee, Calls active extensions sources caller callee →
        (callee ∈ earlier (sources.map (·.1)) caller ↔
          callee ∈ earlier (sources'.map (·.1)) caller) := by
  have hagrees := @agrees_of_perm active extensions sources sources' hnames hperm
  constructor
  · intro hlinks caller callee hcalls
    exact ⟨mem_earlier_of_links_perm hnames hperm hlinks hcalls,
      mem_earlier_of_links_perm (hnames.perm hperm) hperm.symm hlinks.symm
        (calls_of_perm hnames hperm hcalls)⟩
  · intro horder
    rw [links_ofFiles hnames.paths, links_ofFiles (hnames.perm hperm).paths, ← hagrees.linksAfter]
    -- what differs between the programs before one and those before it in the other order is
    -- nothing that it calls
    have hsame : ∀ i ∈ (survey active extensions sources).programs,
        (survey active extensions sources).linksAfter
          (earlier (survey active extensions sources).programs i) i =
          (survey active extensions sources).linksAfter
            (earlier (survey active extensions sources').programs i) i := by
      intro i hi
      unfold linksAfter
      rw [reportAfter_congr]
      intro kind object target mark hreport hother
      have htarget := (callee_of_mem_report hreport hother).1
      have hpath : i.path ≠ target.program.path := fun heq =>
        hother (by rw [eq_of_mem_programs htarget, eq_of_mem_programs hi, heq])
      have hcalls : Calls active extensions sources i.path target.program.path := by
        rw [calls_iff hnames, ← eq_of_mem_programs hi]
        exact ⟨hpath, hi, kind, object, target, mark, hreport, rfl⟩
      rw [mem_earlier_programs hi htarget, horder _ _ hcalls,
        mem_earlier_programs (hagrees.programs.mem_iff.mp hi) (hagrees.programs.mem_iff.mp htarget)]
    rw [flatMap_congr hsame]
    exact hagrees.programs.flatMap_right _

/-- A program that calls the one of `calledSource`. -/
def callingSource : String × SourceFile :=
  ("/s/A.ezt", { text := some "JOB INPUT NULL\n  CALL B\n" })

/-- A program that calls nothing. -/
def calledSource : String × SourceFile :=
  ("/s/B.ezt", { text := some "JOB INPUT NULL\n" })

theorem links_perm_iff_callingSource :
    DistinctNames [callingSource, calledSource] ∧
      [callingSource, calledSource].Perm [calledSource, callingSource] ∧
      ((ofFiles true [".esy", ".mac", ".ezt"] [callingSource, calledSource]).project.links.Perm
          (ofFiles true [".esy", ".mac", ".ezt"] [calledSource, callingSource]).project.links ↔
        ∀ caller callee, Calls true [".esy", ".mac", ".ezt"]
          [callingSource, calledSource] caller callee →
          (callee ∈ earlier ["/s/A.ezt", "/s/B.ezt"] caller ↔
            callee ∈ earlier ["/s/B.ezt", "/s/A.ezt"] caller)) := by
  have hnames : DistinctNames [callingSource, calledSource] := by decide +kernel
  have hperm : [callingSource, calledSource].Perm [calledSource, callingSource] := Perm.swap _ _ _
  exact ⟨hnames, hperm, links_perm_iff hnames hperm⟩

/-- The order of the files matters: where the caller comes first, its call is not linked. -/
theorem not_links_perm_of_call :
    DistinctNames [callingSource, calledSource] ∧
      [callingSource, calledSource].Perm [calledSource, callingSource] ∧
      ¬ (ofFiles true [".esy", ".mac", ".ezt"] [callingSource, calledSource]).project.links.Perm
        (ofFiles true [".esy", ".mac", ".ezt"] [calledSource, callingSource]).project.links := by
  have hnone : (ofFiles true [".esy", ".mac", ".ezt"] [callingSource, calledSource]).project.links =
      [] := by
    decide +kernel
  have hone : (ofFiles true [".esy", ".mac", ".ezt"]
      [calledSource, callingSource]).project.links.length = 1 := by
    decide +kernel
  refine ⟨by decide +kernel, Perm.swap _ _ _, fun hlinks => ?_⟩
  have hlength := hlinks.length_eq
  rw [hnone, hone] at hlength
  exact nomatch hlength

end Analysis

end EztScan
