import EztScan.Proofs.Reporting

/-!
# The run of an analysis

An analysis takes files and then scans the programs of the library one after the other. What the
scan of a program comes to is the same whenever it is scanned, links to other programs apart:
`Survey.settled` is the program afterwards, and `Survey.report` holds all that can be reported for
it. In a run, the report of a program is cut down to what is known by then, which is what was stored
for the programs **before** it in the library.

The scans are followed by `Survey.Midway`: the programs scanned so far are settled, and the others
are as they were when their files were taken. One scan leads from there to the next such state
(`Midway.scanEntry`), and so does any number of them (`Midway.scanEntries`).
-/

namespace EztScan

open List Analysis ProgramId

variable {p : Project} {is : List ProgramId} {a a₀ : Analysis}
variable {i : ProgramId} {files : SourceFiles} {V : Survey}

/-- What comes before an element of a list. -/
def earlier {α : Type} [DecidableEq α] (as : List α) (a : α) : List α :=
  as.takeWhile (· ≠ a)

theorem earlier_append_cons {α : Type} [DecidableEq α] {as bs : List α} {a : α} (h : a ∉ as) :
    earlier (as ++ a :: bs) a = as := by
  unfold earlier
  rw [takeWhile_append_of_pos, takeWhile_cons_of_neg, append_nil]
  · simp
  · intro b hb
    rw [decide_eq_true_eq]
    rintro rfl
    exact h hb

/-- A program before its scan. -/
def ProgramId.start (i : ProgramId) : Program :=
  .unread i (.file i.path) none

/-- The symbol of a program before its scan. -/
def ProgramId.self (i : ProgramId) : Symbol :=
  { kind := .program, name := Program.nameAt i.path, origin := .file i.path }

theorem ProgramId.isRoot_self (i : ProgramId) : i.self.IsRoot i := by
  constructor <;> dsimp only [self]

theorem ProgramId.regular_start (i : ProgramId) : i.start.Regular := by
  have hsymbols : i.start.symbols = [i.self] := rfl
  refine ⟨⟨i.self, ?_, i.isRoot_self⟩, fun s hs => ?_, forall_mem_nil _⟩
  · rw [hsymbols]
    exact getElem?_cons_zero
  · rw [hsymbols] at hs
    rw [mem_singleton.mp hs]
    exact ⟨fun o ho => (nomatch ho), fun _ => rfl⟩

theorem ProgramId.objectOf_start (i : ProgramId) (id : Nat) : i.start.objectOf id = none := by
  cases id with
  | zero | succ => rfl

/-- Before a scan at most the log has been told of the program. -/
theorem Surroundings.hushed_start (X : Surroundings) {events : Array Event}
    (hlogs : ∀ e ∈ events.toList, e.isLog = true) :
    X.Hushed ⟨X.own.start, events⟩ ⟨X.own.start, events⟩ := by
  refine ⟨⟨⟨rfl, X.own.regular_start, fun e he => proper_of_isLog (hlogs e he) _, fun o ho => ?_⟩,
    rfl, (filter_eq_self.mpr fun e he => keeps_of_isLog (hlogs e he)).symm⟩, hlogs⟩
  rw [X.own.objectOf_start] at ho
  exact nomatch ho

theorem Surroundings.abridged_start (X : Surroundings) :
    X.Abridged ⟨X.own.start, #[]⟩ ⟨X.own.start, #[]⟩ :=
  (X.hushed_start (forall_mem_nil _)).toAbridged

namespace Scan

/-- From `s` to `t`, events of one sort were reported, and nothing else. -/
def Adds (P : Event → Bool) (s t : Scan) : Prop :=
  ∃ new : List Event, t.events.toList = s.events.toList ++ new ∧ ∀ e ∈ new, P e = true

variable {P : Event → Bool} {e : Event} {s t : Scan}

theorem Adds.refl (P : Event → Bool) (s : Scan) : Adds P s s :=
  ⟨[], (append_nil _).symm, forall_mem_nil _⟩

theorem Adds.trans {u : Scan} (hst : Adds P s t) (htu : Adds P t u) : Adds P s u := by
  obtain ⟨as, ht, has⟩ := hst
  obtain ⟨bs, hu, hbs⟩ := htu
  exact ⟨as ++ bs, by rw [hu, ht, append_assoc], forall_mem_append.mpr ⟨has, hbs⟩⟩

theorem Adds.mono {Q : Event → Bool} (hPQ : ∀ e, P e = true → Q e = true) (h : Adds P s t) :
    Adds Q s t := by
  obtain ⟨new, ht, hnew⟩ := h
  exact ⟨new, ht, fun e he => hPQ e (hnew e he)⟩

theorem adds_push (he : P e = true) (s : Scan) (p : Program) : Adds P s ⟨p, s.events.push e⟩ :=
  ⟨[e], Array.toList_push, fun e' he' => by rw [mem_singleton.mp he']; exact he⟩

/-- From `s` to `t`, the log was told something, and nothing else was reported. -/
abbrev OnlyLogs : Scan → Scan → Prop :=
  Adds Event.isLog

end Scan

/-- The log is told of a scan before it begins. A scan that stops with a fault is logged too, so to
those who do the scan nothing stops. -/
theorem Scan.runOn_examine (files : SourceFiles) (library : Option Library) (known : Objects)
    (s : Scan) :
    ∃ t, (Scan.examine files library known).runOn s = (.ok (), t) ∧
      Scan.OnlyLogs ((Scan.examineAll files library known).runOn
        ⟨s.program, s.events.push (.log .info ("Scanning " ++ s.program.path) none)⟩).2 t := by
  have hprogram : Scan.program?.runOn s = (.ok s.program, s) := rfl
  have hlog (level : Level) (text : String) (cause : Option Fault) (s : Scan) :
      (Scan.log level text cause).runOn s =
        (.ok (), ⟨s.program, s.events.push (.log level text cause)⟩) := rfl
  unfold Scan.examine
  rw [Work.runOn_bind, hprogram]
  dsimp only
  rw [Work.runOn_bind, hlog]
  dsimp only
  rw [Work.runOn_bind, Work.runOn_attempt]
  dsimp only
  split
  · exact ⟨_, rfl, Scan.Adds.refl _ _⟩
  · exact ⟨_, hlog _ _ _ _, Scan.adds_push rfl _ _⟩

/-- The program that is known by `i`, where there is one program for each of some. -/
theorem find?_map_program {f : ProgramId → Program} (hf : ∀ j, (f j).id = j) (is : List ProgramId)
    (i : ProgramId) : (is.map f).find? (·.id == i) = if i ∈ is then some (f i) else none := by
  induction is with
  | nil => rfl
  | cons j js ih =>
    rw [map_cons, List.find?_cons, hf, ih]
    by_cases hji : j = i
    · simp [hji]
    · have hbeq : (j == i) = false := by simp [hji]
      simp [hbeq, Ne.symm hji]

theorem Project.runOn_scan {α : Type} {prog : Program} (h : p.program i = .ok prog)
    (w : Work Scan α) :
    (Project.scan i w).runOn p = ((w.runOn ⟨prog, #[]⟩).1, p.absorb i (w.runOn ⟨prog, #[]⟩).2) := by
  unfold Project.scan
  rw [Work.runOn_bind, Work.runOn_get]
  dsimp only
  rw [Work.runOn_bind, Work.runOn_ofExcept, h]
  dsimp only
  rw [Work.runOn_of]

/-! ### What scans come to -/

/-- What all scans of an analysis read. -/
structure Survey where
  files : SourceFiles
  library : Library

/-- What is reported for each of some programs, which are scanned one after the other. -/
def Analysis.recordings : List Entry → Project → List (ProgramId × List Event)
  | [], _ => []
  | e :: es, p =>
    let q := ((scanEntry e).runOn p).2
    (e.program, q.events.toList.drop p.events.size) :: recordings es q

namespace Survey

variable (V : Survey)

/-- The programs of the library, in its order. -/
def programs : List ProgramId :=
  V.library.entries.map (·.program)

/-- The outcome of a scan that knows these objects. -/
def scan (known : Objects) (i : ProgramId) : Scan :=
  ((Scan.examine V.files (some V.library) known).runOn ⟨i.start, #[]⟩).2

/-- A program after its scan. -/
def settled (i : ProgramId) : Program :=
  (V.scan (fun _ => none) i).program

/-- The two scans of one program, kept side by side from beginning to end. -/
theorem beside_scan (X : Surroundings) : X.Abridged (V.scan X.all X.own) (V.scan X.known X.own) :=
  (X.beside_examine V.files (some V.library) _ _ X.abridged_start).2.2

theorem settled_id (i : ProgramId) : (V.settled i).id = i :=
  (V.beside_scan ⟨i, fun _ => none, fun _ _ h => (nomatch h), []⟩).regular.id

theorem settled_regular (i : ProgramId) : (V.settled i).Regular :=
  (V.beside_scan ⟨i, fun _ => none, fun _ _ h => (nomatch h), []⟩).regular.program

/-- The objects that there are in the end. -/
def objects : Objects := fun ref =>
  if ref.program ∈ V.programs then (V.settled ref.program).objectOf ref.symbol else none

theorem program_of_objects {ref : SymbolRef} {o : ObjectId} (h : V.objects ref = some o) :
    o.program = ref.program ∧ ref.program ∈ V.programs := by
  unfold objects at h
  split at h
  next hmem =>
    have hprogram := (V.settled_regular ref.program).program_of_objectOf h
    rw [V.settled_id] at hprogram
    exact ⟨hprogram, hmem⟩
  · exact nomatch h

/-- A program among those of the library, some of which have been scanned. -/
def around (i : ProgramId) (done : List ProgramId) : Surroundings where
  own := i
  all := V.objects
  sound := fun _ _ h => (V.program_of_objects h).1
  done

/-- All that can be reported for a program. -/
def report (i : ProgramId) : List Event :=
  (V.scan V.objects i).events.toList

theorem beside_report (i : ProgramId) (done : List ProgramId) :
    (V.around i done).Abridged (V.scan V.objects i) (V.scan (V.around i done).known i) :=
  V.beside_scan (V.around i done)

/-- Whatever is known, a scan leads to the same program. -/
theorem scan_program (i : ProgramId) (done : List ProgramId) :
    (V.scan (V.around i done).known i).program = V.settled i := by
  have hnone : (V.around i []).known = fun _ => none := by
    funext ref
    exact if_neg not_mem_nil
  have hempty := (V.beside_report i []).program
  rw [hnone] at hempty
  exact (V.beside_report i done).program.trans hempty.symm

theorem scan_events (i : ProgramId) (done : List ProgramId) :
    (V.scan (V.around i done).known i).events.toList =
      (V.report i).filter (V.around i done).keeps :=
  (V.beside_report i done).events

/-! ### One scan after the other -/

/-- A program after some scans. -/
def status (done : List ProgramId) (i : ProgramId) : Program :=
  if i ∈ done then V.settled i else i.start

theorem status_id (done : List ProgramId) (i : ProgramId) : (V.status done i).id = i := by
  unfold status
  split
  · exact V.settled_id i
  · rfl

/-- The project after the scans of some programs. -/
structure Midway (done : List ProgramId) (p : Project) : Prop where
  programs : p.programs = V.programs.map (V.status done)
  library : p.library = V.library
  files : p.files = V.files

variable {V} {done : List ProgramId} {p : Project}

theorem Midway.program? (h : V.Midway done p) (i : ProgramId) :
    p.program? i = if i ∈ V.programs then some (V.status done i) else none := by
  unfold Project.program?
  rw [h.programs, find?_map_program (V.status_id done)]

/-- What a scan knows: the objects of the programs that have been scanned. -/
theorem Midway.objectOf (h : V.Midway done p) (hsub : done ⊆ V.programs) (i : ProgramId) :
    p.objectOf = (V.around i done).known := by
  funext ref
  unfold Project.objectOf Surroundings.known
  rw [h.program? ref.program]
  by_cases hdone : ref.program ∈ done
  · simp [around, objects, status, hdone, hsub hdone]
  · -- before its scan a program has no objects
    by_cases hmem : ref.program ∈ V.programs
    · simp [around, status, hdone, hmem, objectOf_start]
    · simp [around, hdone, hmem]

theorem Midway.absorb (h : V.Midway done p) {s : Scan} (hs : s.program = V.settled i) :
    V.Midway (done ++ [i]) (p.absorb i s) := by
  refine ⟨?_, h.library, h.files⟩
  unfold Project.absorb
  rw [h.programs, map_map, hs]
  refine map_congr_left fun j _ => ?_
  rw [Function.comp_apply, V.status_id]
  unfold status
  -- of all programs, only the one that was scanned has changed
  by_cases hji : j = i
  · simp [hji]
  · simp [hji]

/-- **One scan.** It settles its program, and reports for it what is known by then. -/
theorem Midway.scanEntry (h : V.Midway done p) (hsub : done ⊆ V.programs) {e : Entry}
    (he : e ∈ V.library.entries) (hnew : e.program ∉ done) :
    ∃ q, (scanEntry e).runOn p = (.ok (), q) ∧ V.Midway (done ++ [e.program]) q ∧
      q.events.toList =
        p.events.toList ++ (V.report e.program).filter (V.around e.program done).keeps := by
  have hmem : e.program ∈ V.programs := mem_map_of_mem he
  have hprogram : p.program e.program = .ok e.program.start := by
    unfold Project.program
    rw [h.program? e.program, if_pos hmem]
    simp [status, hnew]
  -- it finds itself in the library, so that it is given to its scan
  have hlibrary : p.libraryFor e.program = some V.library := by
    unfold Project.libraryFor
    rw [h.library, if_pos]
    exact any_eq_true.mpr ⟨e, he, beq_self_eq_true _⟩
  have hrun : (Analysis.scanEntry e).runOn p =
      (((Scan.examine V.files (some V.library) (V.around e.program done).known).runOn
        ⟨e.program.start, #[]⟩).1,
        p.absorb e.program (V.scan (V.around e.program done).known e.program)) := by
    unfold Analysis.scanEntry
    rw [Work.runOn_bind, Work.runOn_get]
    dsimp only
    rw [Project.runOn_scan hprogram, h.files, hlibrary, h.objectOf hsub e.program]
    rfl
  refine ⟨_, ?_, h.absorb (V.scan_program e.program done), ?_⟩
  · obtain ⟨t, hexamine, -⟩ := Scan.runOn_examine V.files (some V.library)
      (V.around e.program done).known ⟨e.program.start, #[]⟩
    rw [hrun, hexamine]
  · rw [← V.scan_events e.program done]
    exact Array.toList_append

/-- **The scans of a library.** Each program is reported with what is known of the programs before
it. -/
theorem Midway.scanEntries :
    ∀ {es : List Entry} {done : List ProgramId} {p : Project}, V.Midway done p →
    done ⊆ V.programs → es ⊆ V.library.entries → (done ++ es.map (·.program)).Nodup →
    ∃ q, (es.forM Analysis.scanEntry).runOn p = (.ok (), q) ∧
      q.events.toList = p.events.toList ++ ((es.map (·.program)).flatMap fun i =>
        (V.report i).filter (V.around i (earlier (done ++ es.map (·.program)) i)).keeps) ∧
      recordings es p = (es.map (·.program)).map fun i =>
        (i, (V.report i).filter (V.around i (earlier (done ++ es.map (·.program)) i)).keeps) := by
  intro es
  -- over the programs to come, with those that have been scanned moving along in `done`
  induction es with
  | nil => exact fun {_ p} _ _ _ _ => ⟨p, rfl, (append_nil _).symm, rfl⟩
  | cons e es ih =>
    intro done p h hsub hes hnodup
    have he : e ∈ V.library.entries := hes mem_cons_self
    rw [map_cons] at hnodup
    have hnew : e.program ∉ done := fun hdone =>
      (nodup_append.mp hnodup).2.2 _ hdone _ mem_cons_self rfl
    -- what is scanned first counts as done for those that follow
    have hassoc : (done ++ [e.program]) ++ es.map (·.program) =
        done ++ e.program :: es.map (·.program) :=
      append_assoc _ _ _
    obtain ⟨q, hrun, hq, hevents⟩ := h.scanEntry hsub he hnew
    have hsub' : done ++ [e.program] ⊆ V.programs :=
      append_subset.mpr ⟨hsub, cons_subset.mpr ⟨mem_map_of_mem he, nil_subset _⟩⟩
    obtain ⟨r, hrest, hall, hrecordings⟩ :=
      ih hq hsub' (fun x hx => hes (mem_cons_of_mem e hx)) (hassoc ▸ hnodup)
    refine ⟨r, ?_, ?_, ?_⟩
    · change (Analysis.scanEntry e >>= fun _ => es.forM Analysis.scanEntry).runOn p = _
      rw [Work.runOn_bind, hrun]
      exact hrest
    · rw [hall, hevents, hassoc, map_cons, flatMap_cons, earlier_append_cons hnew, append_assoc]
    · rw [recordings, hrun]
      rw [hevents, ← Array.length_toList, drop_left, hrecordings, hassoc, map_cons, map_cons,
        earlier_append_cons hnew]

end Survey

/-! ### Taking files -/

/-- A program with another syntax tree. -/
def Program.withTree (p : Program) (tree : SyntaxTree) : Program :=
  p.modifySymbol 0 fun s => { s with tree }

/-- The source of a program: the text given with it, or that of its file. -/
def Program.source? (files : SourceFiles) (p : Program) : Option String :=
  p.text.or (files.file p.path).text

/-- The program after its source has been read, and before anything in it is declared. A source that
cannot be read changes nothing. -/
def Program.refreshed (files : SourceFiles) (p : Program) : Program :=
  match p.source? files with
  | none => p
  | some source =>
    match Scan.treeOf source with
    | .error _ => p
    | .ok tree => { p.withTree tree with resolved := [] }

namespace Scan

open Work

variable {p : Program}

/-- The text of a program is asked for with at most a message to the log. -/
theorem runOn_sourceText (files : SourceFiles) (s : Scan) :
    ∃ events, OnlyLogs s ⟨s.program, events⟩ ∧
      (sourceText files).runOn s = ((s.program.source? files).elim (.error .fileMissing) .ok,
        ⟨s.program, events⟩) := by
  have hprogram : program?.runOn s = (.ok s.program, s) := rfl
  unfold sourceText Program.source?
  rw [runOn_bind, hprogram]
  dsimp only
  cases s.program.text with
  | some => exact ⟨s.events, Adds.refl _ s, rfl⟩
  | none =>
    rw [Option.none_or]
    by_cases henc : (files.file s.program.path).encodingUnknown = true
    · rw [if_pos henc]
      cases (files.file s.program.path).text <;> exact ⟨_, adds_push rfl s _, rfl⟩
    · rw [if_neg henc]
      cases (files.file s.program.path).text <;> exact ⟨s.events, Adds.refl _ s, rfl⟩

/-- Reading the source never stops. -/
theorem runs_refreshTree (files : SourceFiles) (s : Scan) :
    ∃ events, OnlyLogs s ⟨s.program, events⟩ ∧
      Runs (refreshTree files) s () ⟨s.program.refreshed files, events⟩ := by
  obtain ⟨events, hlogs, hsource⟩ := runOn_sourceText files s
  unfold Runs refreshTree Program.refreshed
  rw [runOn_bind, runOn_attempt]
  unfold readTree
  rw [runOn_bind, hsource]
  cases s.program.source? files with
  | none =>
    rw [Option.elim_none]
    exact ⟨_, hlogs.trans (adds_push rfl ⟨s.program, events⟩ _), rfl⟩
  | some source =>
    rw [Option.elim_some]
    dsimp only
    rw [runOn_bind, runOn_ofExcept]
    cases treeOf source with
    | error => exact ⟨_, hlogs.trans (adds_push rfl ⟨s.program, events⟩ _), rfl⟩
    | ok => exact ⟨events, hlogs, rfl⟩

section Single

variable {self : Symbol} (hsymbols : p.symbols = [self]) (htree : self.tree = .absent)

include hsymbols htree

theorem withTree_absent : p.withTree .absent = p := by
  cases p
  cases self
  subst hsymbols htree
  rfl

/-- To forget all trees of a program without members is to forget its own. -/
theorem runOn_clean (hmembers : self.members = []) (tree : SyntaxTree) (events : Array Event) :
    (clean 0).runOn ⟨p.withTree tree, events⟩ = (.ok (), ⟨p, events⟩) := by
  cases p
  cases self
  subst hsymbols hmembers htree
  rfl

end Single

/-- A first look at a source leaves the program as it was. -/
theorem glance_start (files : SourceFiles) (i : ProgramId) :
    ∃ s, (glance files).runOn ⟨i.start, #[]⟩ = (.ok (), s) ∧ s.program = i.start ∧
      ∀ e ∈ s.events.toList, e.isLog = true := by
  have hsymbols : i.start.symbols = [i.self] := rfl
  obtain ⟨events, ⟨logs, hevents, hlogs⟩, hread⟩ := runs_refreshTree files ⟨i.start, #[]⟩
  obtain ⟨tree, htree⟩ : ∃ tree, i.start.refreshed files = i.start.withTree tree := by
    have hsame := (withTree_absent hsymbols rfl).symm
    unfold Program.refreshed
    split
    · exact ⟨.absent, hsame⟩
    · split
      · exact ⟨.absent, hsame⟩
      · exact ⟨_, rfl⟩
  have hevents : events.toList = logs := hevents
  refine ⟨⟨i.start, events⟩, ?_, rfl, hevents ▸ hlogs⟩
  unfold glance
  rw [hread.runOn_bind, htree]
  exact runOn_clean hsymbols rfl rfl tree events

end Scan

/-- The library entry of a program. -/
def ProgramId.entry (i : ProgramId) : Entry :=
  ⟨i, Program.nameAt i.path⟩

/-- A project into which some programs have been taken, and nothing has been scanned. -/
structure Project.Holds (files : SourceFiles) (is : List ProgramId) (p : Project) : Prop where
  programs : p.programs = is.map start
  library : p.library = { entries := is.map ProgramId.entry }
  files : p.files = files
  logs : ∀ e ∈ p.events.toList, e.isLog = true

namespace Analysis

open Work

/-- The programs at one path are numbered. -/
theorem nextId_of_holds (h : p.Holds files is) (path : String) :
    p.nextId path = ⟨path, is.countP (·.path == path)⟩ := by
  unfold Project.nextId
  rw [h.programs, countP_map]
  rfl

/-- A file that is taken puts its program behind the others. -/
theorem holds_takeFile (h : p.Holds files is) (path : String) :
    ∃ q, (takeFile path).runOn p = (.ok (), q) ∧
      q.Holds files (is ++ [⟨path, is.countP (·.path == path)⟩]) := by
  let i : ProgramId := ⟨path, is.countP (·.path == path)⟩
  obtain ⟨s, hglance, hprogram, hlogs⟩ := Scan.glance_start files i
  -- first the program is added, then its entry, and then it is looked at
  let p₁ : Project := p.insert path (.file path) none
  let p₂ : Project := { p₁ with library := p₁.library.insert i.entry }
  have hnext : p.nextId path = i := nextId_of_holds h path
  have hprograms : p₁.programs = (is ++ [i]).map ProgramId.start := by
    rw [map_append, ← h.programs]
    change p.programs ++ [Program.unread (p.nextId path) (.file path) none] = _
    rw [hnext]
    rfl
  have hfind (q : Project) (hq : q.programs = p₁.programs) : q.program i = .ok i.start := by
    unfold Project.program Project.program?
    rw [hq, hprograms, find?_map_program fun _ => rfl]
    simp
  have hentry : p₁.entry i = .ok i.entry := by
    unfold Project.entry
    rw [hfind p₁ rfl]
    rfl
  have henlist : (Project.enlist i).runOn p₁ = (.ok (), p₂) := by
    unfold Project.enlist
    rw [runOn_bind, runOn_get]
    dsimp only
    rw [runOn_bind, runOn_ofExcept, hentry]
    rfl
  refine ⟨p₂.absorb i s, ?_, ?_, ?_, h.files, ?_⟩
  · unfold takeFile
    rw [runOn_bind, runOn_get]
    dsimp only
    rw [runOn_bind, runOn_modify]
    dsimp only
    rw [hnext, runOn_bind, henlist]
    dsimp only
    rw [Project.runOn_scan (hfind p₂ rfl), h.files, hglance]
  · -- a first look leaves all programs as they were
    change p₁.programs.map _ = _
    rw [hprograms, hprogram, map_map]
    refine map_congr_left fun j _ => ?_
    change (if j = i then i.start else j.start) = j.start
    split
    next hji => rw [hji]
    · rfl
  · change p.library.insert i.entry = _
    rw [h.library, map_append]
    rfl
  · intro e he
    change e ∈ (p.events ++ s.events).toList at he
    rw [Array.toList_append] at he
    rcases mem_append.mp he with he | he
    · exact h.logs e he
    · exact hlogs e he

/-- An analysis that has taken some programs, begun as `a₀`. -/
structure Taken (a₀ : Analysis) (is : List ProgramId) (a : Analysis) : Prop where
  active : a.active = a₀.active
  extensions : a.extensions = a₀.extensions
  project : a.project.Holds a₀.project.files is

/-- The programs of the files at some paths, for those that the analysis takes. -/
def programsAt (a : Analysis) (paths : List String) : List ProgramId :=
  (paths.filter a.accepts).map fun path => ⟨path, 0⟩

/-- The programs of the files at some paths, which are taken after some others. Those at one path
are numbered. -/
def numberedFrom : List ProgramId → List String → List ProgramId
  | _, [] => []
  | is, path :: paths =>
    ⟨path, is.countP (·.path == path)⟩ :: numberedFrom
      (is ++ [⟨path, is.countP (·.path == path)⟩]) paths

theorem Taken.accepts (h : Taken a₀ is a) (path : String) : a.accepts path = a₀.accepts path := by
  unfold Analysis.accepts
  rw [h.active, h.extensions]

/-- A file that is not accepted leaves everything as it is. -/
theorem Taken.startFile (h : Taken a₀ is a) (path : String) :
    ∃ b, (startFile path).runOn a = (.ok (), b) ∧
      Taken a₀ (is ++ numberedFrom is ([path].filter a₀.accepts)) b := by
  unfold Analysis.startFile
  rw [runOn_bind, runOn_get]
  dsimp only
  rw [h.accepts]
  by_cases hpath : a₀.accepts path = true
  · obtain ⟨q, hq, hholds⟩ := holds_takeFile h.project path
    refine ⟨{ a with project := q }, ?_, h.active, h.extensions, ?_⟩
    · rw [if_pos hpath, runOn_within, hq]
    · rw [filter_cons_of_pos hpath]
      exact hholds
  · refine ⟨a, ?_, h.active, h.extensions, ?_⟩
    · rw [if_neg hpath]
      rfl
    · rw [filter_cons_of_neg hpath]
      exact (append_nil is).symm ▸ h.project

theorem numberedFrom_append (is : List ProgramId) (paths paths' : List String) :
    numberedFrom is (paths ++ paths') = numberedFrom is paths ++
      numberedFrom (is ++ numberedFrom is paths) paths' := by
  induction paths generalizing is with
  | nil => rw [numberedFrom, nil_append, append_nil, nil_append]
  | cons path paths ih =>
    rw [cons_append, numberedFrom, numberedFrom, ih, append_assoc, singleton_append, cons_append]

/-- Files that are taken one after the other put their programs one behind the other. -/
theorem Taken.startFiles :
    ∀ (paths : List String) {is : List ProgramId} {a : Analysis}, Taken a₀ is a →
    ∃ b, (paths.forM Analysis.startFile).runOn a = (.ok (), b) ∧
      Taken a₀ (is ++ numberedFrom is (paths.filter a₀.accepts)) b := by
  intro paths
  induction paths with
  | nil => exact fun {is a} h => ⟨a, rfl, (append_nil is).symm ▸ h⟩
  | cons path paths ih =>
    intro is a h
    obtain ⟨b, hb, htaken⟩ := h.startFile path
    obtain ⟨c, hc, hall⟩ := ih htaken
    refine ⟨c, ?_, ?_⟩
    · change (Analysis.startFile path >>= fun _ => paths.forM Analysis.startFile).runOn a = _
      rw [runOn_bind, hb]
      exact hc
    · rw [← singleton_append, filter_append, numberedFrom_append, ← append_assoc]
      exact hall

/-- Files at different paths are not numbered. -/
theorem numberedFrom_of_nodup {paths : List String} (hnew : ∀ i ∈ is, i.path ∉ paths)
    (hnodup : paths.Nodup) : numberedFrom is paths = paths.map fun path => ⟨path, 0⟩ := by
  induction paths generalizing is with
  | nil => rfl
  | cons path paths ih =>
    obtain ⟨hpath, hnodup⟩ := nodup_cons.mp hnodup
    have hcount : is.countP (·.path == path) = 0 :=
      countP_eq_zero.mpr fun i hi heq => hnew i hi (beq_iff_eq.mp heq ▸ mem_cons_self)
    rw [numberedFrom, hcount, map_cons, ih ?_ hnodup]
    exact forall_mem_append.mpr
      ⟨fun i hi hmem => hnew i hi (mem_cons_of_mem path hmem), forall_mem_singleton.mpr hpath⟩

/-- Numbers tell the programs of one file apart, and change no paths. -/
theorem map_path_numberedFrom (is : List ProgramId) (paths : List String) :
    (numberedFrom is paths).map (·.path) = paths := by
  induction paths generalizing is with
  | nil => rfl
  | cons path paths ih => rw [numberedFrom, map_cons, ih]

/-- Numbers are given once only. -/
theorem nodup_append_numberedFrom (hnodup : is.Nodup)
    (hcopies : ∀ i ∈ is, i.copy < is.countP (·.path == i.path)) (paths : List String) :
    (is ++ numberedFrom is paths).Nodup := by
  induction paths generalizing is with
  | nil =>
    rw [numberedFrom, append_nil]
    exact hnodup
  | cons path paths ih =>
    let i : ProgramId := ⟨path, is.countP (·.path == path)⟩
    have hnew : i ∉ is := fun hi => Nat.lt_irrefl _ (hcopies i hi)
    have hdistinct : (is ++ [i]).Nodup := by
      refine nodup_append.mpr ⟨hnodup, nodup_cons.mpr ⟨not_mem_nil, nodup_nil⟩,
        fun k hk l hl heq => ?_⟩
      rw [heq, mem_singleton.mp hl] at hk
      exact hnew hk
    -- a number is always less than the count of its path
    have hbelow : ∀ k ∈ is ++ [i], k.copy < (is ++ [i]).countP (·.path == k.path) := by
      intro k hk
      rw [countP_append]
      rcases mem_append.mp hk with hk | hk
      · exact Nat.lt_add_right _ (hcopies k hk)
      · rw [mem_singleton.mp hk, countP_singleton, if_pos (beq_self_eq_true _)]
        exact Nat.lt_succ_self _
    have hall := ih hdistinct hbelow
    rw [append_assoc] at hall
    exact hall

/-! ### The whole run -/

/-- An analysis of some source files, before it has taken any. -/
def begun (active : Bool) (extensions : List String) (sources : SourceFiles) : Analysis :=
  { active, extensions, project := { files := sources } }

/-- The analysis of some source files, which are taken in this order. -/
def ofFiles (active : Bool) (extensions : List String) (sources : SourceFiles) : Analysis :=
  ((do (sources.map (·.1)).forM startFile; finish : Work Analysis Unit).runOn
    (begun active extensions sources)).2

theorem taken_begun (active : Bool) (extensions : List String) (sources : SourceFiles) :
    Taken (begun active extensions sources) [] (begun active extensions sources) :=
  ⟨rfl, rfl, rfl, rfl, rfl, forall_mem_nil _⟩

/-- What the scans of the analysis read. -/
def survey (active : Bool) (extensions : List String) (sources : SourceFiles) : Survey where
  files := sources
  library :=
    { entries := ((begun active extensions sources).programsAt (sources.map (·.1))).map entry }

variable {active : Bool} {extensions : List String} {sources : SourceFiles}

theorem programs_survey : (survey active extensions sources).programs =
    (begun active extensions sources).programsAt (sources.map (·.1)) := by
  unfold Survey.programs survey
  rw [map_map]
  exact map_id _

theorem nodup_programs_survey (hnodup : (sources.map (·.1)).Nodup) :
    (survey active extensions sources).programs.Nodup := by
  rw [programs_survey, programsAt]
  exact Pairwise.map _ (fun _ _ hne heq => hne (congrArg path heq)) (hnodup.filter _)

section Taken

variable (h : Taken a₀ is a) (hfiles : V.files = a₀.project.files)
variable (hlibrary : V.library = { entries := is.map ProgramId.entry })

include h hfiles hlibrary

/-- When all files have been taken, no scan has been done. -/
theorem Taken.midway : V.programs = is ∧ V.Midway [] a.project := by
  have hprograms : V.programs = is := by
    unfold Survey.programs
    rw [hlibrary, map_map]
    exact map_id _
  refine ⟨hprograms, ?_, h.project.library.trans hlibrary.symm, h.project.files.trans hfiles.symm⟩
  rw [h.project.programs, hprograms]
  exact map_congr_left fun i _ => (if_neg not_mem_nil).symm

variable (hnodup : is.Nodup) (hactive : a₀.active = false → is = [])

include hnodup hactive

/-- The programs that were taken are scanned in an analysis that is active. In any other one there
are none. -/
theorem Taken.scans :
    a.active = true ∧
      (∃ q, (a.project.library.entries.forM scanEntry).runOn a.project = (.ok (), q) ∧
        q.events.toList = a.project.events.toList ++ is.flatMap (fun i =>
          (V.report i).filter (V.around i (earlier is i)).keeps) ∧
        recordings a.project.library.entries a.project = is.map fun i =>
          (i, (V.report i).filter (V.around i (earlier is i)).keeps)) ∨
      a.active = false ∧ is = [] := by
  obtain ⟨hprograms, hmidway⟩ := h.midway hfiles hlibrary
  by_cases hon : a.active = true
  · -- with nothing scanned before, all entries of the library are to come
    have hscans := hmidway.scanEntries (nil_subset _) (Subset.refl V.library.entries)
      (hprograms.symm ▸ hnodup : V.programs.Nodup)
    change V.library.entries.map (·.program) = is at hprograms
    rw [hprograms, ← hmidway.library] at hscans
    exact .inl ⟨hon, hscans⟩
  · have hoff := Bool.eq_false_iff.mpr hon
    exact .inr ⟨hoff, hactive (h.active ▸ hoff)⟩

/-- **The end of an analysis** reports each of the programs that were taken, with what is known of
those before it. -/
theorem Taken.finish : ∃ b, finish.runOn a = (.ok (), b) ∧
    b.project.events.toList = a.project.events.toList ++ is.flatMap fun i =>
      (V.report i).filter (V.around i (earlier is i)).keeps := by
  unfold Analysis.finish
  rw [runOn_bind, runOn_get]
  dsimp only
  rcases h.scans hfiles hlibrary hnodup hactive with ⟨hon, q, hq, hevents, -⟩ | ⟨hoff, hnone⟩
  · refine ⟨{ a with project := q }, ?_, hevents⟩
    rw [if_pos hon, runOn_within, runOn_bind, runOn_get]
    dsimp only
    rw [hq]
  · -- nothing is taken, and nothing is scanned
    refine ⟨a, ?_, by rw [hnone, flatMap_nil, append_nil]⟩
    rw [hoff]
    rfl

end Taken

/-- Files at some paths, and the programs that are taken from them. An analysis that is not active
takes none. -/
theorem taken_run (paths : List String)
    (his : is = numberedFrom [] (paths.filter (begun active extensions sources).accepts)) :
    ∃ a, (paths.forM startFile).runOn (begun active extensions sources) = (.ok (), a) ∧
      Taken (begun active extensions sources) is a ∧ is.Nodup ∧ (active = false → is = []) := by
  obtain ⟨a, ha, htaken⟩ := (taken_begun active extensions sources).startFiles paths
  rw [nil_append, ← his] at htaken
  refine ⟨a, ha, htaken, ?_, fun hoff => ?_⟩
  · rw [his]
    exact nodup_append_numberedFrom nodup_nil (forall_mem_nil _) _
  · have hnone : paths.filter (begun active extensions sources).accepts = [] := by
      refine filter_eq_nil_iff.mpr fun path _ haccepts => ?_
      rw [accepts, begun, hoff, Bool.false_and] at haccepts
      cases haccepts
    rw [his, hnone, numberedFrom]

/-- **All that an analysis reports** for the files at some paths. Messages about them come first,
and then what is reported for each program, with what is known of those before it. -/
theorem events_run (paths : List String)
    (his : is = numberedFrom [] (paths.filter (begun active extensions sources).accepts))
    (hfiles : V.files = sources) (hlibrary : V.library = { entries := is.map ProgramId.entry }) :
    ∃ b, (do paths.forM startFile; finish : Work Analysis Unit).runOn
      (begun active extensions sources) = (.ok (), b) ∧
      ∃ logs : List Event, (∀ e ∈ logs, e.isLog = true) ∧
        b.project.events.toList = logs ++ is.flatMap fun i =>
          (V.report i).filter (V.around i (earlier is i)).keeps := by
  obtain ⟨a, ha, htaken, hnodup, hactive⟩ := taken_run paths his
  obtain ⟨b, hb, hevents⟩ := htaken.finish hfiles hlibrary hnodup hactive
  refine ⟨b, ?_, a.project.events.toList, htaken.project.logs, hevents⟩
  rw [runOn_bind, ha]
  exact hb

theorem events_ofFiles (hnodup : (sources.map (·.1)).Nodup) :
    ∃ logs : List Event, (∀ e ∈ logs, e.isLog = true) ∧
      (ofFiles active extensions sources).project.events.toList =
        logs ++ (survey active extensions sources).programs.flatMap fun i =>
          ((survey active extensions sources).report i).filter
            ((survey active extensions sources).around i
              (earlier (survey active extensions sources).programs i)).keeps := by
  have hfiles : (survey active extensions sources).files = sources := rfl
  obtain ⟨b, hb, hevents⟩ := events_run (sources.map (·.1))
    (numberedFrom_of_nodup (forall_mem_nil _) (hnodup.filter _)).symm hfiles rfl
  rw [programs_survey]
  unfold ofFiles
  rw [hb]
  exact hevents

end Analysis

end EztScan
