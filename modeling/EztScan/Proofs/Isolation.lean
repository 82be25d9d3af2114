import EztScan.Proofs.FileOrder
import EztScan.Proofs.Referents

/-!
# Files do not disturb each other

The programs of an analysis share a library and are scanned one after the other, and a scan can stop
anywhere. What if the text of one file is replaced by another one, or gets lost? Then nothing
changes about what is reported for the other files, apart from calls of the program in that file
(`recorded_apart`).

A scan asks for the source of its own program only (`scan_congr`), and the library is made from
paths. So a program that is not in that file comes to the same whatever is in there
(`AgreesApart.scan`). What is left is what the scan knows about objects of other programs. That
decides about links to them, and these lead to the programs in that file if anything has changed
(`AgreesApart.reportAfter`).
-/

namespace EztScan

open Work List
variable {done is : List ProgramId} {e : Event} {path : String} {V : Survey}

/-! ### Files apart from one -/

/-- What an event leads to is a program in the file at this path, or in it. -/
def Event.leadsInto (path : String) : Event → Bool
  | .link _ _ (some callee) _ => callee.program.path = path
  | _ => false

namespace Survey

/-- Two surveys of the same programs, whose files are the same apart from the one at this path. -/
structure AgreesApart (path : String) (V W : Survey) : Prop where
  file : ∀ p, p ≠ path → V.files.file p = W.files.file p
  library : V.library = W.library

variable {V W : Survey} {path : String} {i : ProgramId}

/-- A program that is not in the file is scanned alike. -/
theorem AgreesApart.scan (h : V.AgreesApart path W) (hi : i.path ≠ path) (known : Objects) :
    V.scan known i = W.scan known i :=
  scan_congr (by rw [h.library]) (h.file i.path hi) known

/-- A program that is not in the file comes to the same. -/
theorem AgreesApart.objects (h : V.AgreesApart path W) {ref : SymbolRef}
    (href : ref.program.path ≠ path) : V.objects ref = W.objects ref := by
  unfold Survey.objects settled programs
  rw [h.library, h.scan href]

/-- What is known about other programs, those in the file apart. -/
theorem AgreesApart.known (h : V.AgreesApart path W) (i : ProgramId)
    (hdone : ∀ j ∈ done, j.path ≠ path) : (V.around i done).known = (W.around i done).known := by
  funext ref
  unfold Surroundings.known
  by_cases hmem : ref.program ∈ done
  · exact (if_pos hmem).trans ((h.objects (hdone ref.program hmem)).trans (if_pos hmem).symm)
  · exact (if_neg hmem).trans (if_neg hmem).symm

/-- To leave out what leads into a file is to scan as if no program in it had been scanned
before. -/
theorem filter_reportAfter (V : Survey) (done : List ProgramId) (hi : i.path ≠ path) :
    (V.reportAfter done i).filter (fun e => !e.leadsInto path) =
      V.reportAfter (done.filter fun j => j.path ≠ path) i := by
  unfold reportAfter
  rw [filter_filter]
  refine filter_congr fun e _ => ?_
  cases e with
  | link kind caller callee mark =>
    cases callee with
    | none => rfl
    | some callee =>
      have hkeeps : ∀ others, (V.around i others).keeps
        (.link kind caller (some callee) mark) = true ↔
          callee.program = i ∨ callee.program ∈ others := fun others => Surroundings.keeps_link_iff
      have hleads : (!Event.leadsInto path (.link kind caller (some callee) mark)) = true ↔
          callee.program.path ≠ path := by
        simp [Event.leadsInto]
      rw [Bool.eq_iff_iff, Bool.and_eq_true, hleads, hkeeps, hkeeps, mem_filter, decide_eq_true_iff]
      -- a link that is kept stays within the program or leads to one that was scanned before
      constructor
      · rintro ⟨hpath, hown | hdone⟩
        · exact .inl hown
        · exact .inr ⟨hdone, hpath⟩
      · rintro (hown | ⟨hdone, hpath⟩)
        · exact ⟨hown ▸ hi, .inl hown⟩
        · exact ⟨hpath, .inr hdone⟩
  | _ => rfl

/-- **What is reported for a program** that is not in the file is the same, apart from what leads
into that file. -/
theorem AgreesApart.reportAfter (h : V.AgreesApart path W) (done : List ProgramId)
    (hi : i.path ≠ path) :
    (V.reportAfter done i).filter (fun e => !e.leadsInto path) =
      (W.reportAfter done i).filter fun e => !e.leadsInto path := by
  let others := done.filter fun j => j.path ≠ path
  have hothers : ∀ j ∈ others, j.path ≠ path := fun j hj => of_decide_eq_true (mem_filter.mp hj).2
  rw [filter_reportAfter V done hi, filter_reportAfter W done hi]
  unfold Survey.reportAfter
  rw [← V.scan_events, ← W.scan_events, h.scan hi, h.known i hothers]

/-- In what is reported for another program, what leads into a file are calls, and the programs in
it have been reported. -/
theorem call_of_leadsInto (hi : i.path ≠ path) (he : e ∈ V.reportAfter done i)
    (hleads : e.leadsInto path = true) :
    ∃ caller callee mark, e = .link .call caller (some callee) mark ∧ callee.program ∈ done ∧
      callee.program.path = path ∧
      ∀ done', ∃ data, data.IsProgramAt path ∧
        Event.object callee data ∈ V.reportAfter done' callee.program := by
  cases e with
  | link kind caller callee mark =>
    cases callee with
    | none => cases hleads
    | some callee =>
      have hpath : callee.program.path = path := of_decide_eq_true hleads
      have hne : callee.program ≠ i := fun heq => hi (heq ▸ hpath)
      obtain ⟨rfl, hdone, hprogram⟩ := reported_of_link he hne
      exact ⟨caller, callee, mark, rfl, hdone, hpath, hpath ▸ hprogram⟩
  | _ => cases hleads

end Survey

/-! ### What is reported for each program -/

namespace Event

/-- Is the event the object `o`, reported as a program that stands under the file at this path? -/
def showsProgram (path : String) (o : ObjectId) : Event → Bool
  | .object made data => made = o && data.type = "Eztprogram" && data.parent = some (.file path)
  | _ => false

/-- Is the event a call of a program in the file at this path, one that these events show? -/
def callsProgram (path : String) (events : List Event) : Event → Bool
  | .link .call _ (some callee) _ =>
    callee.program.path = path && events.any (showsProgram path callee)
  | _ => false

theorem showsProgram_of_isProgramAt {data : ObjectData} (h : data.IsProgramAt path) (o : ObjectId) :
    showsProgram path o (.object o data) = true := by
  simp [showsProgram, h.1, h.2]

theorem leadsInto_of_callsProgram {events : List Event} (h : e.callsProgram path events = true) :
    e.leadsInto path = true := by
  unfold callsProgram at h
  split at h
  · exact (Bool.and_eq_true _ _ ▸ h).1
  · cases h

end Event

namespace Analysis

/-- What is reported at the end of an analysis for each program of the library. -/
def recorded (a : Analysis) : List (ProgramId × List Event) :=
  if a.active then recordings a.project.library.entries a.project else []

variable {active : Bool} {extensions : List String} {files files' : SourceFiles} {path : String}

/-- What is reported for each program that was taken, with what is known of those before it. -/
theorem Taken.recorded {a₀ a : Analysis} (h : Taken a₀ is a) (hnodup : is.Nodup)
    (hactive : a₀.active = false → is = []) (hfiles : V.files = a₀.project.files)
    (hlibrary : V.library = { entries := is.map ProgramId.entry }) :
    a.recorded = is.map fun i => (i, V.reportAfter (earlier is i) i) := by
  unfold Analysis.recorded
  rcases h.scans hfiles hlibrary hnodup hactive with ⟨hon, -, -, -, hall⟩ | ⟨hoff, hnone⟩
  · rw [if_pos hon]
    exact hall
  · rw [hoff, hnone]
    rfl

/-- What is reported for each program, in a run from the first file to the last scan. Calls of the
programs in a file are the links that lead into it from outside. -/
theorem exists_recorded (paths : List String)
    (his : is = numberedFrom [] (paths.filter (begun active extensions files).accepts))
    (hfiles : V.files = files) (hlibrary : V.library = { entries := is.map ProgramId.entry })
    (path : String) :
    ∃ a b, Runs (paths.forM startFile) (begun active extensions files) () a ∧
      Runs Analysis.finish a () b ∧
      b.project.events.toList = a.project.events.toList ++ a.recorded.flatMap (·.2) ∧
      a.recorded = is.map (fun i => (i, V.reportAfter (earlier is i) i)) ∧
      ∀ i, i.path ≠ path → (V.reportAfter (earlier is i) i).filter
        (fun e => !e.callsProgram path b.project.events.toList) =
        (V.reportAfter (earlier is i) i).filter fun e => !e.leadsInto path := by
  obtain ⟨a, ha, htaken, hnodup, hactive⟩ := taken_run paths his
  obtain ⟨b, hb, hevents⟩ := htaken.finish hfiles hlibrary hnodup hactive
  have hrecorded := htaken.recorded hnodup hactive hfiles hlibrary
  refine ⟨a, b, ha, hb, ?_, hrecorded, fun i hi => filter_congr fun e he => congrArg _ ?_⟩
  · rw [hevents, hrecorded, flatMap_map]
    rfl
  · -- a link from outside is a call, and what it calls has been reported as a program
    refine Bool.eq_iff_iff.mpr ⟨Event.leadsInto_of_callsProgram, fun hleads => ?_⟩
    obtain ⟨caller, callee, mark, rfl, hdone, hpath, hshown⟩ :=
      Survey.call_of_leadsInto hi he hleads
    obtain ⟨data, hprogram, hmem⟩ := hshown (earlier is callee.program)
    have hshows := Event.showsProgram_of_isProgramAt hprogram callee
    refine Bool.and_eq_true_iff.mpr ⟨decide_eq_true hpath, any_eq_true.mpr ⟨_, ?_, hshows⟩⟩
    rw [hevents]
    exact mem_append_right _ (mem_flatMap.mpr ⟨_, takeWhile_subset _ hdone, hmem⟩)

/-- **One file cannot disturb another one.** In two analyses of files at the same paths, which
differ only in what is at one of them, the same programs are scanned in the same order. What is
reported for a program in another file is the same in both of them, apart from calls of programs in
that file. -/
theorem recorded_apart (hfiles : ∀ p, p ≠ path → files.file p = files'.file p) (active : Bool)
    (extensions paths : List String) :
    ∃ a b a' b', Runs (paths.forM startFile) (begun active extensions files) () a ∧
      Runs Analysis.finish a () b ∧
      Runs (paths.forM startFile) (begun active extensions files') () a' ∧
        Runs Analysis.finish a' () b' ∧
      b.project.events.toList = a.project.events.toList ++ a.recorded.flatMap (·.2) ∧
      b'.project.events.toList = a'.project.events.toList ++ a'.recorded.flatMap (·.2) ∧
      List.Forall₂ (fun r r' => r.1 = r'.1 ∧ (r.1.path ≠ path →
          r.2.filter (fun e => !e.callsProgram path b.project.events.toList) =
            r'.2.filter fun e => !e.callsProgram path b'.project.events.toList))
              a.recorded a'.recorded := by
  let is := numberedFrom [] (paths.filter (begun active extensions files).accepts)
  let V : Survey := { files, library := { entries := is.map ProgramId.entry } }
  let W : Survey := { files := files', library := { entries := is.map ProgramId.entry } }
  have hagrees : V.AgreesApart path W := ⟨hfiles, rfl⟩
  obtain ⟨a, b, ha, hb, hevents, hrecorded, hcalls⟩ :=
    exists_recorded (V := V) paths (rfl : is = _) rfl rfl path
  -- which programs are taken does not depend on what is in the files
  have hsame : is = numberedFrom [] (paths.filter (begun active extensions files').accepts) := rfl
  obtain ⟨a', b', ha', hb', hevents', hrecorded', hcalls'⟩ :=
    exists_recorded (V := W) paths hsame rfl rfl path
  refine ⟨a, b, a', b', ha, hb, ha', hb', hevents, hevents', ?_⟩
  rw [hrecorded, hrecorded', forall₂_map_left_iff, forall₂_map_right_iff, forall₂_same]
  refine fun i _ => ⟨rfl, fun hi => ?_⟩
  rw [hcalls i hi, hcalls' i hi, hagrees.reportAfter (earlier is i) hi]

/-- A program that calls another one, whose file has this text. -/
def callOf (text : Option String) : SourceFiles :=
  [("/s/A.ezt", { text }), ("/s/B.ezt", { text := some "PARM\nJOB\nCALL A\n" })]

/-- The file of a called program gets lost. The call goes with it, and nothing else does. -/
theorem recorded_apart_callOf :
    ∃ a b a' b', Runs (["/s/A.ezt", "/s/B.ezt"].forM startFile)
      (begun true [".ezt"] (callOf (some "PARM\n"))) () a ∧
      Runs Analysis.finish a () b ∧
      Runs (["/s/A.ezt", "/s/B.ezt"].forM startFile) (begun true [".ezt"] (callOf none)) () a' ∧
        Runs Analysis.finish a' () b' ∧
      b.project.events.toList.any (·.callsProgram "/s/A.ezt" b.project.events.toList) = true ∧
      b'.project.events.toList.any (·.callsProgram "/s/A.ezt" b'.project.events.toList) = false ∧
      List.Forall₂ (fun r r' => r.1 = r'.1 ∧ (r.1.path ≠ "/s/A.ezt" →
          r.2.filter (fun e => !e.callsProgram "/s/A.ezt" b.project.events.toList) =
            r'.2.filter fun e => !e.callsProgram "/s/A.ezt" b'.project.events.toList))
              a.recorded a'.recorded := by
  have hfiles : ∀ p, p ≠ "/s/A.ezt" → (callOf (some "PARM\n")).file p = (callOf none).file p := by
    intro p hp
    have hother : ∀ text, (callOf text).lookup p = (callOf none).tail.lookup p := by
      intro text
      unfold callOf
      rw [lookup_cons, beq_eq_false_iff_ne.mpr hp]
      rfl
    unfold SourceFiles.file
    rw [hother, hother]
  obtain ⟨a, b, a', b', ha, hb, ha', hb', -, -, hall⟩ :=
    recorded_apart hfiles true [".ezt"] ["/s/A.ezt", "/s/B.ezt"]
  refine ⟨a, b, a', b', ha, hb, ha', hb', ?_, ?_, hall⟩
  · obtain rfl := congrArg Prod.snd ha
    obtain rfl := congrArg Prod.snd hb
    decide +kernel
  · obtain rfl := congrArg Prod.snd ha'
    obtain rfl := congrArg Prod.snd hb'
    decide +kernel

end Analysis

end EztScan
