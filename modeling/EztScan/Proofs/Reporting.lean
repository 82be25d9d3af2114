import EztScan.Proofs.Scanning

/-!
# Storing and linking in two scans

The second half of a scan makes objects and reports links. New objects are counted from those that
there are, so that both scans make the same ones, and the object of the program itself gets the
global name of the program (`alike_makeObject`). Links are the one place where the two scans part: a
link to a program that has not been scanned is reported in the first one only (`beside_linkTarget`).
So **what is known about other programs decides about the links to them and about nothing else**
(`beside_examine`).
-/

namespace EztScan

open Scan Work List
variable {e : Event} {s t : Scan} {id : Nat} {object : Option ObjectId}

namespace Surroundings

variable {X : Surroundings}

/-! ### Storing -/

theorem Proper.mono {m n : Nat} (h : X.Proper m e) (hmn : m ≤ n) : X.Proper n e :=
  ⟨fun o data he => ⟨(h.object o data he).1, Nat.lt_of_lt_of_le (h.object o data he).2 hmn⟩, h.file,
    h.callee⟩

/-- A new object for a symbol, and events that both scans report. If the symbol is that of the
program, its object has to be among the events. -/
theorem Abridged.allot {s' t' : Scan} (h : X.Abridged s t) (new : List Event)
    (hs : s'.program = s.program.allot id) (hse : s'.events.toList = s.events.toList ++ new)
    (ht : t'.program = t.program.allot id) (hte : t'.events.toList = t.events.toList ++ new)
    (hproper : ∀ e ∈ new, X.Proper (s.program.made + 1) e) (hkeeps : ∀ e ∈ new, X.keeps e = true)
    (hguid : id = 0 → guidIn new ⟨X.own, s.program.made⟩ = some X.own.guid) : X.Abridged s' t' := by
  have hr := h.regular
  refine ⟨⟨?_, ?_, ?_, ?_⟩, ?_, ?_⟩
  · rw [hs]
    exact hr.id
  · rw [hs]
    exact hr.program.allot id
  · intro e he
    rw [hse] at he
    rw [hs]
    -- there is one object more, so that what was counted before still is
    rcases mem_append.mp he with he | he
    · exact (hr.events e he).mono (Nat.le_succ _)
    · exact hproper e he
  · intro o ho
    rw [hs] at ho
    rw [hse, guidIn_append]
    by_cases hid : id = 0
    · -- the object is new, so no event before speaks of it
      rw [hid, hr.program.objectOf_allot_zero, hr.id] at ho
      have hnone : guidIn s.events.toList o = none := by
        refine guidIn_eq_none fun o' data hmem heq => ?_
        have hlt := ((hr.events _ hmem).object o' data rfl).2
        rw [heq, ← Option.some.inj ho] at hlt
        exact Nat.lt_irrefl _ hlt
      rw [hnone, ← Option.some.inj ho, Option.none_or]
      exact hguid hid
    · -- the object of the program stays what it was
      rw [s.program.objectOf_allot hid] at ho
      rw [hr.guid o ho, Option.some_or]
  · rw [hs, ht, h.program]
  · rw [hse, hte, filter_append, h.events, filter_eq_self.mpr hkeeps]

/-- What making an object comes to, case by case. The number is taken before anything can go wrong.
-/
theorem runOn_makeObject (id : Nat) (guid : String) (parent : Option Ref) (s : Scan) :
    (makeObject id guid parent).runOn s =
      match (s.program.allot id).symbols[id]? with
      | none => (.error .noSuchSymbol, ⟨s.program.allot id, s.events⟩)
      | some own =>
        let events := if own.name.isEmpty then s.events.push (.log .debug own.tree.render none)
          else s.events
        match own.kind.objectType with
        | .error f => (.error f, ⟨s.program.allot id, events⟩)
        | .ok type =>
          let object : ObjectId := ⟨s.program.id, s.program.made⟩
          (.ok (object, type, own), ⟨s.program.allot id, events.push
            (.object object ⟨own.name, type, parent, guid,
              (s.program.allot id).qualifiedName id⟩)⟩) := by
  have hallot : (allot id).runOn s =
      (.ok ⟨s.program.id, s.program.made⟩, ⟨s.program.allot id, s.events⟩) := rfl
  have hsymbol : (symbol id).runOn ⟨s.program.allot id, s.events⟩ =
      ((s.program.allot id).symbol id, ⟨s.program.allot id, s.events⟩) := rfl
  unfold makeObject
  rw [runOn_bind, hallot]
  dsimp only
  rw [runOn_bind, hsymbol]
  cases hown : (s.program.allot id).symbols[id]? with
  | none =>
    have hnone : (s.program.allot id).symbol id = .error .noSuchSymbol := by
      rw [Program.symbol, hown]
    rw [hnone]
  | some own =>
    have hsome : (s.program.allot id).symbol id = .ok own := by
      rw [Program.symbol, hown]
    rw [hsome]
    dsimp only
    -- a symbol without a name is noted first
    by_cases hname : own.name.isEmpty
    · rw [if_pos hname, if_pos hname]
      cases own.kind.objectType <;> rfl
    · rw [if_neg hname, if_neg hname]
      cases own.kind.objectType <;> rfl

theorem proper_object (o : ObjectId) (data : ObjectData) (ho : o.program = X.own) :
    X.Proper (o.index + 1) (.object o data) := by
  refine ⟨fun o' data' he => ?_, fun _ _ _ _ => nofun, fun _ _ _ _ => nofun⟩
  obtain ⟨rfl, -⟩ := Event.object.inj he
  exact ⟨ho, Nat.lt_succ_self _⟩

/-- What the log is told about a symbol before its object is reported: its tree, if it has no
name. -/
def namelessLogs (s : Symbol) : List Event :=
  if s.name.isEmpty then [.log .debug s.tree.render none] else []

theorem toList_namelessLogs (s : Symbol) (events : Array Event) :
    (if s.name.isEmpty then events.push (.log .debug s.tree.render none) else events).toList =
      events.toList ++ namelessLogs s := by
  unfold namelessLogs
  by_cases hname : s.name.isEmpty <;> simp [hname]

theorem isLog_of_mem_namelessLogs {s : Symbol} (h : e ∈ namelessLogs s) : e.isLog = true := by
  unfold namelessLogs at h
  split at h
  · rw [mem_singleton.mp h]
    rfl
  · exact absurd h not_mem_nil

/-- The first step of a new object can go wrong only for symbols that are not there or of no type,
and so never for the program itself. -/
theorem Abridged.allot_of_ne (h : X.Abridged s t) (hid : id ≠ 0) {events events' : Array Event}
    {new : List Event} (hnew : ∀ e ∈ new, e.isLog = true)
    (hs : events.toList = s.events.toList ++ new) (ht : events'.toList = t.events.toList ++ new) :
    X.Abridged ⟨s.program.allot id, events⟩ ⟨s.program.allot id, events'⟩ :=
  h.allot new rfl hs (congrArg (Program.allot · id) h.program.symm) ht
    (fun e he => proper_of_isLog (hnew e he) _)
    (fun e he => keeps_of_isLog (hnew e he)) fun hz => absurd hz hid

/-- **A new object.** It is numbered and named alike in both scans, and the object of the program
itself bears the global name of the program. -/
theorem alike_makeObject {guid : String} (hguid : id = 0 → guid = X.own.guid)
    (parent : Option Ref) : X.Alike (fun r => r.1.program = X.own) (makeObject id guid parent) := by
  intro s t h
  rw [runOn_makeObject, runOn_makeObject, h.program]
  obtain ⟨root, hroot, hisRoot⟩ := (h.regular.program.allot id).root
  cases hown : (s.program.allot id).symbols[id]? with
  | none =>
    -- the program itself is always there
    have hid : id ≠ 0 := by
      rintro rfl
      rw [hroot] at hown
      exact nomatch hown
    refine ⟨rfl, fun _ hok => (nomatch hok), ?_⟩
    exact h.allot_of_ne hid (forall_mem_nil _) (append_nil _).symm (append_nil _).symm
  | some own =>
    have hlogs := toList_namelessLogs own
    dsimp only
    cases htype : own.kind.objectType with
    | error =>
      -- the program itself has a type
      have hid : id ≠ 0 := by
        -- the symbol of the program is a program
        rintro rfl
        rw [hroot] at hown
        rw [← Option.some.inj hown, hisRoot.kind] at htype
        exact nomatch htype
      refine ⟨rfl, fun _ hok => (nomatch hok), ?_⟩
      exact h.allot_of_ne hid (fun e he => isLog_of_mem_namelessLogs he) (hlogs _) (hlogs _)
    | ok type =>
      refine ⟨rfl, fun r hr => ?_, ?_⟩
      · rw [← Except.ok.inj hr]
        exact h.regular.id
      · let data : ObjectData :=
          ⟨own.name, type, parent, guid, (s.program.allot id).qualifiedName id⟩
        let object : ObjectId := ⟨s.program.id, s.program.made⟩
        refine h.allot (namelessLogs own ++ [.object object data]) rfl ?_
          (congrArg (Program.allot · id) h.program.symm) ?_ ?_ ?_ ?_
        · rw [Array.toList_push, hlogs, append_assoc]
        · rw [Array.toList_push, hlogs, append_assoc]
        · exact forall_mem_append.mpr
            ⟨fun e he => proper_of_isLog (isLog_of_mem_namelessLogs he) _,
              forall_mem_singleton.mpr (proper_object object data h.regular.id)⟩
        · exact forall_mem_append.mpr
            ⟨fun e he => keeps_of_isLog (isLog_of_mem_namelessLogs he),
              forall_mem_singleton.mpr rfl⟩
        · -- the new event is the first one to speak of the new object
          intro hz
          have hnone : guidIn (namelessLogs own) ⟨X.own, s.program.made⟩ = none :=
            guidIn_eq_none fun o d hmem => nomatch isLog_of_mem_namelessLogs hmem
          rw [guidIn_append, hnone, Option.none_or, ← hguid hz, ← h.regular.id]
          simp [guidIn, Event.guidFor?, object, data]

theorem alike_property (owner : Ref) (name : String) (value : Value) :
    X.Alike (fun _ => True) (emit (.property owner name value)) :=
  alike_emit (fun _ => ⟨fun _ _ => nofun, fun _ _ _ _ => nofun, fun _ _ _ _ => nofun⟩) rfl

/-- The global name of the program is that of the symbol that stands for it. -/
theorem alike_placeObject (id : Nat) (file : Option String) :
    X.Alike (fun r => id = 0 → r.1 = X.own.guid) (placeObject id file) := by
  refine alike_program.bind fun p hp => ?_
  -- what has to be remembered of the global name until the object is made
  refine Work.Beside.bind (Q := fun guid => id = 0 → guid = X.own.guid) ?_ fun guid hguid => ?_
  · refine beside_ofExcept fun guid hok hz => ?_
    rw [hz, hp.2.guid_root, hp.1] at hok
    exact (Except.ok.inj hok).symm
  · refine (alike_symbol id).bind fun s hs => ?_
    split
    · exact beside_pure hguid
    next parent hparent =>
      refine (alike_symbol parent).bind fun owner _ => ?_
      refine (alike_modifySymbol parent ?_).bind fun _ _ => ?_
      · exact fun _ => rfl
      · -- only members get a number behind their global names, and the program is a member of
        -- nothing
        refine beside_pure fun hz => ?_
        rw [(hs.2 hz).parent] at hparent
        exact nomatch hparent

theorem alike_reportFile (file : Option String) (tree : SyntaxTree) :
    X.Alike (fun _ => True) (reportFile file tree) := by
  cases file with
  | none => exact beside_throw _
  | some =>
    refine (alike_ofExcept _).bind fun _ _ => (alike_ofExcept _).bind fun _ _ => ?_
    refine (alike_property _ _ _).bind fun _ _ => (alike_property _ _ _).bind fun _ _ => ?_
    refine (alike_ofExcept _).bind fun _ _ => (alike_property _ _ _).bind fun _ _ => ?_
    exact (alike_property _ _ _).bind fun _ _ => alike_property _ _ _

theorem alike_reportComments (object : ObjectId) (tree : SyntaxTree) :
    X.Alike (fun _ => True) (reportComments object tree) := by
  refine (alike_ofExcept _).bind fun header _ => ?_
  have hbody : X.Alike (fun _ => True) (do
      let body ← Work.ofExcept tree.bodyComments
      unless body.isEmpty do
        numberProperty (.object object) "metric.BodyCommentLinesCount" body.length
        textProperty (.object object) "comment.sourceCodeComment"
          (commentText (body.map (·.text)))) := by
    refine (alike_ofExcept _).bind fun body _ => ?_
    split
    · exact beside_pure trivial
    · exact (alike_property _ _ _).bind fun _ _ => alike_property _ _ _
  split
  · exact hbody
  · exact (alike_property _ _ _).bind fun _ _ => (alike_property _ _ _).bind fun _ _ => hbody

theorem alike_reportPosition (object : ObjectId) (file : Option String) (tree : SyntaxTree) :
    X.Alike (fun _ => True) (reportPosition object file tree) := by
  refine (alike_ofExcept _).bind fun root _ => ?_
  dsimp only
  split
  · exact beside_throw _
  · exact alike_emit (fun _ => ⟨fun _ _ => nofun, fun _ _ _ _ => nofun, fun _ _ _ _ => nofun⟩) rfl

theorem alike_reportCode (object : ObjectId) (s : Symbol) :
    X.Alike (fun _ => True) (reportCode object s) := by
  unfold reportCode
  split
  · refine (alike_ofExcept _).bind fun _ _ => (alike_property _ _ _).bind fun _ _ => ?_
    exact (alike_ofExcept _).bind fun _ _ => alike_property _ _ _
  · exact beside_pure trivial

theorem alike_store (id : Nat) (file : Option String) (counter : Nat) :
    X.Alike (fun o => o.program = X.own) (store id file counter) := by
  refine (alike_placeObject id file).bind fun r hguid => ?_
  refine (alike_makeObject hguid r.2).bind fun made hmade => ?_
  refine (alike_modifySymbol counter ?_).bind fun _ _ => (alike_reportCode _ _).bind fun _ _ => ?_
  · exact fun _ => rfl
  have hrest : X.Alike (fun o => o.program = X.own) (do
      reportComments made.1 made.2.2.tree
      reportPosition made.1 file made.2.2.tree
      return made.1) :=
    (alike_reportComments _ _).bind fun _ _ => (alike_reportPosition _ _ _).bind fun _ _ =>
      beside_pure hmade
  split
  · exact (alike_reportFile _ _).bind fun _ _ => hrest
  · exact hrest

/-- The link from the owner of a query to the query belongs to the source file of the program. -/
theorem alike_linkQuery (id : Nat) (s : Symbol)
    (hobject : ∀ o, object = some o → o.program = X.own) :
    X.Alike (fun _ => True) (linkQuery id s object) := by
  refine Work.Beside.bind (Q := fun _ => True) ?_ fun owner _ => alike_program.bind fun p hp => ?_
  · unfold ownerOf
    split
    next parent _ => exact (alike_symbol parent).mono fun _ _ => trivial
    · exact beside_throw _
  refine Work.Beside.bind (Q := fun file => file = some X.own.path) ?_ fun file hfile => ?_
  · refine beside_ofExcept fun file hok => ?_
    -- the topmost owner of a query is the program
    cases htop : p.topOf id with
    | error =>
      rw [htop] at hok
      cases hok
    | ok top =>
      rw [htop] at hok
      have hpath := Program.file_eq_of_fileOf (hp.2.within top (Program.mem_of_topOf htop)) hok
      rw [hpath, ← hp.1]
      rfl
  · split
    · exact beside_throw _
    · refine alike_emit (proper_link hfile fun o ho hne => absurd (hobject o ho) hne) ?_
      cases object with
      | none => rfl
      | some o => simp [keeps, hobject o rfl]

theorem alike_reportQueryText (s : Symbol) (object : Option ObjectId) :
    X.Alike (fun _ => True) (reportQueryText s object) := by
  cases object with
  | none => exact beside_throw _
  | some =>
    refine (alike_ofExcept _).bind fun root _ => (alike_ofExcept _).bind fun text _ => ?_
    cases text with
    | some => exact alike_property _ _ _
    | none => exact beside_throw _

theorem alike_reportUnknownProgram (id : Nat) (object : Option ObjectId) :
    X.Alike (fun _ => True) (reportUnknownProgram id object) := by
  cases object with
  | none => exact beside_throw _
  | some => exact (alike_symbol id).bind fun _ _ => alike_property _ _ _

theorem alike_reportParticulars (id : Nat) (kind : SymbolKind)
    (hobject : ∀ o, object = some o → o.program = X.own) :
    X.Alike (fun _ => True) (reportParticulars id kind object) := by
  unfold reportParticulars
  split
  · have hquery : X.Alike (fun _ => True) (reportQuery id object) :=
      (alike_symbol id).bind fun s _ => (alike_linkQuery id s hobject).bind fun _ _ =>
        alike_reportQueryText s object
    exact hquery.bind fun _ _ => beside_pure trivial
  · exact (alike_reportUnknownProgram id object).bind fun _ _ => beside_pure trivial
  · exact beside_pure trivial

theorem alike_fileFor (s : Symbol) (file : Option String) :
    X.Alike (fun _ => True) (fileFor s file) := by
  cases file with
  | some => exact beside_pure trivial
  | none => exact alike_program.bind fun p _ => alike_ofExcept _

theorem alike_saveTree {saveMember : Nat → Option String → Option Nat → Work Scan Unit}
    (hsave : ∀ member file counter, X.Alike (fun _ => True) (saveMember member file counter))
    (id : Nat) (s : Symbol) (file : Option String) (counter : Nat) :
    X.Alike (fun object => ∀ o, object = some o → o.program = X.own)
      (saveTree saveMember id s file counter) := by
  unfold saveTree
  split
  · exact beside_pure fun _ h => nomatch h
  · refine (alike_fileFor s file).bind fun file _ => ?_
    refine Work.Beside.bind (Q := fun object => ∀ o, object = some o → o.program = X.own) ?_
      fun object hobject => ?_
    · unfold storeOnce
      split
      · refine (alike_store id file counter).bind fun o ho => beside_pure fun o' h => ?_
        rw [← Option.some.inj h]
        exact ho
      · exact beside_pure fun _ h => nomatch h
    · refine alike_program.bind fun p _ => ?_
      refine (beside_forM fun member _ => hsave member file (some counter)).bind fun _ _ => ?_
      cases object with
      | some => exact beside_pure hobject
      | none => exact beside_throw _

/-- A symbol is stored before its members are. The induction is on the fuel. -/
theorem alike_saveWithin : ∀ (fuel id : Nat) (file : Option String) (counter : Option Nat),
    X.Alike (fun _ => True) (saveWithin fuel id file counter) := by
  intro fuel
  induction fuel with
  | zero => exact fun _ _ _ => beside_pure trivial
  | succ fuel ih =>
    intro id file counter
    refine (alike_symbol id).bind fun s _ => ?_
    refine (alike_saveTree (fun member file counter => (ih member file counter).discard)
      id s file _).bind ?_
    exact fun object hobject => alike_reportParticulars id s.kind hobject

theorem alike_save (id : Nat) (file : Option String) : X.Alike (fun _ => True) (save id file) :=
  alike_program.bind fun p _ => alike_saveWithin p.symbols.length id file none

/-! ### Linking -/

/-- The source file of a program is known, so there always is a bookmark. -/
theorem runOn_bookmark (hid : s.program.id = X.own) (hp : s.program.Regular) (span : Span) :
    (bookmark span).runOn s = (.ok ⟨some X.own.path, span⟩, s) := by
  obtain ⟨self, hself, hroot⟩ := hp.root
  have hsymbol : s.program.symbol 0 = .ok self := by
    rw [Program.symbol, hself]
  have hfile : s.program.fileOf self = .ok (some X.own.path) := by
    simp [Program.fileOf, hroot.kind, hroot.origin, hid]
  have hrun : (symbol 0).runOn s = (.ok self, s) := by
    change (s.program.symbol 0, s) = _
    rw [hsymbol]
  have hprogram : program?.runOn s = (.ok s.program, s) := rfl
  unfold bookmark
  rw [runOn_bind, hprogram]
  dsimp only
  rw [runOn_bind, hrun]
  dsimp only
  rw [runOn_bind, runOn_ofExcept, hfile]
  rfl

theorem alike_bookmark (span : Span) :
    X.Alike (fun mark => mark.file = some X.own.path) (bookmark span) := by
  intro s t h
  have hs := runOn_bookmark h.regular.id h.regular.program span
  have ht : (bookmark span).runOn t = (.ok ⟨some X.own.path, span⟩, t) :=
    runOn_bookmark (h.program ▸ h.regular.id) (h.program ▸ h.regular.program) span
  rw [hs, ht]
  refine ⟨rfl, fun mark hmark => ?_, h⟩
  rw [← Except.ok.inj hmark]

section Link

variable (kind : LinkKind) (caller : Option ObjectId) (span : Span) {callee : ObjectId}
  (hcallee : callee.program ≠ X.own → X.all ⟨callee.program, 0⟩ = some callee)

include hcallee

theorem proper_link_some {mark : Bookmark} (hfile : mark.file = some X.own.path) (n : Nat) :
    X.Proper n (.link kind caller (some callee) mark) := by
  refine proper_link hfile (fun o ho hne => ?_) n
  obtain rfl := Option.some.inj ho
  exact hcallee hne

/-- Both scans know the objects of the program and of those that have been scanned. -/
theorem alike_link (hkept : callee.program = X.own ∨ callee.program ∈ X.done) :
    X.Alike (fun _ => True) (bookmark span >>=
      fun mark => emit (.link kind caller (some callee) mark)) := by
  refine (alike_bookmark span).bind fun mark hfile => ?_
  apply alike_emit (proper_link_some kind caller hcallee hfile)
  rcases hkept with hown | hdone
  · simp [keeps, hown]
  · simp [keeps, hdone]

/-- The second scan has no link where the first one has a link to a program that has not been
scanned. -/
theorem beside_link_of_not_mem (hown : callee.program ≠ X.own) (hdone : callee.program ∉ X.done) :
    Work.Beside X.Abridged (fun _ => True)
      (bookmark span >>= fun mark => emit (.link kind caller (some callee) mark)) (pure ()) := by
  have hproper (n : Nat) : X.Proper n (.link kind caller (some callee) ⟨some X.own.path, span⟩) :=
    proper_link_some kind caller hcallee rfl n
  have hemit := beside_emit hproper
  have hkeeps : X.keeps (.link kind caller (some callee) ⟨some X.own.path, span⟩) = false := by
    simp [keeps, hown, hdone]
  rw [if_neg (Bool.eq_false_iff.mp hkeeps)] at hemit
  -- the second scan does not even ask for the place, which the first one always gets
  intro s t h
  rw [runOn_bind, runOn_bookmark h.regular.id h.regular.program span]
  exact hemit s t h

end Link

/-- Both scans report the same link to a symbol, unless it belongs to a program that has not been
scanned: then the second one reports none. -/
theorem beside_linkTarget (kind : LinkKind) (caller : Option ObjectId) (o : Operand)
    {ref : SymbolRef} (href : ref.program ≠ X.own → ref.symbol = 0) :
    Work.Beside X.Abridged (fun _ => True) (linkTarget X.all kind caller o ref)
      (linkTarget X.known kind caller o ref) := by
  refine alike_program.bind fun p hp => ?_
  by_cases hown : ref.program = p.id
  · -- both scans know the objects of the program itself
    have hobject (known : Objects) : objectOf known p ref = p.objectOf ref.symbol := if_pos hown
    rw [hobject, hobject]
    cases hcallee : p.objectOf ref.symbol with
    | none => exact beside_pure trivial
    | some callee =>
      have hprogram : callee.program = X.own := hp.1 ▸ hp.2.program_of_objectOf hcallee
      exact alike_link kind caller o.span (fun hne => absurd hprogram hne) (.inl hprogram)
  · -- objects of other programs come from outside, where the two scans know different things
    have hobject (known : Objects) : objectOf known p ref = known ref := if_neg hown
    have hne : ref.program ≠ X.own := hp.1 ▸ hown
    rw [hobject, hobject]
    cases hall : X.all ref with
    | none =>
      have hknown : X.known ref = none := by simp [known, hall]
      rw [hknown]
      exact beside_pure trivial
    | some callee =>
      have hprogram : callee.program = ref.program := X.sound ref callee hall
      have hcallee : X.all ⟨callee.program, 0⟩ = some callee := by
        rw [hprogram, ← href hne]
        exact hall
      by_cases hdone : ref.program ∈ X.done
      · have hknown : X.known ref = some callee := by simp [known, hdone, hall]
        rw [hknown]
        exact alike_link kind caller o.span (fun _ => hcallee) (.inr (hprogram ▸ hdone))
      · have hknown : X.known ref = none := by simp [known, hdone]
        rw [hknown]
        exact beside_link_of_not_mem kind caller o.span (fun _ => hcallee) (hprogram ▸ hne)
          (hprogram ▸ hdone)

theorem alike_unknownProgram (owner : Nat) (o : Operand) :
    X.Alike (fun _ => True) (unknownProgram owner o) := by
  refine alike_program.bind fun p _ => ?_
  split
  · exact beside_pure trivial
  · split
    · exact beside_throw _
    · refine (alike_declare owner (by intro h; cases h) rfl).bind fun id _ =>
        alike_program.bind fun p _ => ?_
      refine (alike_symbol 0).bind fun self _ => (alike_ofExcept _).bind fun file _ => ?_
      exact (alike_save id file).discard.bind fun _ _ => beside_pure trivial

theorem alike_targetsOf (owner : Nat) (n : Node) (r : Reference) (o : Operand) :
    X.Alike (fun refs => ∀ ref ∈ refs, ref.program ≠ X.own → ref.symbol = 0)
      (targetsOf owner n r o) := by
  refine alike_program.bind fun p hp => ?_
  have hown (id : Nat) : ∀ ref ∈ [(⟨p.id, id⟩ : SymbolRef)], ref.program ≠ X.own →
      ref.symbol = 0 := by
    intro ref href hne
    rw [mem_singleton.mp href] at hne
    exact absurd hp.1 hne
  dsimp only
  split
  · -- a program that is not known becomes a symbol of this one
    refine (alike_unknownProgram owner o).bind fun id _ => ?_
    refine Work.Beside.bind (Q := fun _ => True) ?_ fun _ _ => beside_pure (hown id)
    refine alike_modifyProgram fun p _ hp => ⟨rfl, hp.setResolved ?_ n.head.number r.role, rfl, rfl⟩
    intro ref href hne
    rw [mem_singleton.mp href] at hne
    exact absurd rfl hne
  · refine beside_pure ?_
    rw [← hp.1]
    exact hp.2.resolvedAs n.head.number r.role

/-- References are looked up alike. Only their links may differ. -/
theorem beside_linkReferences (owner : Nat) (caller : Option ObjectId) (n : Node) :
    ∀ rs : List Reference, Work.Beside X.Abridged (fun _ => True)
      (linkReferences X.all owner caller n rs)
      (linkReferences X.known owner caller n rs) := by
  intro rs
  induction rs with
  | nil => exact beside_pure trivial
  | cons r rs ih =>
    refine (alike_ofExcept _).bind fun operand _ => ?_
    cases operand with
    | none => exact beside_pure trivial
    | some o =>
      refine (alike_targetsOf owner n r o).bind fun refs hrefs => ?_
      exact (beside_forM fun ref href => beside_linkTarget r.link caller o (hrefs ref href)).bind
        fun _ _ => ih

theorem beside_linkStatement (stack : Enclosing) (n : Node) (rs : List Reference) :
    Work.Beside X.Abridged (fun _ => True) (linkStatement X.all stack n rs)
      (linkStatement X.known stack n rs) := by
  refine (alike_ofExcept _).bind fun idle _ => ?_
  split
  · exact beside_pure trivial
  · refine (alike_ofExcept _).bind fun owner _ => (alike_symbol owner).bind fun s _ => ?_
    exact beside_linkReferences owner s.stored n rs

theorem beside_linkVisit (stack : Enclosing) (v : Visit) :
    Work.Beside X.Abridged (fun _ => True) (linkVisit X.all stack v)
      (linkVisit X.known stack v) := by
  cases v with
  | leaving => exact beside_pure trivial
  | entering n =>
    unfold linkVisit
    dsimp only
    split
    · refine (alike_ofExcept _).bind fun outer _ => (alike_ofExcept _).bind fun name _ => ?_
      exact alike_program.bind fun p _ => beside_pure trivial
    · split
      next rs _ => exact (beside_linkStatement stack n rs).bind fun _ _ => beside_pure trivial
      · exact beside_pure trivial

theorem beside_linkVisits (vs : List Visit) : ∀ stack : Enclosing,
    Work.Beside X.Abridged (fun _ => True) (linkVisits X.all stack vs)
      (linkVisits X.known stack vs) := by
  induction vs with
  | nil => exact fun _ => beside_pure trivial
  | cons v vs ih => exact fun stack => (beside_linkVisit stack v).bind fun stack' _ => ih stack'

/-- **What is known about other programs decides about the links to them and about nothing
else.** -/
theorem beside_examine (files : SourceFiles) (library : Option Library) :
    Work.Beside X.Abridged (fun _ => True) (examine files library X.all)
      (examine files library X.known) := by
  have hall : Work.Beside X.Abridged (fun _ => True) (examineAll files library X.all)
      (examineAll files library X.known) := by
    refine (alike_readProgram files).bind fun _ _ => ?_
    refine (alike_resolve files library).bind fun _ _ => ?_
    refine (alike_save 0 none).discard.bind fun _ _ => ?_
    refine Work.Beside.bind (Q := fun _ => True) ?_ fun _ _ => alike_clean 0
    exact alike_visits.bind fun vs _ => (beside_linkVisits vs _).discard
  refine alike_program.bind fun p _ => (alike_log _ _ _).bind fun _ _ => ?_
  -- a fault is the same in both, and the log is told of it
  refine hall.attempt.bind fun outcome _ => ?_
  cases outcome with
  | ok => exact beside_pure trivial
  | error => exact alike_log _ _ _

end Surroundings

end EztScan
