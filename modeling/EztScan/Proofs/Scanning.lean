import EztScan.Analysis
import EztScan.Proofs.Runs

/-!
# Two scans of one program

A program is scanned against the objects of the other programs that are known by then. To see how
much depends on them, the scan is run twice: once with the objects of all programs
(`Surroundings.all`), and once with those of the programs scanned before (`Surroundings.known`). The
two are kept side by side (`Surroundings.Abridged`): the program is one and the same, and the second
run has reported what the first one has, less the links to programs that it does not know.

What the relation has to say about the first run is `Surroundings.Regular`: objects and symbols
belong to the program, links are reported for its source file, and its own object has its own global
name. This module has the single operations, and the reading of a source and of its references,
which are alike in both runs. There is one lemma for each operation, in the order of the modules
that define them. These need little of the relation (`Surroundings.Lasting`), so that they also say
that reading tells nothing but the log (`Surroundings.Hushed`).
-/

namespace EztScan

open List Program Work

variable {id : Nat} {s t : Symbol} {p : Program} {f : Symbol → Symbol} {e : Event}

/-! ### Global names of objects -/

/-- The global name that an event gives to an object. -/
def Event.guidFor? (id : ObjectId) : Event → Option String
  | .object made data => if made = id then some data.guid else none
  | _ => none

/-- The global name under which an object was reported first. -/
def guidIn (events : List Event) (id : ObjectId) : Option String :=
  events.findSome? (Event.guidFor? id)

theorem guidIn_append (as bs : List Event) (id : ObjectId) :
    guidIn (as ++ bs) id = (guidIn as id).or (guidIn bs id) := by
  unfold guidIn
  rw [findSome?_append]

theorem guidIn_eq_none {events : List Event} {id : ObjectId}
    (h : ∀ o data, Event.object o data ∈ events → o ≠ id) : guidIn events id = none := by
  refine findSome?_eq_none_iff.mpr fun e he => ?_
  cases e with
  | object o data => exact if_neg (h o data he)
  | _ => rfl

/-- Is the event a message to the log? -/
def Event.isLog : Event → Bool
  | .log .. => true
  | _ => false

/-- The global name of a program. -/
def ProgramId.guid (i : ProgramId) : String :=
  i.path ++ ("." ++ "Eztprogram" ++ "." ++ Text.upper (nameAt i.path))

/-! ### Symbols that belong to a program -/

/-- The symbol stands for the program itself. -/
structure Symbol.IsRoot (i : ProgramId) (s : Symbol) : Prop where
  kind : s.kind = .program
  name : s.name = nameAt i.path
  parent : s.parent = none
  origin : s.origin = .file i.path

/-- The object of the symbol is one of the program, and so is its source. -/
structure Symbol.Within (i : ProgramId) (s : Symbol) : Prop where
  stored : ∀ o, s.stored = some o → o.program = i
  origin : s.kind = .program → s.origin = .file i.path

/-- What does not change about a symbol that has been declared, its object included. -/
def Symbol.heading (s : Symbol) : SymbolKind × String × Option Nat × Origin × Option ObjectId :=
  (s.kind, s.name, s.parent, s.origin, s.stored)

theorem Symbol.IsRoot.congr {i : ProgramId} (hs : s.IsRoot i) (h : t.heading = s.heading) :
    t.IsRoot i := by
  simp only [Symbol.heading, Prod.mk.injEq] at h
  obtain ⟨hk, hn, hp, ho, -⟩ := h
  exact ⟨hk.trans hs.kind, hn.trans hs.name, hp.trans hs.parent, ho.trans hs.origin⟩

theorem Symbol.Within.congr {i : ProgramId} (hs : s.Within i) (h : t.heading = s.heading) :
    t.Within i := by
  simp only [Symbol.heading, Prod.mk.injEq] at h
  obtain ⟨hk, -, -, ho, hst⟩ := h
  exact ⟨fun o hto => hs.stored o (hst ▸ hto), fun hkt => ho.trans (hs.origin (hk ▸ hkt))⟩

namespace Program

/-- The symbols belong to the program, the first of them stands for it, and of other programs it is
only those themselves that statements refer to. -/
structure Regular (p : Program) : Prop where
  root : ∃ s, p.symbols[0]? = some s ∧ s.IsRoot p.id
  within : ∀ s ∈ p.symbols, s.Within p.id
  resolved : ∀ r ∈ p.resolved, ∀ ref ∈ r.2, ref.program ≠ p.id → ref.symbol = 0

theorem mem_modifySymbol (h : t ∈ (p.modifySymbol id f).symbols) :
    t ∈ p.symbols ∨ ∃ s ∈ p.symbols, t = f s := by
  -- by the place of the symbol, which is changed if it is the one asked for
  obtain ⟨k, hk⟩ := mem_iff_getElem?.mp h
  simp only [modifySymbol, getElem?_modify] at hk
  obtain ⟨s, hs, rfl⟩ := Option.map_eq_some_iff.mp hk
  have hmem : s ∈ p.symbols := mem_of_getElem? hs
  by_cases hik : id = k
  · exact .inr ⟨s, hmem, by rw [if_pos hik]⟩
  · exact .inl (by rw [if_neg hik]; exact hmem)

/-- The object of a symbol stays when a symbol is changed and keeps its heading. -/
theorem objectOf_modifySymbol (hf : ∀ s, (f s).heading = s.heading) (id k : Nat) :
    (p.modifySymbol id f).objectOf k = p.objectOf k := by
  unfold objectOf modifySymbol
  rw [getElem?_modify]
  cases p.symbols[k]? with
  | none => rfl
  | some s =>
    by_cases hik : id = k
    · -- its object is part of the heading
      have hst : (f s).stored = s.stored := congrArg (·.2.2.2.2) (hf s)
      simpa [hik] using hst
    · simp [hik]

/-- A change of symbols is harmless if it leaves the symbol of the program what it is, and no symbol
leaves the program. -/
theorem Regular.modifySymbol (hp : p.Regular) (hroot : ∀ s, s.IsRoot p.id → (f s).IsRoot p.id)
    (hwithin : ∀ s, s.Within p.id → (f s).Within p.id) (id : Nat) :
    (p.modifySymbol id f).Regular where
  root := by
    obtain ⟨s, hs, hs'⟩ := hp.root
    by_cases hid : id = 0
    · refine ⟨f s, ?_, hroot s hs'⟩
      simp [Program.modifySymbol, hs, hid]
    · refine ⟨s, ?_, hs'⟩
      simp [Program.modifySymbol, hs, hid]
  within := by
    intro t ht
    rcases mem_modifySymbol ht with ht | ⟨s, hs, rfl⟩
    · exact hp.within t ht
    · exact hwithin s (hp.within s hs)
  resolved := hp.resolved

theorem Regular.modifySymbol_of_heading (hp : p.Regular) (hf : ∀ s, (f s).heading = s.heading)
    (id : Nat) : (p.modifySymbol id f).Regular :=
  hp.modifySymbol (fun s hs => hs.congr (hf s)) (fun s hs => hs.congr (hf s)) id

theorem Regular.allot (hp : p.Regular) (id : Nat) : (p.allot id).Regular := by
  have hmade : { p with made := p.made + 1 }.Regular := ⟨hp.root, hp.within, hp.resolved⟩
  apply hmade.modifySymbol
  · exact fun s hs => ⟨hs.kind, hs.name, hs.parent, hs.origin⟩
  · exact fun s hs => ⟨fun o ho => by rw [← Option.some.inj ho], hs.origin⟩

/-- Only for the program itself does it change the object of the program. -/
theorem objectOf_allot (p : Program) (hid : id ≠ 0) : (p.allot id).objectOf 0 = p.objectOf 0 := by
  simp [objectOf, allot, modifySymbol, hid]

theorem Regular.objectOf_allot_zero (hp : p.Regular) :
    (p.allot 0).objectOf 0 = some ⟨p.id, p.made⟩ := by
  obtain ⟨s, hs, -⟩ := hp.root
  simp [objectOf, Program.allot, Program.modifySymbol, hs]

/-! ### Declarations and references -/

theorem Regular.append (hp : p.Regular) (hs : s.Within p.id) :
    { p with symbols := p.symbols ++ [s] }.Regular where
  root := by
    obtain ⟨r, hr, hroot⟩ := hp.root
    obtain ⟨hlt, -⟩ := List.getElem?_eq_some_iff.mp hr
    exact ⟨r, by rw [← hr]; exact getElem?_append_left hlt, hroot⟩
  within := forall_mem_append.mpr ⟨hp.within, forall_mem_singleton.mpr hs⟩
  resolved := hp.resolved

theorem Regular.declare (hp : p.Regular) (hs : s.Within p.id) (parent : Nat) (key : String) :
    (p.declare parent key s).1.Regular := by
  dsimp only [Program.declare]
  apply (hp.append hs).modifySymbol_of_heading
  exact fun _ => rfl

/-- A new symbol does not change the object of the program, as it is not the first one. -/
theorem Regular.objectOf_declare (hp : p.Regular) (s : Symbol) (parent : Nat) (key : String) :
    (p.declare parent key s).1.objectOf 0 = p.objectOf 0 := by
  obtain ⟨r, hr, -⟩ := hp.root
  obtain ⟨hlt, -⟩ := List.getElem?_eq_some_iff.mp hr
  have happ : (p.symbols ++ [s])[0]? = p.symbols[0]? := getElem?_append_left hlt
  dsimp only [Program.declare]
  -- its owner is changed, but keeps its object
  rw [objectOf_modifySymbol]
  · unfold objectOf
    rw [happ]
  · exact fun _ => rfl

theorem Regular.setResolved (hp : p.Regular) {refs : List SymbolRef}
    (hrefs : ∀ ref ∈ refs, ref.program ≠ p.id → ref.symbol = 0) (statement : Nat) (role : Role) :
    (p.setResolved statement role refs).Regular where
  root := hp.root
  within := hp.within
  resolved := forall_mem_cons.mpr ⟨hrefs, fun r hr => hp.resolved r (mem_filter.mp hr).1⟩

theorem exists_mem_of_lookup {κ α : Type} [BEq κ] {key : κ} {a : α} :
    ∀ {l : List (κ × α)}, l.lookup key = some a → ∃ k, (k, a) ∈ l
  | [], h => nomatch h
  | (k, b) :: rest, h => by
    rw [lookup_cons] at h
    split at h
    · exact ⟨k, by rw [Option.some.inj h]; exact mem_cons_self⟩
    · obtain ⟨k', hk'⟩ := exists_mem_of_lookup h
      exact ⟨k', mem_cons_of_mem _ hk'⟩

theorem Regular.resolvedAs (hp : p.Regular) (statement : Nat) (role : Role) :
    ∀ ref ∈ p.resolvedAs statement role, ref.program ≠ p.id → ref.symbol = 0 := by
  unfold Program.resolvedAs
  cases hl : p.resolved.lookup (statement, role) with
  | none => exact forall_mem_nil _
  | some refs =>
    obtain ⟨key, hkey⟩ := exists_mem_of_lookup hl
    exact hp.resolved (key, refs) hkey

/-! ### Files and names -/

/-- What tells its source file is a program, and the file is that of the program. -/
theorem file_eq_of_fileOf (hs : s.Within p.id) {file : Option String} (h : p.fileOf s = .ok file) :
    file = some p.path := by
  unfold fileOf at h
  split at h
  · exact nomatch h
  next hkind =>
    rw [hs.origin (Decidable.not_not.mp hkind)] at h
    exact (Except.ok.inj h).symm

theorem Regular.program_of_objectOf (hp : p.Regular) {o : ObjectId} (h : p.objectOf id = some o) :
    o.program = p.id := by
  obtain ⟨s, hs, hstored⟩ := Option.bind_eq_some_iff.mp h
  exact (hp.within s (mem_of_getElem? hs)).stored o hstored

/-- Whatever is above a symbol is in the program. -/
theorem mem_of_mem_lineageWithin :
    ∀ {fuel id : Nat}, s ∈ p.lineageWithin fuel id → s ∈ p.symbols := by
  intro fuel
  induction fuel with
  | zero =>
    intro id h
    exact absurd h not_mem_nil
  | succ fuel ih =>
    intro id h
    unfold lineageWithin at h
    split at h
    · exact absurd h not_mem_nil
    next own hown =>
      -- either the symbol asked for, or one above its parent
      rcases mem_cons.mp h with rfl | h
      · exact mem_of_getElem? hown
      · split at h
        · exact ih h
        · exact absurd h not_mem_nil

theorem mem_of_topOf (h : p.topOf id = .ok s) : s ∈ p.symbols := by
  unfold topOf at h
  split at h
  next top htop =>
    obtain rfl := Except.ok.inj h
    exact mem_of_mem_lineageWithin (mem_of_getLast? htop)
  · exact nomatch h

/-- The global name of the symbol that stands for a program is that of the program. -/
theorem Regular.guid_root (hp : p.Regular) : p.guid 0 = .ok p.id.guid := by
  obtain ⟨s, hs, hroot⟩ := hp.root
  -- nothing is above the program, so that the global name has one part behind the path
  have hline : p.lineage 0 = [s] := by
    simp [lineage, lineageWithin, hs, hroot.parent]
  have htop : p.topOf 0 = .ok s := by simp [topOf, hline]
  have hfile : p.fileOf s = .ok (some p.id.path) := by simp [fileOf, hroot.kind, hroot.origin]
  have hpart : guidPart s = .ok ("." ++ "Eztprogram" ++ "." ++ Text.upper (nameAt p.id.path)) := by
    simp only [guidPart, hroot.kind, hroot.name, SymbolKind.objectType, bind, Except.bind, pure,
      Except.pure]
  simp [guid, htop, hfile, hline, hpart, ProgramId.guid, String.join, bind, Except.bind, pure,
    Except.pure]

end Program

/-! ### Scans side by side -/

/-- A program among others: the objects that the symbols of all of them have in the end, and those
of the other programs that have been scanned already. -/
structure Surroundings where
  own : ProgramId
  all : Objects
  sound : ∀ ref o, all ref = some o → o.program = ref.program
  done : List ProgramId

namespace Surroundings

/-- The objects of the programs that have been scanned already. -/
def known (X : Surroundings) : Objects := fun ref =>
  if ref.program ∈ X.done then X.all ref else none

/-- Is the event reported? Links to programs that have not been scanned are left out. -/
def keeps (X : Surroundings) : Event → Bool
  | .link _ _ (some callee) _ => callee.program = X.own || X.done.contains callee.program
  | _ => true

/-- What is known about the events of a scan after `made` objects: objects are counted and belong to
the program, links belong to its source file, and of other programs it is only those themselves that
links lead to. -/
structure Proper (X : Surroundings) (made : Nat) (e : Event) : Prop where
  object : ∀ o data, e = .object o data → o.program = X.own ∧ o.index < made
  file : ∀ kind caller callee mark, e = .link kind caller callee mark → mark.file = some X.own.path
  callee : ∀ kind caller callee mark, e = .link kind caller (some callee) mark →
    callee.program ≠ X.own →
    X.all ⟨callee.program, 0⟩ = some callee

/-- What is known about a scan of the program. -/
structure Regular (X : Surroundings) (s : Scan) : Prop where
  id : s.program.id = X.own
  program : s.program.Regular
  events : ∀ e ∈ s.events.toList, X.Proper s.program.made e
  guid : ∀ o, s.program.objectOf 0 = some o → guidIn s.events.toList o = some X.own.guid

/-- The second scan is the first one, without the links to programs that have not been scanned. -/
structure Abridged (X : Surroundings) (s t : Scan) : Prop where
  regular : X.Regular s
  program : t.program = s.program
  events : t.events.toList = s.events.toList.filter X.keeps

/-- So far only the log has been told of the program. -/
structure Hushed (X : Surroundings) (s t : Scan) : Prop extends X.Abridged s t where
  logs : ∀ e ∈ s.events.toList, e.isLog = true

/-- The work does the same in scans that are related by `A`, and they are so related in the end. A
value that it gives has the property `Q`. -/
abbrev Same (A : Scan → Scan → Prop) {α : Type} (Q : α → Prop) (w : Work Scan α) : Prop :=
  Work.Beside A Q w w

/-- The work does the same in both scans. -/
abbrev Alike (X : Surroundings) {α : Type} (Q : α → Prop) (w : Work Scan α) : Prop :=
  Same X.Abridged Q w

/-- What reading asks of a relation between scans: it stays when the log is told something, and when
the program is changed, as long as its object and the number of its objects stay. -/
class Lasting (X : outParam Surroundings) (A : Scan → Scan → Prop) : Prop where
  abridged : ∀ {s t}, A s t → X.Abridged s t
  log : ∀ {s t} level text cause, A s t → A ⟨s.program, s.events.push (.log level text cause)⟩
    ⟨t.program, t.events.push (.log level text cause)⟩
  modify : ∀ {s t} {f : Program → Program}, (∀ p : Program, p.id = X.own → p.Regular →
      (f p).id = p.id ∧ (f p).Regular ∧ (f p).made = p.made ∧ (f p).objectOf 0 = p.objectOf 0) →
    A s t → A ⟨f s.program, s.events⟩ ⟨f t.program, t.events⟩

variable {X : Surroundings} {A : Scan → Scan → Prop}

/-! ### Single operations -/

theorem alike_ofExcept {α : Type} (outcome : Except Fault α) :
    Same A (fun _ => True) (Work.ofExcept outcome) :=
  beside_ofExcept fun _ _ => trivial

/-- An event that makes no object is reported in the first scan, and in the second one unless it is
left out there. -/
theorem beside_emit (he : ∀ n, X.Proper n e) :
    Work.Beside X.Abridged (fun _ => True) (Scan.emit e)
      (if X.keeps e then Scan.emit e else pure ()) := by
  intro s t h
  -- the first scan takes the event in whether or not the second one does
  have hregular : X.Regular { s with events := s.events.push e } := by
    refine ⟨h.regular.id, h.regular.program, ?_, ?_⟩
    · intro e' he'
      rw [Array.toList_push] at he'
      rcases mem_append.mp he' with he' | he'
      · exact h.regular.events e' he'
      · rw [mem_singleton.mp he']
        exact he _
    · intro o ho
      -- the first report of an object counts, and the program has been reported
      rw [Array.toList_push, guidIn_append, h.regular.guid o ho]
      rfl
  by_cases hkeeps : X.keeps e
  · rw [if_pos hkeeps]
    refine ⟨rfl, fun _ _ => trivial, hregular, h.program, ?_⟩
    change (t.events.push e).toList = (s.events.push e).toList.filter X.keeps
    rw [Array.toList_push, Array.toList_push, filter_append, ← h.events, filter_cons_of_pos hkeeps,
      filter_nil]
  · rw [if_neg hkeeps]
    refine ⟨rfl, fun _ _ => trivial, hregular, h.program, ?_⟩
    change t.events.toList = (s.events.push e).toList.filter X.keeps
    rw [Array.toList_push, filter_append, ← h.events, filter_cons_of_neg hkeeps, filter_nil,
      append_nil]

theorem alike_emit (he : ∀ n, X.Proper n e) (hkeeps : X.keeps e = true) :
    X.Alike (fun _ => True) (Scan.emit e) := by
  have h := beside_emit he
  rw [if_pos hkeeps] at h
  exact h

theorem proper_of_isLog (h : e.isLog = true) (n : Nat) : X.Proper n e := by
  cases e with
  | log => exact ⟨fun _ _ => nofun, fun _ _ _ _ => nofun, fun _ _ _ _ => nofun⟩
  | _ => exact nomatch h

theorem keeps_of_isLog (h : e.isLog = true) : X.keeps e = true := by
  cases e with
  | log => rfl
  | _ => exact nomatch h

/-- A link is proper if it belongs to the file of the program, and leads out of it only to a program
itself. -/
theorem proper_link {kind : LinkKind} {caller callee : Option ObjectId} {mark : Bookmark}
    (hfile : mark.file = some X.own.path)
    (hcallee : ∀ o, callee = some o → o.program ≠ X.own → X.all ⟨o.program, 0⟩ = some o) (n : Nat) :
    X.Proper n (.link kind caller callee mark) := by
  refine ⟨fun _ _ => nofun, fun k c d m he => ?_, fun k c d m he => ?_⟩
  · obtain ⟨-, -, -, rfl⟩ := Event.link.inj he
    exact hfile
  · obtain ⟨-, -, rfl, -⟩ := Event.link.inj he
    exact hcallee d rfl

instance : X.Lasting X.Abridged where
  abridged h := h
  log _ _ _ h := (alike_emit (proper_of_isLog rfl) rfl _ _ h).2.2
  modify {_ _ f} hf h := by
    obtain ⟨hid, hreg, hmade, hobject⟩ := hf _ h.regular.id h.regular.program
    refine ⟨⟨hid.trans h.regular.id, hreg, ?_, ?_⟩, congrArg f h.program, h.events⟩
    · rw [hmade]
      exact h.regular.events
    · rw [hobject]
      exact h.regular.guid

instance : X.Lasting X.Hushed where
  abridged h := h.toAbridged
  log level text cause h := by
    refine ⟨Lasting.log level text cause h.toAbridged, ?_⟩
    rw [Array.toList_push]
    exact forall_mem_append.mpr ⟨h.logs, forall_mem_singleton.mpr rfl⟩
  modify hf h := ⟨Lasting.modify hf h.toAbridged, h.logs⟩

variable [hA : X.Lasting A]

include hA

theorem alike_program : Same A (fun p => p.id = X.own ∧ p.Regular) Scan.program? := by
  intro s t h
  have habridged := hA.abridged h
  refine ⟨congrArg Except.ok habridged.program.symm, fun p hp => ?_, h⟩
  rw [← Except.ok.inj hp]
  exact ⟨habridged.regular.id, habridged.regular.program⟩

theorem alike_log (level : Level) (text : String) (cause : Option Fault) :
    Same A (fun _ => True) (Scan.log level text cause) :=
  beside_modify fun _ _ => hA.log level text cause

/-- A change of the program that touches neither its object nor how many objects there are. -/
theorem alike_modifyProgram {f : Program → Program} (hf : ∀ p : Program, p.id = X.own → p.Regular →
      (f p).id = p.id ∧ (f p).Regular ∧ (f p).made = p.made ∧ (f p).objectOf 0 = p.objectOf 0) :
    Same A (fun _ => True) (Scan.modifyProgram f) :=
  beside_modify fun _ _ => hA.modify hf

/-- A symbol is looked up in one and the same program. -/
theorem alike_symbol (id : Nat) :
    Same A (fun s => s.Within X.own ∧ (id = 0 → s.IsRoot X.own)) (Scan.symbol id) := by
  refine alike_program.bind fun p hp => beside_ofExcept fun s hs => ?_
  have hget : p.symbols[id]? = some s := by
    unfold symbol at hs
    split at hs
    next found hfound => rw [hfound, Except.ok.inj hs]
    · exact nomatch hs
  obtain ⟨hid, hreg⟩ := hp
  rw [← hid]
  refine ⟨hreg.within s (mem_of_getElem? hget), fun hzero => ?_⟩
  obtain ⟨r, hr, hroot⟩ := hreg.root
  rw [hzero, hr] at hget
  rw [← Option.some.inj hget]
  exact hroot

theorem alike_modifySymbol (id : Nat) (hf : ∀ s, (f s).heading = s.heading) :
    Same A (fun _ => True) (Scan.modifySymbol id f) :=
  alike_modifyProgram fun _ _ hp =>
    ⟨rfl, hp.modifySymbol_of_heading hf id, rfl, objectOf_modifySymbol hf id 0⟩

theorem alike_declare (parent : Nat) (hkind : s.kind ≠ .program) (hstored : s.stored = none) :
    Same A (fun _ => True) (Scan.declare parent s) := by
  -- a symbol without an object that is no program belongs anywhere
  have hs (i : ProgramId) : s.Within i := by
    refine ⟨fun o ho => ?_, fun h => absurd h hkind⟩
    rw [hstored] at ho
    exact nomatch ho
  refine alike_program.bind fun _ _ => ?_
  refine Work.Beside.bind (Q := fun _ => True) ?_ fun _ _ => beside_pure trivial
  exact alike_modifyProgram fun p _ hp =>
    ⟨rfl, hp.declare (hs p.id) parent s.name, rfl, hp.objectOf_declare s parent s.name⟩

/-! ### Reading -/

theorem alike_sourceText (files : SourceFiles) :
    Same A (fun _ => True) (Scan.sourceText files) := by
  refine alike_program.bind fun p _ => ?_
  cases p.text with
  | some => exact beside_pure trivial
  | none =>
    dsimp only
    -- the message about the encoding comes before the text is asked for
    cases (files.file p.path).text with
    | some =>
      split
      · exact (alike_log _ _ _).bind fun _ _ => beside_pure trivial
      · exact beside_pure trivial
    | none =>
      split
      · exact (alike_log _ _ _).bind fun _ _ => beside_throw _
      · exact beside_throw _

theorem alike_refreshTree (files : SourceFiles) :
    Same A (fun _ => True) (Scan.refreshTree files) := by
  have hread : Same A (fun _ => True) (Scan.readTree files) := by
    refine (alike_sourceText files).bind fun source _ => ?_
    refine (alike_ofExcept _).bind fun tree _ => ?_
    refine (alike_modifySymbol 0 ?_).bind fun _ _ => ?_
    · exact fun _ => rfl
    · exact alike_modifyProgram fun p _ hp =>
        ⟨rfl, ⟨hp.root, hp.within, forall_mem_nil _⟩, rfl, rfl⟩
  -- a reading that stops leaves its traces in both scans
  refine hread.attempt.bind fun outcome _ => ?_
  cases outcome with
  | ok => exact beside_pure trivial
  | error => exact alike_log _ _ _

theorem alike_ownerFor (kind : SymbolKind) (owner : Nat) :
    Same A (fun _ => True) (Scan.ownerFor kind owner) := by
  unfold Scan.ownerFor
  split
  · refine alike_program.bind fun p _ => ?_
    split
    · exact beside_pure trivial
    · exact beside_throw _
  · exact beside_pure trivial

omit hA in
theorem declaredKind_ne_program {n : Node} {kind : SymbolKind}
    (h : Scan.declaredKind n = some kind) : kind ≠ .program := by
  rintro rfl
  unfold Scan.declaredKind at h
  repeat' split at h
  all_goals exact nomatch h

theorem alike_declareNode (owner : Nat) (n : Node) :
    Same A (fun _ => True) (Scan.declareNode owner n) := by
  unfold Scan.declareNode
  split
  · exact beside_pure trivial
  next kind hkind =>
    refine (alike_ofExcept _).bind fun name _ => ?_
    -- no node declares a program, so that the new symbol has no source of its own
    refine (alike_ownerFor kind owner).bind fun parent _ => ?_
    cases name with
    | none => exact beside_throw _
    | some => exact alike_declare parent (declaredKind_ne_program hkind) rfl

omit hA in
mutual

theorem alike_declareIn [X.Lasting A] (owner : Nat) :
    ∀ e : Element, Same A (fun _ => True) (Scan.declareIn owner e)
  | .token _ => by
    rw [Scan.declareIn]
    exact beside_pure trivial
  | .node h cs => by
    rw [Scan.declareIn]
    exact (alike_declareNode owner ⟨h, cs⟩).bind fun id _ => alike_declareAll id cs

theorem alike_declareAll [X.Lasting A] (owner : Nat) :
    ∀ es : List Element, Same A (fun _ => True) (Scan.declareAll owner es)
  | [] => by
    rw [Scan.declareAll]
    exact beside_pure trivial
  | e :: es => by
    rw [Scan.declareAll]
    exact (alike_declareIn owner e).bind fun _ _ => alike_declareAll owner es

end

theorem alike_readProgram (files : SourceFiles) :
    Same A (fun _ => True) (Scan.readProgram files) := by
  refine (alike_refreshTree files).bind fun _ _ => ?_
  refine (alike_symbol 0).bind fun self _ => ?_
  split
  · exact beside_pure trivial
  · refine (alike_ofExcept _).bind fun root _ => ?_
    exact alike_declareAll 0 root.children

theorem alike_cleanWithin :
    ∀ fuel id : Nat, Same A (fun _ => True) (Scan.cleanWithin fuel id) := by
  intro fuel
  induction fuel with
  | zero => exact fun _ => beside_pure trivial
  | succ fuel ih =>
    intro id
    refine (alike_modifySymbol id ?_).bind fun _ _ => ?_
    · exact fun _ => rfl
    · exact alike_program.bind fun p _ => beside_forM fun id _ => ih id

theorem alike_clean (id : Nat) : Same A (fun _ => True) (Scan.clean id) :=
  alike_program.bind fun p _ => alike_cleanWithin p.symbols.length id

/-! ### Resolving -/

/-- Of another program, a name stands for the program itself. -/
theorem alike_lookUp (library : Option Library) (r : Reference) (o : Operand) :
    Same A (fun refs => ∀ ref ∈ refs, ref.program ≠ X.own → ref.symbol = 0)
      (Scan.lookUp library r o) := by
  refine alike_program.bind fun p hp => ?_
  split
  · -- the name of a program is looked up in the library, which gives programs only
    split
    · exact beside_throw _
    · exact beside_throw _
    · refine (alike_ofExcept _).bind fun entry _ => ?_
      refine beside_pure fun ref href _ => ?_
      cases entry with
      | none => exact absurd href not_mem_nil
      | some => rw [mem_singleton.mp href]
  · -- all other names are looked up in the program
    refine beside_pure fun ref href hne => ?_
    obtain ⟨id, -, rfl⟩ := mem_map.mp href
    exact absurd hp.1 hne

theorem alike_setResolved (statement : Nat) (role : Role) {refs : List SymbolRef}
    (hrefs : ∀ ref ∈ refs, ref.program ≠ X.own → ref.symbol = 0) :
    Same A (fun _ => True) (Scan.modifyProgram fun p => p.setResolved statement role refs) :=
  alike_modifyProgram fun _ hid hp => ⟨rfl, hp.setResolved (hid ▸ hrefs) statement role, rfl, rfl⟩

theorem alike_resolveReferences (library : Option Library) (n : Node) :
    ∀ rs : List Reference, Same A (fun _ => True) (Scan.resolveReferences library n rs) := by
  intro rs
  induction rs with
  | nil => exact beside_pure trivial
  | cons r rs ih =>
    refine (alike_ofExcept _).bind fun operand _ => ?_
    cases operand with
    | none => exact beside_pure trivial
    | some o =>
      refine (alike_lookUp library r o).bind fun refs hrefs => ?_
      exact (alike_setResolved n.head.number r.role hrefs).bind fun _ _ => ih

theorem alike_visits : Same A (fun _ => True) Scan.visits := by
  refine (alike_symbol 0).bind fun self _ => ?_
  split
  · exact beside_pure trivial
  · exact beside_pure trivial

theorem alike_resolve (files : SourceFiles) (library : Option Library) :
    Same A (fun _ => True) (Scan.resolve files library) := by
  have hvisit (v : Visit) : Same A (fun _ => True) (Scan.resolveVisit library v) := by
    unfold Scan.resolveVisit
    split
    · exact beside_pure trivial
    · split
      · exact alike_resolveReferences library _ _
      · exact beside_pure trivial
  have hall : Same A (fun _ => True) (Scan.visits >>=
      fun vs => vs.forM (Scan.resolveVisit library)) :=
    alike_visits.bind fun vs _ => beside_forM fun v _ => hvisit v
  refine (alike_symbol 0).bind fun self _ => ?_
  split
  · exact (alike_readProgram files).bind fun _ _ => hall
  · exact hall

end Surroundings

end EztScan
