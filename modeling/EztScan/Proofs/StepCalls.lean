import EztScan.Application
import EztScan.Proofs.Runs

/-!
# Calls from the steps of jobs

A step that runs the interpreter is linked to the program that it runs. Which one that is, the first
prototype decides to which the step has a link, other than the interpreter, even if it stands for no
program at all. So the calls depend on the order of these links, unless all prototypes of a step
lead to the same program, or none of them to any.

This is exactly the condition (`Application.callLinks_reordered_iff`): whichever prototype is moved
to the front, it decides from then on (`programOf_of_first`). Nothing else in the order of the links
matters. The condition is not needed where no call is made at all, because an object refuses to tell
its name or the host does not take such links.
-/

namespace EztScan.Application

open Work List

variable {a : Application} {j : Join} {step : Part}

/-! ### The calls in a journal -/

/-- The call that an entry makes. -/
def Entry.call? : Entry → Option (Int × Int)
  | .link .call caller callee _ => some (caller, callee)
  | _ => none

/-- The calls that have been made. -/
def Journal.calls (j : Journal) : List (Int × Int) :=
  j.entries.filterMap Entry.call?

/-- The calls that are made at the end of an application. -/
def callLinks (a : Application) : List (Int × Int) :=
  (a.finish.runOn {}).2.calls

/-- No calls have been made between two states. -/
def SameCalls (s t : Journal) : Prop :=
  t.calls = s.calls

instance : Std.Refl SameCalls := ⟨fun _ => rfl⟩

instance : Trans SameCalls SameCalls SameCalls := ⟨fun hst htu => htu.trans hst⟩

theorem calls_append (j : Journal) (e : Entry) :
    Journal.calls { j with entries := j.entries ++ [e] } = j.calls ++ e.call?.toList := by
  unfold Journal.calls
  rw [filterMap_append]
  cases h : e.call? with
  | none | some => simp [h]

theorem keeps_log (level : Level) (text : String) : Keeps SameCalls (log level text) :=
  keeps_modify fun j => (calls_append j _).trans (append_nil _)

theorem keeps_makeLink {kind : LinkKind} (hkind : kind ≠ .call) (caller callee : Part)
    (position : Option String) : Keeps SameCalls (a.makeLink kind caller callee position) := by
  have hcall : (Entry.link kind caller.id callee.id position).call? = none := by
    cases kind with
    | call => exact absurd rfl hkind
    | read | write | access | same => rfl
  have hmodify : Keeps SameCalls (modify fun j : Journal =>
      { j with entries := j.entries ++ [.link kind caller.id callee.id position] }) :=
    keeps_modify fun j => by
      unfold SameCalls
      rw [calls_append, hcall]
      exact append_nil _
  unfold makeLink
  split
  · exact (keeps_throw _).bind fun _ => hmodify
  · exact hmodify

theorem keeps_announce : Keeps SameCalls a.announce := by
  have hprototypes : Keeps SameCalls (a.prototypes.forM announcePrototype) :=
    keeps_forM fun _ _ => (keeps_ofExcept _).bind fun _ => keeps_log _ _
  exact (keeps_log _ _).bind fun _ => (keeps_log _ _).bind fun _ => (keeps_log _ _).bind fun _ =>
    (keeps_log _ _).bind fun _ =>
    hprototypes.bind fun _ => keeps_log _ _

theorem keeps_matchPrototype (program prototype : Part) :
    Keeps SameCalls (a.matchPrototype program prototype) := by
  unfold matchPrototype
  refine (keeps_ofExcept _).bind fun wanted => (keeps_ofExcept _).bind fun own => ?_
  split
  · exact keeps_makeLink (by decide) _ _ _
  · exact keeps_pure _

theorem keeps_makePending : Keeps SameCalls a.makePending := by
  unfold makePending
  refine Keeps.bind (keeps_modify fun _ => rfl) fun _ => keeps_get.bind fun j =>
    keeps_forM fun entry _ => ?_
  obtain ⟨dataSet, program, position⟩ := entry
  refine (keeps_makeLink (by decide) _ _ _).attempt.bind fun outcome => ?_
  cases outcome with
  | ok => exact keeps_modify fun _ => rfl
  | error => exact keeps_pure _

/-- What comes after some work does not matter if it makes no calls. -/
theorem calls_bind {α β : Type} {w : Work Journal α} {f : α → Work Journal β}
    (hf : ∀ x, Keeps SameCalls (f x)) (j : Journal) :
    ((w >>= f).runOn j).2.calls = (w.runOn j).2.calls := by
  refine of_runOn_bind (P := fun t : Journal => t.calls = (w.runOn j).2.calls) rfl fun x t ht => ?_
  rw [ht]
  exact hf x t

/-! ### What is made -/

/-- The work, begun in `s`, does not stop. -/
def Succeeds {α : Type} (w : Work Journal α) (s : Journal) : Prop :=
  ∃ x t, Runs w s x t

theorem succeeds_bind {α β : Type} {w : Work Journal α} {f : α → Work Journal β} {s : Journal}
    {P : Prop} (hf : ∀ x t, Succeeds (f x) t ↔ P) : Succeeds (w >>= f) s ↔ Succeeds w s ∧ P := by
  constructor
  · rintro ⟨y, u, h⟩
    obtain ⟨x, t, hw, hrest⟩ := runs_bind.mp h
    exact ⟨⟨x, t, hw⟩, (hf x t).mp ⟨y, u, hrest⟩⟩
  · rintro ⟨⟨x, t, hw⟩, hP⟩
    obtain ⟨y, u, hrest⟩ := (hf x t).mpr hP
    exact ⟨y, u, runs_bind.mpr ⟨x, t, hw, hrest⟩⟩

theorem succeeds_log (level : Level) (text : String) (s : Journal) :
    Succeeds (log level text) s ↔ True :=
  iff_true_intro ⟨(), _, rfl⟩

theorem succeeds_log_bind {β : Type} {level : Level} {text : String} {f : Unit → Work Journal β}
    {s : Journal} {P : Prop} (hf : ∀ t, Succeeds (f ()) t ↔ P) :
    Succeeds (log level text >>= f) s ↔ P := by
  rw [succeeds_bind fun _ => hf, succeeds_log, true_and]

theorem succeeds_announcePrototype (p : Part) (s : Journal) :
    Succeeds (announcePrototype p) s ↔ p.nameless = false := by
  have hname : Succeeds (Work.ofExcept p.tellName) s ↔ p.nameless = false := by
    unfold Part.tellName
    cases p.nameless with
    | true => exact iff_of_false (fun ⟨_, _, h⟩ => by cases h) Bool.noConfusion
    | false => exact iff_of_true ⟨_, _, rfl⟩ rfl
  exact (succeeds_bind fun _ _ => succeeds_log _ _ _).trans (by rw [hname, and_true])

theorem succeeds_forM_announcePrototype (ps : List Part) (s : Journal) :
    Succeeds (ps.forM announcePrototype) s ↔ ∀ p ∈ ps, p.nameless = false := by
  induction ps generalizing s with
  | nil => exact iff_of_true ⟨_, _, rfl⟩ (forall_mem_nil _)
  | cons p ps ih =>
    change Succeeds (announcePrototype p >>= fun _ => ps.forM announcePrototype) s ↔ _
    rw [succeeds_bind fun _ t => ih t, succeeds_announcePrototype, forall_mem_cons]

theorem succeeds_announce (a : Application) (s : Journal) :
    Succeeds a.announce s ↔ ∀ p ∈ a.prototypes, p.nameless = false := by
  refine succeeds_log_bind fun _ => succeeds_log_bind fun _ => succeeds_log_bind fun _ =>
    succeeds_log_bind fun t => ?_
  rw [succeeds_bind fun _ => succeeds_log _ _, succeeds_forM_announcePrototype, and_true]

/-- The prototypes tell their names, and the host takes links for calls. -/
def TakesCalls (a : Application) : Prop :=
  (∀ p ∈ a.prototypes, p.nameless = false) ∧ a.refused.contains LinkKind.call.name = false

theorem calls_forM_makeCall_of_refused (h : a.refused.contains LinkKind.call.name = true)
    (calls : List (Part × Part)) (s : Journal) :
    ((calls.forM a.makeCall).runOn s).2.calls = s.calls := by
  have hstep (c : Part × Part) : Keeps SameCalls (a.makeCall c) := by
    unfold makeCall makeLink
    rw [if_pos h]
    exact fun _ => rfl
  exact keeps_forM (fun c _ => hstep c) s

theorem calls_forM_makeCall (h : a.refused.contains LinkKind.call.name = false)
    (calls : List (Part × Part)) (s : Journal) :
    ((calls.forM a.makeCall).runOn s).2.calls = s.calls ++ calls.map fun c => (c.1.id, c.2.id) := by
  induction calls generalizing s with
  | nil => exact (append_nil _).symm
  | cons c calls ih =>
    have hrun : Runs (a.makeCall c) s ()
        { s with entries := s.entries ++ [.link .call c.1.id c.2.id none] } := by
      unfold makeCall makeLink
      rw [h]
      exact runs_modify.mpr rfl
    change ((a.makeCall c >>= fun _ => calls.forM a.makeCall).runOn s).2.calls = _
    rw [hrun.runOn_bind, ih, calls_append, append_assoc]
    rfl

/-- The calls that are made are those of the steps that run the interpreter, or none at all. -/
theorem mem_callLinks {call : Int × Int} :
    call ∈ a.callLinks ↔ a.TakesCalls ∧ ∃ c ∈ a.stepCalls, (c.1.id, c.2.id) = call := by
  have hbegin : (a.announce.runOn {}).2.calls = [] := keeps_announce {}
  by_cases hnames : ∀ p ∈ a.prototypes, p.nameless = false
  · obtain ⟨_, t, ht⟩ := (succeeds_announce a {}).mpr hnames
    rw [ht] at hbegin
    -- all that comes behind the calls makes none
    have hcalls : a.callLinks = ((a.stepCalls.forM a.makeCall).runOn t).2.calls := by
      unfold callLinks finish
      rw [ht.runOn_bind]
      refine calls_bind (fun _ => ?_) t
      refine Keeps.bind (keeps_forM fun _ _ => keeps_forM fun _ _ => keeps_matchPrototype _ _)
        fun _ => ?_
      refine Keeps.bind (keeps_forM fun _ _ => (keeps_ofExcept _).bind fun _ =>
        keeps_modify fun _ => rfl) fun _ => ?_
      exact keeps_makePending.bind fun _ => keeps_get.bind fun _ => keeps_log _ _
    cases hrefused : a.refused.contains LinkKind.call.name with
    | true =>
      rw [hcalls, calls_forM_makeCall_of_refused hrefused, hbegin]
      exact iff_of_false not_mem_nil fun h => absurd (h.1.2.symm.trans hrefused) Bool.false_ne_true
    | false =>
      rw [hcalls, calls_forM_makeCall hrefused, hbegin, nil_append, mem_map]
      exact (and_iff_right ⟨hnames, hrefused⟩).symm
  · have hcalls : a.callLinks = [] := by
      refine of_runOn_bind (P := fun t : Journal => t.calls = []) hbegin fun x t ht => ?_
      exact absurd ((succeeds_announce a {}).mp ⟨x, t, ht⟩) hnames
    rw [hcalls]
    exact iff_of_false not_mem_nil fun h => hnames h.1.1

/-! ### The program of a step -/

/-- The step runs the interpreter. -/
def Interprets (a : Application) (step : Part) : Prop :=
  ∃ j ∈ a.stepLinks [utilityType], j.callee.name = interpreterName ∧ j.caller = step

/-- The program with a name. -/
def programNamed (a : Application) (name : String) : Option Int :=
  (a.programs.find? (·.name == name)).map (·.id)

/-- Is this a link from the step to a prototype that can stand for the program it runs? -/
def decidesFor (step : Part) (j : Join) : Bool :=
  j.caller.id == step.id && j.callee.name != interpreterName

/-- All prototypes that can stand for the program of a step lead to the same one, or none of them to
any. -/
def PrototypesAgree (a : Application) (step : Part) : Prop :=
  ∀ j ∈ a.stepLinks [prototypeType], ∀ j' ∈ a.stepLinks [prototypeType], decidesFor step j = true →
    decidesFor step j' = true →
    a.programNamed j.callee.name = a.programNamed j'.callee.name

theorem programOf_eq (a : Application) (step : Part) : (a.programOf step).map (·.id) =
    ((a.stepLinks [prototypeType]).find? (decidesFor step)).bind fun j =>
      a.programNamed j.callee.name := by
  unfold programOf prototypeOf
  rw [Option.bind_map, Option.map_bind]
  rfl

/-- The calls of an application that takes them. A step is known by its number here, as it is when
its program is looked for. -/
theorem mem_callLinks_iff (h : a.TakesCalls) {s p : Int} : (s, p) ∈ a.callLinks ↔
    ∃ step, a.Interprets step ∧ step.id = s ∧ (a.programOf step).map (·.id) = some p := by
  rw [mem_callLinks, and_iff_right h]
  constructor
  · rintro ⟨c, hc, hids⟩
    obtain ⟨j, hj, hcall⟩ := mem_filterMap.mp hc
    split at hcall
    case isTrue hname =>
      obtain ⟨program, hprogram, rfl⟩ := Option.map_eq_some_iff.mp hcall
      obtain ⟨rfl, rfl⟩ := Prod.mk.inj hids
      exact ⟨j.caller, ⟨j, hj, hname, rfl⟩, rfl, by rw [hprogram]; rfl⟩
    case isFalse => cases hcall
  · rintro ⟨_, ⟨j, hj, hname, rfl⟩, rfl, hid⟩
    obtain ⟨program, hprogram, rfl⟩ := Option.map_eq_some_iff.mp hid
    exact ⟨(j.caller, program), mem_filterMap.mpr ⟨j, hj, by rw [if_pos hname, hprogram]; rfl⟩, rfl⟩

theorem mem_callLinks_of_interprets (h : a.TakesCalls) (hstep : a.Interprets step) {p : Int} :
    (step.id, p) ∈ a.callLinks ↔ (a.programOf step).map (·.id) = some p := by
  rw [mem_callLinks_iff h]
  constructor
  · rintro ⟨step', -, hid, hp⟩
    rw [← hp]
    unfold programOf prototypeOf
    rw [hid]
  · exact fun hp => ⟨step, hstep, rfl, hp⟩

/-- Where the prototypes agree, any of them tells the program. -/
theorem PrototypesAgree.programOf_eq_some (h : a.PrototypesAgree step) {p : Int} :
    (a.programOf step).map (·.id) = some p ↔
    ∃ j ∈ a.stepLinks [prototypeType], decidesFor step j = true ∧
      a.programNamed j.callee.name = some p := by
  rw [programOf_eq, Option.bind_eq_some_iff]
  constructor
  · rintro ⟨j, hj, hname⟩
    exact ⟨j, mem_of_find?_eq_some hj, find?_some hj, hname⟩
  · rintro ⟨j, hj, hdecides, hname⟩
    obtain ⟨first, hfirst⟩ := Option.isSome_iff_exists.mp (List.find?_isSome.mpr ⟨j, hj, hdecides⟩)
    refine ⟨first, hfirst, ?_⟩
    rw [h first (mem_of_find?_eq_some hfirst) j hj (find?_some hfirst) hdecides, hname]

/-! ### The order of the links -/

/-- The application with its links in another order. -/
def reordered (a : Application) (links : List PartLink) : Application :=
  { a with links }

/-- These are the links of the application with those from steps to prototypes in another order. -/
def Reorders (a : Application) (links : List PartLink) : Prop :=
  links.Perm a.links ∧
    links.filter (fun l => (a.join? [prototypeType] l).isNone) =
      a.links.filter fun l => (a.join? [prototypeType] l).isNone

variable {links : List PartLink}

theorem mem_stepLinks_reordered (h : links.Perm a.links) (types : List String) :
    j ∈ (a.reordered links).stepLinks types ↔ j ∈ a.stepLinks types :=
  (h.filterMap (a.join? types)).mem_iff

theorem interprets_reordered (h : links.Perm a.links) :
    (a.reordered links).Interprets step ↔ a.Interprets step :=
  exists_congr fun _ => and_congr_left' (mem_stepLinks_reordered h _)

theorem prototypesAgree_reordered (h : links.Perm a.links) :
    (a.reordered links).PrototypesAgree step ↔ a.PrototypesAgree step := by
  have hmem (j : Join) := mem_stepLinks_reordered (j := j) h [prototypeType]
  simp only [PrototypesAgree, hmem]
  rfl

/-- A prototype whose link is moved to the front decides which program the step runs. -/
theorem exists_reorders (hj : j ∈ a.stepLinks [prototypeType]) :
    ∃ links, a.Reorders links ∧ ∀ step, decidesFor step j = true →
      ((a.reordered links).programOf step).map (·.id) = a.programNamed j.callee.name := by
  obtain ⟨l, hl, hjoin⟩ := mem_filterMap.mp hj
  obtain ⟨before, rest, hlinks⟩ := append_of_mem hl
  have hsome : (a.join? [prototypeType] l).isNone = false := by rw [hjoin]; rfl
  refine ⟨l :: (before ++ rest), ⟨hlinks ▸ perm_middle.symm, ?_⟩, fun step hdecides => ?_⟩
  · simp [hlinks, hsome]
  · have hfirst : (a.reordered (l :: (before ++ rest))).stepLinks [prototypeType]
        = j :: (before ++ rest).filterMap (a.join? [prototypeType]) := filterMap_cons_some hjoin
    rw [programOf_eq, hfirst, find?_cons_of_pos hdecides]
    rfl

/-- **The calls are the same for every order of the links to prototypes exactly if the prototypes of
each step that runs the interpreter agree on its program.** -/
theorem callLinks_reordered_iff (a : Application) :
    (∀ links, a.Reorders links → ∀ call, call ∈ (a.reordered links).callLinks ↔
      call ∈ a.callLinks) ↔
      (a.TakesCalls → ∀ step, a.Interprets step → a.PrototypesAgree step) := by
  constructor
  · intro horder htakes step hstep
    -- Each prototype can come first, and then it decides; so what it says is what is said now.
    have hjoin (j : Join) (hj : j ∈ a.stepLinks [prototypeType])
      (hdecides : decidesFor step j = true) :
        a.programNamed j.callee.name = (a.programOf step).map (·.id) := by
      obtain ⟨links, hlinks, hfirst⟩ := exists_reorders hj
      ext p
      rw [← hfirst step hdecides, ← mem_callLinks_of_interprets htakes hstep, ← horder links hlinks]
      have hsame := (interprets_reordered hlinks.1).mpr hstep
      exact (mem_callLinks_of_interprets (a := a.reordered links) htakes hsame).symm
    intro j hj j' hj' hdecides hdecides'
    rw [hjoin j hj hdecides, hjoin j' hj' hdecides']
  · intro hagree links hlinks call
    by_cases htakes : a.TakesCalls
    · rw [mem_callLinks_iff htakes, mem_callLinks_iff (a := a.reordered links) htakes]
      refine exists_congr fun step => ?_
      rw [interprets_reordered hlinks.1]
      refine and_congr_right fun hstep => and_congr_right fun _ => ?_
      have hsame := hagree htakes step hstep
      rw [hsame.programOf_eq_some,
        ((prototypesAgree_reordered hlinks.1).mpr hsame).programOf_eq_some]
      exact exists_congr fun _ => and_congr_left' (mem_stepLinks_reordered hlinks.1 _)
    · rw [mem_callLinks, mem_callLinks]
      exact iff_of_false (fun h => htakes h.1) fun h => htakes h.1

/-- A step that runs the interpreter and refers to two prototypes. Only the second one has the name
of a program. -/
def twoPrototypes : Application where
  parts := [⟨1, "STEP", stepType, false⟩, ⟨2, interpreterName, utilityType, false⟩,
    ⟨3, "OTHER", prototypeType, false⟩,
    ⟨4, "MAIN", prototypeType, false⟩, ⟨5, "MAIN", programType, false⟩]
  links := [⟨1, 2, []⟩, ⟨1, 3, []⟩, ⟨1, 4, []⟩]

/-- The step calls the program only if the prototype with its name comes first. -/
theorem callLinks_twoPrototypes :
    twoPrototypes.callLinks = [] ∧ twoPrototypes.Reorders [⟨1, 2, []⟩, ⟨1, 4, []⟩, ⟨1, 3, []⟩] ∧
    (twoPrototypes.reordered [⟨1, 2, []⟩, ⟨1, 4, []⟩, ⟨1, 3, []⟩]).callLinks = [(1, 5)] := by
  refine ⟨by decide +kernel, ⟨.cons _ (.swap _ _ _), by decide +kernel⟩, by decide +kernel⟩

end EztScan.Application
