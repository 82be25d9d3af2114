import EztScan.Language.Form
import Mathlib.Data.List.Forall2
import Mathlib.Data.List.Infix

/-!
# What a path describes

A path describes a way if the way can be cut into pieces, one behind the other and one for each
step: any piece for a step that stands for anything, and a single node of the right kind for any
other step (`PathStep.Cuts`).

The steps are compared with the way from its end, and a step that stands for anything is tried in
two ways: with nothing, and with one node more. Cutting has the same two cases
(`cuts_anything_cons`), and it does not matter from which end one cuts (`cuts_reverse`). The two
part only where the way has come to its end: there one last step is left over in the comparison, but
any number of steps in a cut. So paths with the same step for anything twice in a row are left out.
-/

namespace EztScan.PathStep

open List

variable {step : PathStep} {steps : List PathStep} {way : List NodeKind}
variable {name : String} {k : NodeKind}

/-- The piece of a way that a step stands for. -/
def Takes : PathStep → List NodeKind → Prop
  | .anything, _ => True
  | .kind name, piece => ∃ k, piece = [k] ∧ k.isA name = true

/-- The way can be cut into pieces, one for each step. -/
def Cuts (steps : List PathStep) (way : List NodeKind) : Prop :=
  ∃ pieces : List (List NodeKind), pieces.flatten = way ∧ List.Forall₂ Takes steps pieces

/-- Nowhere does the path say twice in a row that anything may come. -/
def IsSimple (steps : List PathStep) : Prop :=
  ¬ [.anything, .anything] <:+: steps

instance (steps : List PathStep) : Decidable (IsSimple steps) :=
  inferInstanceAs (Decidable (¬ [.anything, .anything] <:+: steps))

/-! ### Cuts from the front -/

section Cuts

variable {steps : List PathStep} {way : List NodeKind}

theorem cuts_nil : Cuts [] way ↔ way = [] := by
  constructor
  · rintro ⟨pieces, rfl, hpieces⟩
    rw [forall₂_nil_left_iff.mp hpieces, flatten_nil]
  · rintro rfl
    exact ⟨[], rfl, .nil⟩

/-- The first piece of a cut, and the cut of what is behind it. -/
theorem cuts_cons :
    Cuts (step :: steps) way ↔ ∃ piece rest, way = piece ++ rest ∧ step.Takes piece ∧
      Cuts steps rest := by
  constructor
  · rintro ⟨_, rfl, hall⟩
    obtain ⟨piece, pieces, hpiece, hpieces, rfl⟩ := forall₂_cons_left_iff.mp hall
    exact ⟨piece, pieces.flatten, flatten_cons, hpiece, pieces, rfl, hpieces⟩
  · rintro ⟨piece, rest, rfl, hpiece, pieces, rfl, hpieces⟩
    exact ⟨piece :: pieces, flatten_cons, .cons hpiece hpieces⟩

theorem cuts_kind_cons :
    Cuts (.kind name :: steps) (k :: way) ↔ k.isA name = true ∧ Cuts steps way := by
  rw [cuts_cons]
  constructor
  · rintro ⟨_, rest, hway, ⟨k', rfl, hk⟩, hrest⟩
    obtain ⟨rfl, rfl⟩ := List.cons.inj hway
    exact ⟨hk, hrest⟩
  · rintro ⟨hk, hrest⟩
    exact ⟨[k], way, rfl, ⟨k, rfl, hk⟩, hrest⟩

theorem not_cuts_kind_cons_nil : ¬ Cuts (.kind name :: steps) [] := by
  rw [cuts_cons]
  rintro ⟨_, rest, hway, ⟨k, rfl, -⟩, -⟩
  exact cons_ne_nil _ _ hway.symm

theorem cuts_anything_cons_nil : Cuts (.anything :: steps) [] ↔ Cuts steps [] := by
  rw [cuts_cons]
  constructor
  · rintro ⟨piece, rest, hway, -, hrest⟩
    rwa [(nil_eq_append_iff.mp hway).2] at hrest
  · exact fun h => ⟨[], [], rfl, trivial, h⟩

/-- Where anything may come, either nothing comes or one node, and then again anything. -/
theorem cuts_anything_cons :
    Cuts (.anything :: steps) (k :: way) ↔ Cuts steps (k :: way) ∨
      Cuts (.anything :: steps) way := by
  rw [cuts_cons, cuts_cons]
  constructor
  · rintro ⟨piece, rest, hway, -, hrest⟩
    cases piece with
    | nil =>
      rw [nil_append] at hway
      exact .inl (hway ▸ hrest)
    | cons k' piece =>
      obtain ⟨rfl, rfl⟩ := List.cons.inj hway
      exact .inr ⟨piece, rest, rfl, trivial, hrest⟩
  · rintro (h | ⟨piece, rest, rfl, -, hrest⟩)
    · exact ⟨[], k :: way, rfl, trivial, h⟩
    · exact ⟨k :: piece, rest, rfl, trivial, hrest⟩

end Cuts

/-! ### Cuts from the end -/

theorem Takes.reverse {piece : List NodeKind} (h : step.Takes piece) :
    step.Takes piece.reverse := by
  cases step with
  | anything => trivial
  | kind =>
    obtain ⟨k, rfl, hk⟩ := h
    exact ⟨k, rfl, hk⟩

theorem Cuts.reverse (h : Cuts steps way) : Cuts steps.reverse way.reverse := by
  obtain ⟨pieces, rfl, hpieces⟩ := h
  refine ⟨(pieces.map List.reverse).reverse, reverse_flatten.symm, ?_⟩
  have hback : List.Forall₂ Takes steps (pieces.map List.reverse) := by
    rw [forall₂_map_right_iff]
    exact hpieces.imp fun _ _ => Takes.reverse
  exact rel_reverse hback

theorem cuts_reverse : Cuts steps.reverse way.reverse ↔ Cuts steps way := by
  refine ⟨fun h => ?_, Cuts.reverse⟩
  have hback := h.reverse
  rwa [reverse_reverse, reverse_reverse] at hback

theorem IsSimple.reverse (h : IsSimple steps) : IsSimple steps.reverse :=
  fun hinfix => h (List.reverse_infix.mp hinfix)

theorem IsSimple.tail (h : IsSimple (step :: steps)) : IsSimple steps :=
  fun hinfix => h (infix_cons hinfix)

/-! ### Comparing and cutting -/

/-- At the end of the way, one step for anything may be left. -/
theorem cuts_nil_iff_of_isSimple (h : IsSimple (step :: steps)) :
    Cuts (step :: steps) [] ↔ step = .anything ∧ steps = [] := by
  cases step with
  | kind => exact iff_of_false not_cuts_kind_cons_nil fun heq => nomatch heq.1
  | anything =>
    rw [cuts_anything_cons_nil, and_iff_right rfl]
    cases steps with
    | nil => exact iff_of_true (cuts_nil.mpr rfl) rfl
    | cons next steps =>
      refine iff_of_false (fun hcuts => ?_) (cons_ne_nil _ _)
      cases next with
      | kind => exact not_cuts_kind_cons_nil hcuts
      | anything => exact h (prefix_append [.anything, .anything] steps).isInfix

/-- Comparing from the end and cutting go on in the same cases. -/
theorem describeBackwards_iff_cuts (h : IsSimple steps) :
    describeBackwards steps way = true ↔ Cuts steps way := by
  fun_induction describeBackwards steps way with
  | case1 way => rw [cuts_nil, List.isEmpty_iff]
  | case2 step steps =>
    rw [cuts_nil_iff_of_isSimple h, Bool.and_eq_true, decide_eq_true_iff, List.isEmpty_iff]
  | case3 steps k way ihNothing ihMore =>
    rw [cuts_anything_cons, Bool.or_eq_true, ihNothing h.tail, ihMore h]
  | case4 steps k way name ih =>
    rw [cuts_kind_cons, Bool.and_eq_true, ih h.tail]

/-- **A path describes the ways that can be cut along its steps**: into pieces one behind the other,
any piece for a step that stands for anything, and a single node of its kind, or of a kind below it,
for any other step. -/
theorem describe_iff_cuts {steps : List PathStep} (h : IsSimple steps) (way : List NodeKind) :
    describe steps way = true ↔ Cuts steps way := by
  unfold describe
  rw [describeBackwards_iff_cuts h.reverse, cuts_reverse]

/-- The procedure is a statement, and so is the program around it. -/
theorem describe_iff_cuts_procedure :
    IsSimple [.anything, .kind "Statement", .anything, .kind "Node"] ∧
      describe [.anything, .kind "Statement", .anything, .kind "Node"]
        [Language.program.kind, Language.procedure.kind, Language.perform.kind] = true := by
  refine ⟨by decide, (describe_iff_cuts (by decide) _).mpr ?_⟩
  refine ⟨[[Language.program.kind], [Language.procedure.kind], [], [Language.perform.kind]], rfl,
    ?_⟩
  exact .cons trivial (.cons ⟨_, rfl, by decide⟩ (.cons trivial (.cons ⟨_, rfl, by decide⟩ .nil)))

end EztScan.PathStep
