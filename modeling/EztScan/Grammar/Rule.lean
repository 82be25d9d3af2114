import EztScan.Pattern.Keyword
import EztScan.Tree.Measure
import EztScan.Tree.Target

/-!
# Rules

A rule says how one kind of node is recognised. A block has an opening and a closing, and maybe a
header before the opening; a statement has an opening and a closing; a term has one pattern for its
whole shape. A part that a rule needs and does not have is a fault when it is asked for.

When a node is complete, its operands are noted (`Rule.complete`), each at the place where
statements of that kind have it.
-/

namespace EztScan

/-- Where a kind of statement has its operands. The words of a statement are counted without blanks
and comments. -/
inductive Completion where
  /-- There are none. -/
  | nothing
  /-- The second word. -/
  | second (role : Role)
  /-- The second word is a file; the fourth one, if there is one, is what is written to it. -/
  | fileAndFourth
  /-- The second word is a file, and it is also the source if `FROM` and another word follow. -/
  | fileAndFrom
  /-- The word after `INPUT`. -/
  | input
  /-- The second and the fourth word. -/
  | sort
deriving Repr, DecidableEq

/-- How a kind of node is recognised. -/
structure Rule where
  kind : NodeKind
  header : Option Pattern := none
  opening : Option Pattern := none
  closing : Option Pattern := none
  shape : Option Pattern := none
  /-- Does the node take in the elements that end it? -/
  takesEnd : Bool := true
  /-- May a block stand inside other blocks? -/
  nests : Bool := true
  /-- Does a statement end where another one begins? -/
  yields : Bool := false
  completion : Completion := .nothing

namespace Completion

/-- Notes the second word as an operand. -/
def noteSecond (role : Role) (n : Node) : Node × Option Fault :=
  match n.code with
  | _ :: e :: _ => (n.setOperand role e.toOperand, none)
  | _ => (n, some .exhausted)

/-- Notes the fourth word as the source, if there is one. -/
def noteFourth (n : Node) : Node :=
  match n.code with
  | _ :: _ :: _ :: e :: _ => n.setOperand .source e.toOperand
  | _ => n

/-- Notes the second word as the source if a word follows after `FROM`. -/
def noteFrom (n : Node) : Node :=
  match n.code with
  | _ :: e :: rest =>
    match ((Lookahead.ofList rest).moveTo [.word "FROM"]).2.next with
    | .ok _ => n.setOperand .source e.toOperand
    | .error _ => n
  | _ => n

/-- Notes the word after `INPUT`, if there is one. -/
def noteInput (n : Node) : Node :=
  match ((Lookahead.ofList n.code).moveTo [.word "INPUT"]).2.next with
  | .ok (e, _) => n.setOperand .input e.toOperand
  | .error _ => n

/-- Notes the second and the fourth word of a sort. -/
def noteSort (n : Node) : Node × Option Fault :=
  match n.code with
  | _ :: e :: _ :: f :: _ =>
    ((n.setOperand .sorted e.toOperand).setOperand .target f.toOperand, none)
  | _ :: e :: _ => (n.setOperand .sorted e.toOperand, some .exhausted)
  | _ => (n, some .exhausted)

/-- Notes the operands of a node. -/
def note (c : Completion) (n : Node) : Node × Option Fault :=
  match c with
  | .nothing => (n, none)
  | .second role => noteSecond role n
  | .fileAndFourth =>
    match noteSecond .file n with
    | (n, none) => (noteFourth n, none)
    | stopped => stopped
  | .fileAndFrom =>
    match noteSecond .file n with
    | (n, none) => (noteFrom n, none)
    | stopped => stopped
  | .input => (noteInput n, none)
  | .sort => noteSort n

/-! ### Nothing but the operands changes -/

theorem noteSecond_eq (role : Role) (n : Node) :
    ∃ operands, (noteSecond role n).1 = n.withOperands operands := by
  unfold noteSecond
  split <;> exact ⟨_, rfl⟩

theorem noteFourth_eq (n : Node) : ∃ operands, noteFourth n = n.withOperands operands := by
  unfold noteFourth
  split <;> exact ⟨_, rfl⟩

theorem noteFrom_eq (n : Node) : ∃ operands, noteFrom n = n.withOperands operands := by
  unfold noteFrom
  split
  · split <;> exact ⟨_, rfl⟩
  · exact ⟨_, rfl⟩

theorem noteInput_eq (n : Node) : ∃ operands, noteInput n = n.withOperands operands := by
  unfold noteInput
  split <;> exact ⟨_, rfl⟩

theorem noteSort_eq (n : Node) : ∃ operands, (noteSort n).1 = n.withOperands operands := by
  unfold noteSort
  split <;> exact ⟨_, rfl⟩

/-- The second word is noted, and then something else. -/
theorem noteSecond_then_eq {second : Node → Node}
    (hs : ∀ n, ∃ operands, second n = n.withOperands operands) (role : Role) (n : Node) :
    ∃ operands, (match noteSecond role n with
      | (n, none) => (second n, none)
      | stopped => stopped).1 = n.withOperands operands := by
  obtain ⟨operands, h⟩ := noteSecond_eq role n
  generalize noteSecond role n = stopped at h ⊢
  obtain ⟨n', fault⟩ := stopped
  obtain rfl : n' = n.withOperands operands := h
  cases fault with
  | none => exact hs _
  | some => exact ⟨operands, rfl⟩

theorem note_eq (c : Completion) (n : Node) :
    ∃ operands, (c.note n).1 = n.withOperands operands := by
  cases c with
  | nothing => exact ⟨_, rfl⟩
  | second role => exact noteSecond_eq role n
  | fileAndFourth => exact noteSecond_then_eq noteFourth_eq .file n
  | fileAndFrom => exact noteSecond_then_eq noteFrom_eq .file n
  | input => exact noteInput_eq n
  | sort => exact noteSort_eq n

end Completion

/-- Completes a node that the rule has recognised. -/
def Rule.complete (r : Rule) (n : Node) : Node × Option Fault :=
  r.completion.note n

end EztScan
