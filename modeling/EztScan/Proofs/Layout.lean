import EztScan.Proofs.Readings
import EztScan.Proofs.Neat

/-!
# The layout of a node

A node that was made from a rule begins with the comments in front of it, then come its opening, its
inner part and its closing. `Node.Laid` names these parts, and the sections of the node give them
back. The operands of a node depend on its code only (`Rule.operandsOf`), and their names not on the
places of its words (`Rule.operandNames_congr`).
-/

namespace EztScan

open Element Element List

/-! ### Parts of a node -/

/-- A node is made of these parts one after the other, and its sections say so. -/
structure Node.Laid (n : Node) (comments opening body closing : List Element) : Prop where
  children : n.children = comments ++ opening ++ body ++ closing
  sections : n.head.sections =
    { comments := comments.length, opening := opening.length, closing := closing.length }
  idle : ∀ e ∈ comments, e.isCode = false

namespace Node.Laid

variable {n : Node} {comments opening body closing : List Element}
  (h : n.Laid comments opening body closing)

include h

theorem fit : n.head.sections.Fit n.children := by
  rw [h.sections, h.children]
  refine ⟨Int.natCast_nonneg _, Int.le_refl 0, Int.natCast_nonneg _, Int.natCast_nonneg _, ?_, ?_⟩
  · simp only [length_append]
    omega
  · rw [Int.toNat_natCast, append_assoc, append_assoc, take_left]
    exact h.idle

theorem front : n.front = comments ++ opening := by
  have hstart : n.innerStart = ((comments ++ opening).length : Int) := by
    unfold innerStart bodyStart
    rw [h.sections, length_append]
    dsimp only
    omega
  unfold Node.front
  rw [placeOf_innerStart h.fit, hstart, Int.toNat_natCast, h.children, append_assoc, take_left]

theorem inner : n.inner = body := by
  have hback : closing.length = n.back.length := by
    have hlength := n.length_back h.fit
    rw [h.sections] at hlength
    exact Int.natCast_inj.mp hlength.symm
  have hfront : (comments ++ opening).length = n.front.length := by rw [h.front]
  have hbody : Node.inner ⟨n.head, comments ++ opening ++ body ++ closing⟩ = body :=
    inner_of_parts h.fit hfront hback
  rw [← h.children] at hbody
  exact hbody

theorem back : n.back = closing := by
  have hparts := n.front_append_inner_append_back h.fit
  rw [h.front, h.inner, h.children] at hparts
  exact append_cancel_left hparts

/-- The node with another inner part. -/
theorem replace (middle : List Element) :
    Node.Laid ⟨n.head, n.front ++ middle ++ n.back⟩ comments opening middle closing :=
  ⟨by rw [h.front, h.back], h.sections, h.idle⟩

theorem code : n.code = Element.code opening ++ Element.code body ++ Element.code closing := by
  unfold Node.code
  rw [h.children, code_append, code_append, code_append, code_eq_nil h.idle, nil_append]

end Node.Laid

/-! ### Moving to a word -/

namespace Lookahead

/-- The elements behind the first target, or behind the first one that cannot be compared. -/
def afterTarget (targets : List Target) : List Element → List Element
  | [] => []
  | e :: es =>
    match e.isTarget targets with
    | .ok false => afterTarget targets es
    | _ => es

theorem moveTo_ofList (targets : List Target) (es : List Element) :
    ((ofList es).moveTo targets).2 = ofList (afterTarget targets es) := by
  -- each element that is no target is passed over
  have hwithin : ∀ (es : List Element) (fuel : Nat), es.length < fuel →
      (moveToWithin targets fuel (ofList es)).2 = ofList (afterTarget targets es) := by
    intro es
    induction es with
    | nil =>
      intro fuel hfuel
      obtain ⟨fuel, rfl⟩ := Nat.exists_eq_add_of_lt hfuel
      rfl
    | cons e es ih =>
      intro fuel hfuel
      cases fuel with
      | zero => exact absurd hfuel (Nat.not_lt_zero _)
      | succ fuel =>
        have hnext : (ofList (e :: es)).next = .ok (e, ofList es) := rfl
        unfold moveToWithin afterTarget
        rw [hnext]
        dsimp only
        cases htarget : e.isTarget targets with
        | error => rfl
        | ok found =>
          cases found with
          | true => rfl
          | false => exact ih fuel (Nat.lt_of_succ_lt_succ hfuel)
  exact hwithin es _ (Nat.lt_succ_self _)

end Lookahead

theorem Element.Alike.isTarget {e e' : Element} (h : Alike e e') (targets : List Target) :
    e.isTarget targets = e'.isTarget targets := by
  cases h with
  | @token t u text kind sensitive =>
    have htext : t.hasTargetText targets = u.hasTargetText targets := by
      induction targets with
      | nil => rfl
      | cons target targets ih =>
        cases target with
        | word =>
          unfold Token.hasTargetText Token.equalsText
          rw [ih, text, sensitive]
        | kind =>
          unfold Token.hasTargetText
          rw [ih, text, sensitive]
    have hkind : t.hasTargetKind targets = u.hasTargetKind targets := by
      unfold Token.hasTargetKind
      rw [kind]
    unfold Element.isTarget
    dsimp only
    rw [htext, hkind]
  | node => rfl

/-! ### Operands -/

namespace Completion

open Lookahead

section Congr

variable {β : Type} {f : Operand → β} {R : Element → Element → Prop}

/-- Two nodes have operands with the same roles that `f` does not tell apart. -/
def SameOperands (f : Operand → β) (n m : Node) : Prop :=
  n.head.operands.map (Prod.map id f) = m.head.operands.map (Prod.map id f)

theorem SameOperands.set {n m : Node} (h : SameOperands f n m) (role : Role) {o o' : Operand}
    (ho : f o = f o') : SameOperands f (n.setOperand role o) (m.setOperand role o') := by
  have hothers : ∀ ops : List (Role × Operand),
    (ops.filter fun p => p.1 != role).map (Prod.map id f) =
      (ops.map (Prod.map id f)).filter fun p => p.1 != role := by
    intro ops
    rw [filter_map]
    rfl
  unfold SameOperands at h ⊢
  change ((n.head.operands.filter _) ++ [_]).map _ = ((m.head.operands.filter _) ++ [_]).map _
  rw [map_append, map_append, hothers, hothers, h]
  change _ ++ [(role, f o)] = _ ++ [(role, f o')]
  rw [ho]

theorem forall₂_afterTarget (hR : ∀ {e e'}, R e e' → Alike e e') (targets : List Target)
    {es es' : List Element} (h : Forall₂ R es es') :
    Forall₂ R (afterTarget targets es) (afterTarget targets es') := by
  induction h with
  | nil => exact .nil
  | @cons e e' es es' he hes ih =>
    unfold afterTarget
    rw [(hR he).isTarget targets]
    cases e'.isTarget targets with
    | error => exact hes
    | ok found =>
      cases found with
      | true => exact hes
      | false => exact ih

theorem code_noteSecond (role : Role) (n : Node) : (noteSecond role n).1.code = n.code := by
  obtain ⟨operands, h⟩ := noteSecond_eq role n
  rw [h]
  rfl

variable {n m : Node} (hR : ∀ {e e'}, R e e' → Alike e e' ∧ f e.toOperand = f e'.toOperand)
  (hcode : Forall₂ R n.code m.code) (hops : SameOperands f n m)

include hR hcode hops

theorem noteSecond_congr (role : Role) :
    SameOperands f (noteSecond role n).1 (noteSecond role m).1 ∧
      (noteSecond role n).2 = (noteSecond role m).2 := by
  unfold noteSecond
  generalize n.code = es at hcode
  generalize m.code = es' at hcode
  rcases hcode with _ | ⟨_, _ | ⟨he, _⟩⟩
  · exact ⟨hops, rfl⟩
  · exact ⟨hops, rfl⟩
  · exact ⟨hops.set role (hR he).2, rfl⟩

theorem noteFourth_congr : SameOperands f (noteFourth n) (noteFourth m) := by
  unfold noteFourth
  generalize n.code = es at hcode
  generalize m.code = es' at hcode
  rcases hcode with _ | ⟨_, _ | ⟨_, _ | ⟨_, _ | ⟨he, _⟩⟩⟩⟩
  · exact hops
  · exact hops
  · exact hops
  · exact hops
  · exact hops.set .source (hR he).2

theorem noteFrom_congr : SameOperands f (noteFrom n) (noteFrom m) := by
  unfold noteFrom
  generalize n.code = es at hcode
  generalize m.code = es' at hcode
  rcases hcode with _ | ⟨_, _ | ⟨he, hes⟩⟩
  · exact hops
  · exact hops
  · have hafter := forall₂_afterTarget (fun h => (hR h).1) [.word "FROM"] hes
    dsimp only
    rw [moveTo_ofList, moveTo_ofList]
    generalize afterTarget _ _ = ds at hafter
    generalize afterTarget _ _ = ds' at hafter
    cases hafter with
    | nil => exact hops
    | cons => exact hops.set .source (hR he).2

theorem noteInput_congr : SameOperands f (noteInput n) (noteInput m) := by
  have hafter := forall₂_afterTarget (fun h => (hR h).1) [.word "INPUT"] hcode
  unfold noteInput
  rw [moveTo_ofList, moveTo_ofList]
  generalize afterTarget _ n.code = ds at hafter
  generalize afterTarget _ m.code = ds' at hafter
  cases hafter with
  | nil => exact hops
  | cons he => exact hops.set .input (hR he).2

theorem noteSort_congr :
    SameOperands f (noteSort n).1 (noteSort m).1 ∧ (noteSort n).2 = (noteSort m).2 := by
  unfold noteSort
  generalize n.code = es at hcode
  generalize m.code = es' at hcode
  rcases hcode with _ | ⟨_, _ | ⟨he, _ | ⟨_, _ | ⟨he', _⟩⟩⟩⟩
  · exact ⟨hops, rfl⟩
  · exact ⟨hops, rfl⟩
  · exact ⟨hops.set .sorted (hR he).2, rfl⟩
  · exact ⟨hops.set .sorted (hR he).2, rfl⟩
  · exact ⟨(hops.set .sorted (hR he).2).set .target (hR he').2, rfl⟩

/-- The second word is noted, and then something else. -/
theorem noteSecond_then_congr {second : Node → Node} (role : Role)
    (hsecond : ∀ {n m : Node}, Forall₂ R n.code m.code → SameOperands f n m →
      SameOperands f (second n) (second m)) :
    let after := fun n => match noteSecond role n with
      | (n, none) => (second n, none)
      | stopped => stopped
    SameOperands f (after n).1 (after m).1 ∧ (after n).2 = (after m).2 := by
  obtain ⟨hsame, hfault⟩ := noteSecond_congr hR hcode hops role
  rw [← code_noteSecond role n, ← code_noteSecond role m] at hcode
  dsimp only
  generalize noteSecond role n = x at hsame hfault hcode
  generalize noteSecond role m = y at hsame hfault hcode
  obtain ⟨n', fault⟩ := x
  obtain ⟨m', fault'⟩ := y
  obtain rfl : fault = fault' := hfault
  cases fault with
  | none => exact ⟨hsecond hcode hsame, rfl⟩
  | some => exact ⟨hsame, rfl⟩

/-- What is noted of two nodes is the same as far as their code and what has been noted before are
the same, and so is the fault. -/
theorem note_congr (c : Completion) :
    SameOperands f (c.note n).1 (c.note m).1 ∧ (c.note n).2 = (c.note m).2 := by
  cases c with
  | nothing => exact ⟨hops, rfl⟩
  | second role => exact noteSecond_congr hR hcode hops role
  | fileAndFourth => exact noteSecond_then_congr hR hcode hops .file (noteFourth_congr hR)
  | fileAndFrom => exact noteSecond_then_congr hR hcode hops .file (noteFrom_congr hR)
  | input => exact ⟨noteInput_congr hR hcode hops, rfl⟩
  | sort => exact noteSort_congr hR hcode hops

end Congr

end Completion

namespace Rule

open Completion

/-- The operands of a node with this code that the rule has made. -/
def operandsOf (r : Rule) (code : List Element) : List (Role × Operand) :=
  (r.complete ⟨{ kind := r.kind }, code⟩).1.head.operands

/-- The fault in completing a node with this code. -/
def faultOf (r : Rule) (code : List Element) : Option Fault :=
  (r.complete ⟨{ kind := r.kind }, code⟩).2

/-- The roles and names of the operands of a node with this code. -/
def operandNames (r : Rule) (code : List Element) : List (Role × Option String) :=
  (r.operandsOf code).map (Prod.map id Operand.name)

theorem code_code (es : List Element) : code (code es) = code es := by
  unfold code
  rw [filter_filter]
  simp

/-- Completing a node looks at its code only. -/
theorem complete_eq (r : Rule) {n : Node} (hops : n.head.operands = []) :
    (r.complete n).1.head.operands = r.operandsOf n.code ∧ (r.complete n).2 = r.faultOf n.code := by
  have hcode : Forall₂ Eq n.code (Node.code ⟨{ kind := r.kind }, n.code⟩) := by
    rw [forall₂_eq_eq_eq]
    exact (code_code n.children).symm
  have hsame : SameOperands id n ⟨{ kind := r.kind }, n.code⟩ := by
    unfold SameOperands
    rw [hops]
  obtain ⟨hmap, hfault⟩ :=
    note_congr (R := Eq) (fun h => ⟨h ▸ .refl _, h ▸ rfl⟩) hcode hsame r.completion
  refine ⟨?_, hfault⟩
  unfold SameOperands at hmap
  rw [Prod.map_id, map_id, map_id] at hmap
  exact hmap

/-- The names of operands, and the fault, do not depend on the places of words. -/
theorem operandNames_congr (r : Rule) {es es' : List Element} (h : Forall₂ Alike es es') :
    r.operandNames es = r.operandNames es' ∧ r.faultOf es = r.faultOf es' := by
  have hname : ∀ {e e' : Element}, Alike e e' → e.toOperand.name = e'.toOperand.name := by
    intro e e' h
    cases h with
    | token text => exact text
    | node => rfl
  exact note_congr (n := ⟨{ kind := r.kind }, es⟩) (m := ⟨{ kind := r.kind }, es'⟩)
    (fun h => ⟨h, hname h⟩)
    (forall₂_code (fun _ _ h => h) h) rfl r.completion

end Rule

/-- What an open node is when it is complete. -/
theorem OpenNode.node_complete {o o' : OpenNode} {fault : Option Fault}
    (hops : o.head.operands = []) (h : o.complete = (o', fault)) :
    o'.node = o.node.withOperands (o.rule.operandsOf o.node.code) ∧
      fault = o.rule.faultOf o.node.code := by
  obtain ⟨hoperands, hfault⟩ := o.rule.complete_eq (n := o.node) hops
  obtain ⟨operands, rfl⟩ := eq_of_complete h
  have hnode : (o.rule.complete o.node).1.head.operands = operands :=
    congrArg (fun x => x.1.head.operands) h
  have hfault' : (o.rule.complete o.node).2 = fault := congrArg Prod.snd h
  rw [node_withNode, ← hoperands, hnode, ← hfault, hfault']
  exact ⟨rfl, rfl⟩

end EztScan
