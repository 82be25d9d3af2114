import EztScan.Grammar.Index
import EztScan.Grouping.Ledger

/-!
# What a stage has on its desk

Grouping elements into nodes is done stage by stage, each stage with a grammar of its own. Between
two elements a stage keeps the comments that wait for what they belong to, the statement that is
open, and the blocks that are open, the innermost one first. All of it stays on the desk when a
source ends: the next source goes on from there.
-/

namespace EztScan

/-- A node that is not complete: its rule, what is known about it, and its children so far, the last
one first. A block is `attached` if it stands among the children of the block around it already. -/
structure OpenNode where
  rule : Rule
  head : Head
  made : List Element
  attached : Bool := false

namespace OpenNode

/-- The node as far as it goes. -/
def node (o : OpenNode) : Node :=
  ⟨o.head, o.made.reverse⟩

/-- Adds an element at the end. -/
def push (o : OpenNode) (e : Element) : OpenNode :=
  { o with made := e :: o.made }

/-- Adds elements at the end. -/
def pushAll (o : OpenNode) (es : List Element) : OpenNode :=
  { o with made := es.reverse ++ o.made }

/-- The open node with other content. -/
def withNode (o : OpenNode) (n : Node) : OpenNode :=
  { o with head := n.head, made := n.children.reverse }

/-- Changes the sections. -/
def mapSections (o : OpenNode) (f : Sections → Sections) : OpenNode :=
  { o with head := { o.head with sections := f o.head.sections } }

/-- Sets the number of elements of the closing. -/
def setClosing (o : OpenNode) (count : Nat) : OpenNode :=
  o.mapSections fun s => { s with closing := count }

/-- Completes the node by its rule. -/
def complete (o : OpenNode) : OpenNode × Option Fault :=
  let (n, fault) := o.rule.complete o.node
  (o.withNode n, fault)

@[simp] theorem node_push (o : OpenNode) (e : Element) :
    (o.push e).node = ⟨o.head, o.node.children ++ [e]⟩ := by
  simp [node, push]

@[simp] theorem node_pushAll (o : OpenNode) (es : List Element) :
    (o.pushAll es).node = ⟨o.head, o.node.children ++ es⟩ := by
  simp [node, pushAll]

@[simp] theorem node_withNode (o : OpenNode) (n : Node) : (o.withNode n).node = n := by
  simp [node, withNode]

/-- Completing a node changes nothing but its operands. -/
theorem complete_eq (o : OpenNode) :
    ∃ operands, o.complete.1 = o.withNode (o.node.withOperands operands) := by
  obtain ⟨operands, h⟩ := o.rule.completion.note_eq o.node
  exact ⟨operands, congrArg o.withNode h⟩

end OpenNode

/-- What a stage keeps between two elements. -/
structure Desk where
  comments : List Element := []
  statement : Option OpenNode := none
  stack : List OpenNode := []
  inHeader : Bool := false

namespace Desk

/-- The node with the kind of the block that it was put into. -/
def adopt (parent : OpenNode) (n : Node) : Node :=
  { n with head := { n.head with parent := some parent.head.kind.name } }

/-- The nodes that are open. -/
def openNodes (d : Desk) : List Node :=
  (d.statement.toList ++ d.stack).map OpenNode.node

/-- Puts an open block into the one around it, unless it is there, and so on outwards. -/
def attachFrom (o : OpenNode) : List OpenNode → List OpenNode
  | [] => [o]
  | parent :: rest =>
    { o with attached := true } ::
      attachFrom (if o.attached then parent else parent.push o.node.toElement) rest

/-- Puts each open block into the one around it. -/
def attachAll : List OpenNode → List OpenNode
  | [] => []
  | o :: rest => attachFrom o rest

end Desk

end EztScan
