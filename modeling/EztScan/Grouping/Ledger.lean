import EztScan.Tree.Basic
import EztScan.Work

/-!
# The ledger of nodes

A parser numbers the nodes it makes. It also notes every node whose children change, under its
number and with the latest change first. Within one source nobody asks for these notes: each node
stands in one place only. But a node that a source leaves open goes on to the next stage and stays
with the stage that holds it open, so that from then on it stands in two places: such nodes are
shared, and the latest note says what they have become. Which nodes are shared does not change while
a source is read, so their numbers are not part of the ledger.
-/

namespace EztScan

/-- How many numbers have been given, and the latest content of nodes. -/
structure Ledger where
  next : Nat := 0
  notes : List (Nat × Node) := []

namespace Ledger

/-- Notes what a node has become. -/
def note (l : Ledger) (n : Node) : Ledger :=
  { l with notes := (n.head.number, n) :: l.notes }

/-- What a node has become, if it is one of those that stand in several places. -/
def current (l : Ledger) (shared : List Nat) (n : Node) : Node :=
  if shared.contains n.head.number then (l.notes.lookup n.head.number).getD n else n

/-- Replaces nodes by what they have become, at all depths up to `fuel`. -/
def refreshWithin (l : Ledger) : Nat → Element → Element
  | _, .token t => .token t
  | 0, .node h cs => .node h cs
  | fuel + 1, .node h cs =>
    let n := (l.notes.lookup h.number).getD ⟨h, cs⟩
    .node n.head (n.children.map (l.refreshWithin fuel))

/-- Replaces nodes by what they have become. No node is inside itself, so that on the way to a token
there are at most as many nodes as there are numbers. -/
def refresh (l : Ledger) (e : Element) : Element :=
  l.refreshWithin (l.next + 1) e

/-- A node with all that is in it replaced by what it has become. -/
def refreshNode (l : Ledger) (n : Node) : Node :=
  match l.refresh n.toElement with
  | .node h cs => ⟨h, cs⟩
  | .token _ => n

/-- The ledger without its notes. -/
def settle (l : Ledger) : Ledger :=
  { l with notes := [] }

@[simp] theorem current_nil (l : Ledger) (n : Node) : l.current [] n = n := by
  simp [current]

end Ledger

/-- Gives a number to a new node. -/
def newNumber : Work Ledger Nat := do
  let l ← get
  set { l with next := l.next + 1 }
  return l.next

end EztScan
