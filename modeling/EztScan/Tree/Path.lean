import EztScan.Tree.Basic

/-!
# Paths of nodes

A description of the way from the root of a tree to a node, as a list of steps: a node of some kind,
or any number of nodes. The way is given by the kinds of its nodes, and is compared from the end.
-/

namespace EztScan

/-- A step of a path. -/
inductive PathStep where
  /-- Any number of nodes. -/
  | anything
  /-- A node of the kind with this name. -/
  | kind (name : String)
deriving Repr, DecidableEq

namespace PathStep

/-- Do the steps describe the way? Both are given with the last one first. -/
def describeBackwards : List PathStep → List NodeKind → Bool
  | [], way => way.isEmpty
  | step :: steps, [] => step = .anything && steps.isEmpty
  | .anything :: steps, k :: way =>
    describeBackwards steps (k :: way) || describeBackwards (.anything :: steps) way
  | .kind name :: steps, k :: way => k.isA name && describeBackwards steps way
termination_by steps way => steps.length + way.length

/-- Do the steps describe the way? -/
def describe (steps : List PathStep) (way : List NodeKind) : Bool :=
  describeBackwards steps.reverse way.reverse

end PathStep

end EztScan
