import EztScan.Grouping.Step

/-!
# Stages

A stage reads a stream of elements to its end and hands on what it has made of them (`Stage.run`).
At the end it hands on, unfinished as they are, the comments that wait, the open statement and the
outermost open block, and keeps them on the desk.

Inside a node that comes from the stage before, the inner part is grouped anew by a desk of its own
(`regroup`), and the nodes before and after the inner part are regrouped, too. The inner part has
fewer tokens than the node, so the depth to which this can go on is bounded by the number of tokens;
`regroup` takes it as its first argument.
-/

namespace EztScan

/-- What remains of a fault when it leaves a stage: a missing element means that the elements ran
out under it. -/
def Fault.leavingStage : Fault → Fault
  | .exhausted => .exhaustedInside
  | f => f

namespace Stage

open Grouping

/-- A stage at work: what it has handed on, the last element first, and how many elements it is
asked for. -/
structure Progress where
  bench : Bench
  out : List Element := []
  wanted : Option Nat := none

/-- The work of a stage, with what it hands on. -/
abbrev StageWork (α : Type) : Type :=
  Work Progress α

/-- Works on the bench. -/
def onBench {α : Type} (w : Grouping α) : StageWork α :=
  Work.within Progress.bench (fun b p => { p with bench := b }) w

/-- Hands on elements one by one. When no more are asked for, the work rests. -/
def handOn : List Element → StageWork Unit
  | [] => return ()
  | e :: es => do
    modify fun p => { p with out := e :: p.out }
    let p ← get
    if p.wanted = some p.out.length then throw .atRest
    handOn es

/-- Takes elements from the stream until it ends, at most `fuel` times. -/
def takeAll (index : Index) (regroup : Node → Work Ledger Node) : Nat → StageWork Unit
  | 0 => return ()
  | fuel + 1 => do
    match (← get).bench.stream.next with
    | .error .exhausted => return ()
    | .error f => throw f
    | .ok (e, s) =>
      modify fun p => { p with bench := { p.bench with stream := s } }
      let out ← onBench (step index regroup e)
      handOn out
      takeAll index regroup fuel

/-- Notes the open nodes in the ledger. -/
def noteOpen : StageWork Unit := onBench do
  (← get).desk.openNodes.forM note

/-- Completes the open statement and hands it on. -/
def finishStatement : StageWork Unit := do
  match (← get).bench.desk.statement with
  | none => return ()
  | some o =>
    let (o, fault) := o.complete
    onBench (onDesk ({ · with statement := some o }))
    onBench (note o.node)
    if let some f := fault then throw f
    handOn [o.node.toElement]

/-- Completes the outermost open block, regroups it and hands it on. -/
def finishBlocks (regroup : Node → Work Ledger Node) : StageWork Unit := do
  let stack := Desk.attachAll (← get).bench.desk.stack
  match stack.getLast? with
  | none => return ()
  | some bottom =>
    let (bottom, fault) := bottom.complete
    let stack := stack.dropLast ++ [bottom]
    onBench (onDesk ({ · with stack := stack }))
    stack.forM fun o => onBench (note o.node)
    if let some f := fault then throw f
    let n ← onBench (onLedger (regroup bottom.node))
    handOn [n.toElement]

/-- The work of a stage on all that comes. Every step takes an element off the stream or ends a
statement, so that twice the length of the stream and one more step are enough. -/
def work (index : Index) (regroup : Node → Work Ledger Node) : StageWork Unit := do
  match ← Work.attempt (takeAll index regroup (2 * (← get).bench.stream.toList.length + 2)) with
  | .error f =>
    noteOpen
    throw f
  | .ok () =>
    handOn (← get).bench.desk.comments
    finishStatement
    finishBlocks regroup

/-- What a stage has done: what it handed on, in order, the fault that ended it, and the bench it
left. -/
structure Outcome where
  out : List Element
  fault : Option Fault
  bench : Bench

/-- Runs a stage on a bench. With `wanted`, it rests once that many elements have been handed on. -/
def run (index : Index) (regroup : Node → Work Ledger Node) (wanted : Option Nat) (bench : Bench) :
    Outcome :=
  match (work index regroup).runOn { bench, wanted } with
  | (.ok (), p) => ⟨p.out.reverse, none, p.bench⟩
  | (.error f, p) => ⟨p.out.reverse, some f.leavingStage, p.bench⟩

/-- Groups some elements with an empty desk. -/
def group (index : Index) (regroup : Node → Work Ledger Node) (es : List Element) :
    Work Ledger (List Element) :=
  Work.of fun ledger =>
    let r := run index regroup none { stream := .ofList es, ledger }
    match r.fault with
    | none => (.ok r.out, r.bench.ledger)
    | some f => (.error f, r.bench.ledger)

/-- Groups the inner part of the node at the end of `way` by the rules that hold there. -/
def groupInner (scope : Scope) (regroup : List NodeKind → Node → Work Ledger Node)
    (way : List NodeKind) (n : Node) : Work Ledger (List Element) :=
  match scope.indexAt way with
  | .error f => throw f
  | .ok index => group index (regroup way) n.inner

mutual

/-- Regroups a node at the end of `way`: its inner part by `inner`, and the nodes around it in the
same manner. -/
def regroupElement (inner : List NodeKind → Node → Work Ledger (List Element))
    (way : List NodeKind) : Element → Work Ledger Element
  | .token t => return .token t
  | .node h cs => do
    let n : Node := ⟨h, cs⟩
    let middle ← inner (way ++ [h.kind]) n
    let back ← regroupFrom inner (way ++ [h.kind]) (placeOf cs.length n.innerEnd) cs
    let front ← regroupUpTo inner (way ++ [h.kind]) (placeOf cs.length n.innerStart) cs
    let n : Node := ⟨h, front ++ middle ++ back⟩
    modify (·.note n)
    return n.toElement

/-- The elements after the first `skip` ones, regrouped. -/
def regroupFrom (inner : List NodeKind → Node → Work Ledger (List Element)) (way : List NodeKind)
    (skip : Nat) : List Element → Work Ledger (List Element)
  | [] => return []
  | e :: es =>
    match skip with
    | k + 1 => regroupFrom inner way k es
    | 0 => do
      let e ← regroupElement inner way e
      let es ← regroupFrom inner way 0 es
      return e :: es

/-- The first `count` elements, regrouped. -/
def regroupUpTo (inner : List NodeKind → Node → Work Ledger (List Element)) (way : List NodeKind)
    (count : Nat) : List Element → Work Ledger (List Element)
  | [] => return []
  | e :: es =>
    match count with
    | 0 => return []
    | k + 1 => do
      let e ← regroupElement inner way e
      let es ← regroupUpTo inner way k es
      return e :: es

end

/-- Regroups a node at the end of `way`, down to a depth. A node that is shared, so that it stands
in several places, is taken as it has become. -/
def regroup (scope : Scope) (shared : List Nat) : Nat → List NodeKind → Node → Work Ledger Node
  | 0, _, n => return n
  | depth + 1, way, n => do
    let n := (← get).current shared n
    match ← regroupElement (groupInner scope (regroup scope shared depth)) way n.toElement with
    | .node h cs => return ⟨h, cs⟩
    | .token _ => return n

/-- Runs a stage with a grammar on a bench. -/
def runScope (scope : Scope) (shared : List Nat) (depth : Nat) (wanted : Option Nat)
    (bench : Bench) : Outcome :=
  run scope.top (regroup scope shared depth []) wanted bench

end Stage

end EztScan
