import EztScan.Grouping.Desk
import EztScan.Pattern.Match

/-!
# One element at a time

How a stage takes an element: it may continue or end the open statement, stand for a term, begin a
statement, end the innermost block, belong to the header of that block, begin a block, or be none of
it. In the last case it goes into the innermost block, waits with the comments, or is handed on. The
result of a step is the list of elements that are handed on.

Nodes among the elements come from the stage before. They are regrouped first, by the rules that
hold inside of them; `regroup` says how.
-/

namespace EztScan

/-- All that a stage works with: its desk, the elements that come, and the ledger of the parser. -/
structure Bench where
  desk : Desk := {}
  stream : Lookahead Element
  ledger : Ledger := {}

/-- A piece of the work of a stage. -/
abbrev Grouping (α : Type) : Type :=
  Work Bench α

namespace Grouping

/-- Changes the desk. -/
def onDesk (f : Desk → Desk) : Grouping Unit :=
  modify fun b => { b with desk := f b.desk }

/-- Works on the ledger. -/
def onLedger {α : Type} (w : Work Ledger α) : Grouping α :=
  Work.within Bench.ledger (fun l b => { b with ledger := l }) w

/-- Tries a pattern on the stream. -/
def onStream {α : Type} (w : Attempt α) : Grouping α :=
  Work.within Bench.stream (fun s b => { b with stream := s }) w

/-- Notes what an open node has become before it leaves the desk. -/
def note (n : Node) : Grouping Unit :=
  onLedger (modify (·.note n))

/-- Tries a pattern that a rule has to have, and takes what fits. -/
def take? (p : Option Pattern) (e : Element) : Grouping (Option (List Element)) :=
  match p with
  | none => throw .patternMissing
  | some p => do
    match ← onStream (p.tryOn e true) with
    | .taken es => return some es
    | _ => return none

/-- The first of some rules for which a pattern fits, with what fits. -/
def firstRule? (pattern : Rule → Option Pattern) (e : Element) :
    List Rule → Grouping (Option (Rule × List Element))
  | [] => return none
  | r :: rs => do
    match ← take? (pattern r) e with
    | some es => return some (r, es)
    | none => firstRule? pattern e rs

/-- Takes the comments that wait off the desk. -/
def takeComments : Grouping (List Element) := do
  let comments := (← get).desk.comments
  onDesk ({ · with comments := [] })
  return comments

/-- A new open node, which begins with the comments that wait and with these elements. -/
def openWith (r : Rule) (es : List Element) (sections : Nat → Sections → Sections) :
    Grouping OpenNode := do
  let comments ← takeComments
  let number ← onLedger newNumber
  return {
    rule := r
    head := {
      number
      kind := r.kind
      sections := sections es.length { comments := comments.length } }
    made := (comments ++ es).reverse }

/-- Puts a complete node into the innermost block, or hands it on if there is none. -/
def deliver (n : Node) : Grouping (List Element) := do
  match (← get).desk.stack with
  | [] => return [n.toElement]
  | parent :: rest =>
    onDesk ({ · with stack := parent.push (Desk.adopt parent n).toElement :: rest })
    return []

/-- Tries to begin a statement. -/
def beginStatement (index : Index) (e : Element) : Grouping Bool := do
  match ← firstRule? Rule.opening e (index.statements.rulesFor e) with
  | none => return false
  | some (r, es) =>
    let o ← openWith r es fun count s => { s with opening := count }
    onDesk ({ · with statement := some o })
    return true

/-- Lets an element wait with the comments if it is one, or a blank between comments. -/
def awaitsWith (comments : List Element) (e : Element) : Bool :=
  e.isComment || (e.isBlank && !comments.isEmpty)

/-! ### Inside a statement -/

/-- Adds an element to the open statement, after the comments that wait; a comment only waits. -/
def addToStatement (o : OpenNode) (e : Element) : Grouping (List Element) := do
  let comments := (← get).desk.comments
  if awaitsWith comments e then onDesk ({ · with comments := comments ++ [e] })
  else onDesk ({ · with comments := [], statement := some ((o.pushAll comments).push e) })
  return []

/-- Completes a statement that has come to its end, and delivers it. -/
def completeStatement (o : OpenNode) : Grouping (List Element) := do
  let (o, fault) := o.complete
  onDesk ({ · with statement := some o })
  if let some f := fault then throw f
  onDesk ({ · with statement := none })
  note o.node
  deliver o.node

/-- Ends the open statement, with the elements that end it if it takes them in. -/
def endStatement (o : OpenNode) (es : List Element) : Grouping (List Element) := do
  if o.rule.takesEnd then
    let comments ← takeComments
    completeStatement (((o.pushAll comments).setClosing es.length).pushAll es)
  else completeStatement o

/-- Tries to begin another statement in place of the open one. -/
def interruptStatement (index : Index) (o : OpenNode) (e : Element) :
    Grouping (Option (List Element)) := do
  onDesk ({ · with statement := none })
  if ← beginStatement index e then
    let (o, fault) := o.complete
    if let some f := fault then throw f
    note o.node
    return some (← deliver o.node)
  else
    onDesk ({ · with statement := some o })
    return none

/-- Takes an element that does not end the open statement: it may begin another one, or goes on with
this one. -/
def goOnWithStatement (index : Index) (o : OpenNode) (e : Element) : Grouping (List Element) := do
  if o.rule.yields then
    match ← interruptStatement index o e with
    | some out => return out
    | none => addToStatement o e
  else addToStatement o e

/-- Takes an element while a statement is open. -/
def inStatement (index : Index) (o : OpenNode) (e : Element) : Grouping (List Element) := do
  let closing ← match o.rule.closing with
    | some p => pure p
    | none => throw .patternMissing
  match ← onStream (closing.tryOn e o.rule.takesEnd) with
  | .taken es => endStatement o es
  | .seen => endStatement o []
  | _ => goOnWithStatement index o e

/-! ### Terms -/

/-- Regroups the nodes among some elements. -/
def regroupAll (regroup : Node → Work Ledger Node) : List Element → Work Ledger (List Element)
  | [] => return []
  | .token t :: es => return .token t :: (← regroupAll regroup es)
  | .node h cs :: es => do
    let n ← regroup ⟨h, cs⟩
    return n.toElement :: (← regroupAll regroup es)

/-- Tries to read a term. -/
def readTerm (index : Index) (regroup : Node → Work Ledger Node) (e : Element) :
    Grouping (Option (List Element)) := do
  match ← firstRule? Rule.shape e (index.terms.rulesFor e) with
  | none => return none
  | some (r, es) =>
    let o ← openWith r es fun count s => { s with opening := count }
    let children ← onLedger (regroupAll regroup o.node.children)
    let (o, fault) := (o.withNode { o.node with children }).complete
    if let some f := fault then throw f
    return some (← deliver o.node)

/-! ### Blocks -/

/-- Takes the innermost block off the stack. If it stands inside another block, it is found there
from now on. -/
def popBlock (o : OpenNode) (rest : List OpenNode) : Grouping Unit := do
  note o.node
  match rest with
  | parent :: outer =>
    let parent := if o.attached then parent else parent.push o.node.toElement
    onDesk ({ · with stack := parent :: outer })
  | [] => onDesk ({ · with stack := [] })

/-- Tries to end the innermost block. -/
def endBlock (e : Element) : Grouping (Option (List Element)) := do
  match (← get).desk.stack with
  | [] => return none
  | o :: rest =>
    let closing ← match o.rule.closing with
      | some p => pure p
      | none => throw .patternMissing
    match ← onStream (closing.tryOn e o.rule.takesEnd) with
    | .taken es =>
      let (o, fault) := ((o.pushAll es).setClosing es.length).complete
      popBlock o rest
      if let some f := fault then throw f
      return some (if rest.isEmpty then [o.node.toElement] else [])
    | .seen =>
      popBlock o rest
      throw .endRefused
    | _ => return none

/-- What stands in a header: tokens, and the numbers of nodes. -/
def headerItem : Element → HeaderItem
  | .token t => .token t
  | .node h _ => .node h.number

/-- A new open block that begins with a header. -/
def openHeader (r : Rule) (es : List Element) : Grouping OpenNode := do
  let o ← openWith r es fun count s => { s with header := count }
  return { o with head := { o.head with header := es.map headerItem } }

/-- Tries to begin a new block of the same kind while the header of one that cannot nest is read. -/
def restartBlock (o : OpenNode) (rest : List OpenNode) (e : Element) :
    Grouping (Option (List Element)) := do
  if o.rule.nests || o.rule.header.isNone then return none
  match ← take? o.rule.header e with
  | none => return none
  | some es =>
    let new ← openHeader o.rule es
    let (o, fault) := o.complete
    popBlock o rest
    if let some f := fault then throw f
    onDesk fun d => { d with stack := new :: d.stack }
    return some (if rest.isEmpty then [o.node.toElement] else [])

/-- Takes an element while the header of the innermost block is read: the opening ends the header,
and all else belongs to it. -/
def inHeader (o : OpenNode) (rest : List OpenNode) (e : Element) : Grouping (List Element) := do
  if let some out ← restartBlock o rest e then return out
  match ← take? o.rule.opening e with
  | some es =>
    let o := (o.mapSections fun s => { s with opening := es.length }).pushAll es
    onDesk ({ · with stack := o :: rest, inHeader := false })
    return []
  | none =>
    let o := (o.mapSections fun s => { s with header := s.header + 1 }).push e
    let o := { o with head := { o.head with header := o.head.header ++ [headerItem e] } }
    onDesk ({ · with stack := o :: rest })
    return []

/-- Puts a new block on the stack. One that cannot nest takes the place of the outermost block,
which has to be of its kind and is handed on. -/
def pushBlock (o : OpenNode) : Grouping (List Element) := do
  match (← get).desk.stack with
  | [] =>
    onDesk ({ · with stack := [o] })
    return []
  | parent :: rest =>
    if o.rule.nests then
      let head := { o.head with parent := some parent.head.kind.name }
      onDesk ({ · with stack := { o with head } :: parent :: rest })
      return []
    else
      let stack := Desk.attachAll (parent :: rest)
      match stack.getLast? with
      | some bottom =>
        if bottom.head.kind.name = o.head.kind.name then
          stack.forM fun open_ => note open_.node
          onDesk ({ · with stack := [o] })
          return [bottom.node.toElement]
        else throw .blockNested
      | none => throw .blockNested

/-- The rule among these whose block begins here, with what it begins with. -/
def firstBlock? (e : Element) : List Rule → Grouping (Option (Rule × List Element))
  | [] => return none
  | r :: rs => do
    match ← take? (r.header.or r.opening) e with
    | some es => return some (r, es)
    | none => firstBlock? e rs

/-- Tries to begin a block. -/
def beginBlock (index : Index) (e : Element) : Grouping (Option (List Element)) := do
  match ← firstBlock? e (index.blocks.rulesFor e) with
  | none => return none
  | some (r, es) =>
    if r.header.isSome then
      onDesk ({ · with inHeader := true })
      let o ← openHeader r es
      return some (← pushBlock o)
    else
      let o ← openWith r es fun count s => { s with opening := count }
      return some (← pushBlock o)

/-! ### All elements -/

/-- Takes an element that no rule covers. -/
def place (e : Element) : Grouping (List Element) := do
  let d := (← get).desk
  match d.stack with
  | o :: rest =>
    onDesk ({ · with stack := o.push e :: rest })
    return []
  | [] =>
    if awaitsWith d.comments e then
      onDesk ({ · with comments := d.comments ++ [e] })
      return []
    else if !e.isBlank && e.hasText then
      onDesk ({ · with comments := [] })
      return d.comments ++ [e]
    else return [e]

/-- Takes an element that belongs to no statement and to no header, and does not end a block. -/
def outsideBlocks (index : Index) (e : Element) : Grouping (List Element) := do
  if let some out ← beginBlock index e then return out
  place e

/-- Takes an element while no statement is open. -/
def outsideStatement (index : Index) (regroup : Node → Work Ledger Node) (e : Element) :
    Grouping (List Element) := do
  if let some out ← readTerm index regroup e then return out
  if ← beginStatement index e then return []
  if let some out ← endBlock e then return out
  let d := (← get).desk
  match d.inHeader, d.stack with
  | true, o :: rest => inHeader o rest e
  | _, _ => outsideBlocks index e

/-- Takes an element as it has become. -/
def take (index : Index) (regroup : Node → Work Ledger Node) (e : Element) :
    Grouping (List Element) := do
  match (← get).desk.statement with
  | some o => inStatement index o e
  | none => outsideStatement index regroup e

/-- Takes an element. A node is regrouped first. -/
def step (index : Index) (regroup : Node → Work Ledger Node) (e : Element) :
    Grouping (List Element) := do
  match e with
  | .token t => take index regroup (.token t)
  | .node h cs =>
    let n ← onLedger (regroup ⟨h, cs⟩)
    take index regroup n.toElement

end Grouping

end EztScan
