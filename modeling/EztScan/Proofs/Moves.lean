import EztScan.Grouping.Step
import EztScan.Proofs.Matching
import Mathlib.Data.List.Forall2

/-!
# What a step of a stage can do

A stage takes one element at a time. Here is said once, for all properties of whole runs, what such
a step can do to the desk, to the elements that are still to come, and to those that are handed on.
`Move` lists the possible moves, one for each of the ways in which an element can be taken, each
with the patterns that have to fit for it and those that must not. Of the ledger only the number of
the next node is told; notes are left out.
-/

namespace EztScan

/-! ### Moves on the desk -/

namespace Desk

/-- The desk after a complete node is put into the innermost block, and what is handed on instead if
there is none. -/
def deliver (d : Desk) (n : Node) : List Element × Desk :=
  match d.stack with
  | [] => ([n.toElement], d)
  | parent :: rest => ([], { d with stack := parent.push (adopt parent n).toElement :: rest })

/-- The desk after the innermost block, as it is now, is taken off the stack. -/
def pop (d : Desk) (o : OpenNode) (rest : List OpenNode) : Desk :=
  match rest with
  | parent :: outer =>
    { d with stack := (if o.attached then parent else parent.push o.node.toElement) :: outer }
  | [] => { d with stack := [] }

/-- The desk after a new block is put on the stack, and what is handed on. A block that cannot nest
takes the place of the outermost one, which has to be of its kind. -/
def enter (d : Desk) (o : OpenNode) : Option (List Element × Desk) :=
  match d.stack with
  | [] => some ([], { d with stack := [o] })
  | parent :: rest =>
    if o.rule.nests then
      let head := { o.head with parent := some parent.head.kind.name }
      some ([], { d with stack := { o with head } :: parent :: rest })
    else
      match (attachAll (parent :: rest)).getLast? with
      | some bottom =>
        if bottom.head.kind.name = o.head.kind.name then
          some ([bottom.node.toElement], { d with stack := [o] })
        else none
      | none => none

end Desk

/-- A new open node: these comments in front, then these elements. -/
def OpenNode.begin (r : Rule) (number : Nat) (sections : Nat → Sections → Sections)
    (comments es : List Element) : OpenNode where
  rule := r
  head := { number, kind := r.kind, sections := sections es.length { comments := comments.length } }
  made := (comments ++ es).reverse

/-- The sections of a node that begins with its opening. -/
def Sections.open (count : Nat) (s : Sections) : Sections :=
  { s with opening := count }

/-- The sections of a node that begins with its header. -/
def Sections.head (count : Nat) (s : Sections) : Sections :=
  { s with header := count }

/-- The open node with these elements noted as its header. -/
def OpenNode.withHeader (o : OpenNode) (items : List HeaderItem) : OpenNode :=
  { o with head := { o.head with header := items } }

namespace Grouping

/-! ### Which rules fit -/

/-- Of these rules none has a pattern that fits. -/
def NoneFits (pattern : Rule → Option Pattern) (rules : List Rule) (e : Element)
    (rest : List Element) : Prop :=
  ∀ r ∈ rules, Pattern.Refuses (pattern r) e true rest

/-- Of these rules, `r` is the first one with a pattern that fits. -/
def FirstFit (pattern : Rule → Option Pattern) (rules : List Rule) (e : Element) (r : Rule)
    (taken rest : List Element) : Prop :=
  ∃ before after, rules = before ++ r :: after ∧ NoneFits pattern before e (taken ++ rest) ∧
    Pattern.Takes (pattern r) e taken rest

theorem FirstFit.mem {pattern : Rule → Option Pattern} {rules : List Rule} {e : Element} {r : Rule}
    {taken rest : List Element} (h : FirstFit pattern rules e r taken rest) : r ∈ rules := by
  obtain ⟨before, after, rfl, -, -⟩ := h
  exact List.mem_append_right before List.mem_cons_self

/-! ### The moves -/

/-- What an element has become by regrouping: a token is what it was. -/
def Rebuilt (regroup : Node → Work Ledger Node) : Element → Element → Prop
  | .token t, e' => e' = .token t
  | .node h cs, e' => ∃ l n l', Work.Runs (regroup ⟨h, cs⟩) l n l' ∧ e' = n.toElement

/-- What an element becomes by regrouping that begins with one ledger and ends with another one. -/
def Rebuilding (regroup : Node → Work Ledger Node) (l : Ledger) : Element → Element → Ledger → Prop
  | .token t, e', l' => e' = .token t ∧ l' = l
  | .node h cs, e', l' => ∃ n, Work.Runs (regroup ⟨h, cs⟩) l n l' ∧ e' = n.toElement

theorem Rebuilding.rebuilt {regroup : Node → Work Ledger Node} {l l' : Ledger} {e e' : Element}
    (h : Rebuilding regroup l e e' l') : Rebuilt regroup e e' := by
  cases e with
  | token => exact h.1
  | node =>
    obtain ⟨n, hn, rfl⟩ := h
    exact ⟨l, n, l', hn, rfl⟩

/-- The open block that begins with these elements. -/
def blockFor (r : Rule) (number : Nat) (comments es : List Element) : OpenNode :=
  if r.header.isSome then (OpenNode.begin r number .head comments es).withHeader (es.map headerItem)
  else .begin r number .open comments es

/-- The element does not end an open node, with these elements behind it. -/
def StaysOpen (o : OpenNode) (e : Element) (rest : List Element) : Prop :=
  Pattern.Refuses o.rule.closing e o.rule.takesEnd rest

/-- What begins a block: its header if it has one, and its opening otherwise. -/
def blockStart (r : Rule) : Option Pattern :=
  r.header.or r.opening

/-- The element begins no term and no statement, with these elements behind it. -/
structure Unbegun (index : Index) (e : Element) (rest : List Element) : Prop where
  terms : NoneFits Rule.shape (index.terms.rulesFor e) e rest
  statements : NoneFits Rule.opening (index.statements.rulesFor e) e rest

/-- No rule covers the element: it begins nothing and does not end the innermost block, whose header
is complete. -/
structure Unclaimed (index : Index) (d : Desk) (e : Element) (rest : List Element) :
    Prop extends Unbegun index e rest where
  open_ : ∀ o ∈ d.stack.head?, StaysOpen o e rest
  header : d.inHeader = false ∨ d.stack = []
  blocks : NoneFits blockStart (index.blocks.rulesFor e) e rest

/-- The header of a block does not begin again. -/
def NotRestarted (o : OpenNode) (e : Element) (rest : List Element) : Prop :=
  (o.rule.nests || o.rule.header.isNone) = true ∨ Pattern.Refuses o.rule.header e true rest

/-- The ways to take an element `e` with a desk `d`, each with what has to hold of the rules for it.
The number `next` is the next one to be given to a node. The indices are the elements that come
after `e`, those that are handed on, the desk afterwards, the elements that come then, and the
number that is the next one then. -/
inductive Move (index : Index) (regroup : Node → Work Ledger Node) (next : Nat) (d : Desk)
    (e : Element) :
    List Element → List Element → Desk → List Element → Nat → Prop
  /-- It ends the open statement, which takes it in together with some that come next. -/
  | close (o o' : OpenNode) (taken rest : List Element) (hd : d.statement = some o)
      (htakes : o.rule.takesEnd = true)
      (hc : (((o.pushAll d.comments).setClosing (e :: taken).length).pushAll
        (e :: taken)).complete = (o', none))
      (hclose : Pattern.Takes o.rule.closing e taken rest) :
      Move index regroup next d e (taken ++ rest)
        (Desk.deliver { d with comments := [], statement := none } o'.node).1
        (Desk.deliver { d with comments := [], statement := none } o'.node).2 rest next
  /-- It ends the open statement, which does not take it in: it is to come again. -/
  | leave (o o' : OpenNode) (rest : List Element) (hd : d.statement = some o)
      (htakes : o.rule.takesEnd = false) (hc : o.complete = (o', none))
      (hclose : ∃ p ∈ o.rule.closing, p.Gives e false rest .seen) :
      Move index regroup next d e rest (Desk.deliver { d with statement := none } o'.node).1
        (Desk.deliver { d with statement := none } o'.node).2 (e :: rest) next
  /-- It begins a statement in place of the open one. -/
  | interrupt (o o' : OpenNode) (r : Rule) (taken rest : List Element)
      (hd : d.statement = some o) (hyields : o.rule.yields = true)
      (hr : FirstFit Rule.opening (index.statements.rulesFor e) e r taken rest)
      (hc : o.complete = (o', none)) (d' : Desk)
      (hd' : d' = { d with
        comments := [], statement := some (.begin r next .open d.comments (e :: taken)) })
      (hopen : StaysOpen o e (taken ++ rest)) :
      Move index regroup next d e (taken ++ rest) (d'.deliver o'.node).1 (d'.deliver o'.node).2 rest
        (next + 1)
  /-- It waits with the comments while a statement is open. -/
  | await (o : OpenNode) (rest : List Element) (hd : d.statement = some o)
      (hw : awaitsWith d.comments e = true) (hopen : StaysOpen o e rest)
      (hno : o.rule.yields = true → NoneFits Rule.opening (index.statements.rulesFor e) e rest) :
      Move index regroup next d e rest [] { d with comments := d.comments ++ [e] } rest next
  /-- It goes on with the open statement. -/
  | extend (o : OpenNode) (rest : List Element) (hd : d.statement = some o)
      (hw : awaitsWith d.comments e = false) (hopen : StaysOpen o e rest)
      (hno : o.rule.yields = true → NoneFits Rule.opening (index.statements.rulesFor e) e rest) :
      Move index regroup next d e rest []
        { d with comments := [], statement := some ((o.pushAll d.comments).push e) } rest next
  /-- It is a term, together with some that come next. -/
  | term (r : Rule) (o o' : OpenNode) (taken children rest : List Element)
      (hd : d.statement = none) (hr : FirstFit Rule.shape (index.terms.rulesFor e) e r taken rest)
      (ho : o = .begin r next .open d.comments (e :: taken))
      (hch : List.Forall₂ (Rebuilt regroup) o.node.children children)
      (hc : (o.withNode { o.node with children }).complete = (o', none)) (l l' : Ledger)
      (hl : l.next = next + 1)
      (hrun : Work.Runs (regroupAll regroup o.node.children) l children l') :
      Move index regroup next d e (taken ++ rest) (Desk.deliver { d with comments := [] } o'.node).1
        (Desk.deliver { d with comments := [] } o'.node).2 rest l'.next
  /-- It begins a statement. -/
  | begin (r : Rule) (taken rest : List Element) (hd : d.statement = none)
      (hr : FirstFit Rule.opening (index.statements.rulesFor e) e r taken rest)
      (hterms : NoneFits Rule.shape (index.terms.rulesFor e) e (taken ++ rest)) :
      Move index regroup next d e (taken ++ rest) []
        { d with comments := [], statement := some (.begin r next .open d.comments (e :: taken)) }
        rest (next + 1)
  /-- It ends the innermost block. -/
  | finish (o o' : OpenNode) (below : List OpenNode) (taken rest : List Element)
      (hd : d.statement = none) (hs : d.stack = o :: below)
      (hc : ((o.pushAll (e :: taken)).setClosing (e :: taken).length).complete = (o', none))
      (hclose : Pattern.Takes o.rule.closing e taken rest) (hu : Unbegun index e (taken ++ rest)) :
      Move index regroup next d e (taken ++ rest)
        (if below.isEmpty then [o'.node.toElement] else []) (d.pop o' below) rest next
  /-- It begins a block in place of the innermost one, which cannot nest and whose header is
  read. -/
  | restart (o o' : OpenNode) (below : List OpenNode) (taken rest : List Element)
      (hd : d.statement = none) (hh : d.inHeader = true) (hs : d.stack = o :: below)
      (hnests : o.rule.nests = false) (hc : o.complete = (o', none)) (d' : Desk)
      (hd' : d' = Desk.pop { d with comments := [] } o' below)
      (hheader : Pattern.Takes o.rule.header e taken rest)
      (hopen : StaysOpen o e (taken ++ rest)) (hu : Unbegun index e (taken ++ rest)) :
      Move index regroup next d e (taken ++ rest)
        (if below.isEmpty then [o'.node.toElement] else [])
        { d' with
          stack := (OpenNode.begin o.rule next .head d.comments (e :: taken)).withHeader
            ((e :: taken).map headerItem) :: d'.stack } rest (next + 1)
  /-- It is the opening behind the header of the innermost block. -/
  | open (o : OpenNode) (below : List OpenNode) (taken rest : List Element)
      (hd : d.statement = none) (hh : d.inHeader = true) (hs : d.stack = o :: below)
      (hopening : Pattern.Takes o.rule.opening e taken rest)
      (hno : NotRestarted o e (taken ++ rest)) (hopen : StaysOpen o e (taken ++ rest))
      (hu : Unbegun index e (taken ++ rest)) :
      Move index regroup next d e (taken ++ rest) []
        { d with
          stack := (o.mapSections (.open (e :: taken).length)).pushAll (e :: taken) :: below
          inHeader := false } rest next
  /-- It goes on with the header of the innermost block. -/
  | head (o : OpenNode) (below : List OpenNode) (rest : List Element) (hd : d.statement = none)
      (hh : d.inHeader = true) (hs : d.stack = o :: below)
      (hopening : Pattern.Refuses o.rule.opening e true rest)
      (hno : NotRestarted o e rest) (hopen : StaysOpen o e rest) (hu : Unbegun index e rest) :
      Move index regroup next d e rest []
        { d with
          stack := ((o.mapSections fun s => { s with header := s.header + 1 }).push e).withHeader
            (o.head.header ++ [headerItem e]) :: below } rest next
  /-- It begins a block. -/
  | enter (r : Rule) (taken rest out : List Element) (inHeader : Bool) (d' : Desk)
      (hd : d.statement = none) (hr : FirstFit blockStart (index.blocks.rulesFor e) e r taken rest)
      (he : Desk.enter { d with comments := [], inHeader }
        (blockFor r next d.comments (e :: taken)) = some (out, d'))
      (hh : d.inHeader = false ∨ d.stack = [])
      (hopen : ∀ o ∈ d.stack.head?, StaysOpen o e (taken ++ rest))
      (hu : Unbegun index e (taken ++ rest)) :
      Move index regroup next d e (taken ++ rest) out d' rest (next + 1)
  /-- It goes into the innermost block as it is. -/
  | place (o : OpenNode) (below : List OpenNode) (rest : List Element) (hd : d.statement = none)
      (hs : d.stack = o :: below) (hu : Unclaimed index d e rest) :
      Move index regroup next d e rest [] { d with stack := o.push e :: below } rest next
  /-- It waits with the comments outside of all nodes. -/
  | hold (rest : List Element) (hd : d.statement = none) (hs : d.stack = [])
      (hw : awaitsWith d.comments e = true) (hu : Unclaimed index d e rest) :
      Move index regroup next d e rest [] { d with comments := d.comments ++ [e] } rest next
  /-- It is handed on behind the comments that wait. -/
  | flush (rest : List Element) (hd : d.statement = none) (hs : d.stack = [])
      (hw : awaitsWith d.comments e = false) (htext : (!e.isBlank && e.hasText) = true)
      (hu : Unclaimed index d e rest) :
      Move index regroup next d e rest (d.comments ++ [e]) { d with comments := [] } rest next
  /-- It is handed on, and the comments go on waiting. -/
  | pass (rest : List Element) (hd : d.statement = none) (hs : d.stack = [])
      (hw : awaitsWith d.comments e = false) (htext : (!e.isBlank && e.hasText) = false)
      (hu : Unclaimed index d e rest) :
      Move index regroup next d e rest [e] d rest next

end Grouping

end EztScan
