import EztScan.Grammar.Rule
import EztScan.Tree.Path

/-!
# Grammars

A grammar is a list of rules, or several such lists of which each one applies in some places of the
tree only (`Scope`). Rules whose constructs can begin with some words only are filed under these
words, so that on most elements few rules have to be tried (`Candidates`).
-/

namespace EztScan

/-- Rules by the words that their constructs begin with, and the rules without such words. -/
structure Candidates where
  byWord : List (String × Rule) := []
  others : List Rule := []

namespace Candidates

/-- Files a rule whose constructs begin with the pattern. -/
def add (c : Candidates) (rule : Rule) (first : Option Pattern) : Except Fault Candidates :=
  match first with
  | none => .error .patternMissing
  | some p =>
    match p.keywords with
    | .error f => .error f
    | .ok (some (k :: ks)) => .ok { c with byWord := c.byWord ++ (k :: ks).map (·, rule) }
    | .ok _ => .ok { c with others := c.others ++ [rule] }

/-- The rules to try on an element, in their order: those under its text, then the rules without
words. -/
def rulesFor (c : Candidates) (e : Element) : List Rule :=
  match e.lowerText with
  | some text => (c.byWord.filter (·.1 == text)).map (·.2) ++ c.others
  | none => c.others

end Candidates

/-- The rules of a grammar, filed by family. -/
structure Index where
  statements : Candidates := {}
  blocks : Candidates := {}
  terms : Candidates := {}

namespace Index

/-- The rules of one family. -/
def ofFamily (rules : List Rule) (family : Family) : List Rule :=
  rules.filter fun r => r.kind.family == family

/-- Files some rules behind those that are there. -/
def extend (index : Index) (rules : List Rule) : Except Fault Index := do
  let statements ← (ofFamily rules .statement).foldlM
    (fun c r => c.add r r.opening) index.statements
  let blocks ← (ofFamily rules .block).foldlM (fun c r => c.add r (r.header.or r.opening))
    index.blocks
  let terms ← (ofFamily rules .term).foldlM (fun c r => c.add r r.shape) index.terms
  return { statements, blocks, terms }

/-- Files several lists of rules one after the other. -/
def ofLists (lists : List (List Rule)) : Except Fault Index :=
  lists.foldlM extend {}

end Index

/-- Where a list of rules applies: inside nodes of one kind, or at the end of a path. -/
inductive Context where
  | inside (kind : String)
  | path (steps : List PathStep)
deriving Repr, DecidableEq

/-- Does the context hold at the end of a way through the tree? -/
def Context.holds (c : Context) (way : List NodeKind) : Bool :=
  match c with
  | .inside kind => (way.getLast?.map (·.name)) == some kind
  | .path steps => PathStep.describe steps way

/-- A grammar: rules that apply everywhere, or lists of rules that apply where their context holds.
Outside of all nodes, no context holds. -/
inductive Scope where
  | everywhere (index : Index)
  | within (cases : List (Context × List Rule))

namespace Scope

/-- The grammar of rules that apply everywhere. -/
def ofRules (rules : List Rule) : Except Fault Scope :=
  .everywhere <$> Index.ofLists [rules]

/-- Adds a case. A second one for the same kind of nodes takes the place of the first one. -/
def insertCase (cases : List (Context × List Rule)) (c : Context) (rules : List Rule) :
    List (Context × List Rule) :=
  match c with
  | .inside kind =>
    if cases.any (·.1 == .inside kind) then
      cases.map fun old => if old.1 == .inside kind then (old.1, rules) else old
    else cases ++ [(c, rules)]
  | .path _ => cases ++ [(c, rules)]

/-- The grammar of these cases. -/
def ofCases (cases : List (Context × List Rule)) : Scope :=
  .within (cases.foldl (fun acc c => insertCase acc c.1 c.2) [])

/-- The rules outside of all nodes. -/
def top : Scope → Index
  | .everywhere index => index
  | .within _ => {}

/-- The rules inside the last node of a way through the tree. -/
def indexAt (s : Scope) (way : List NodeKind) : Except Fault Index :=
  match s with
  | .everywhere index => .ok index
  | .within cases => Index.ofLists ((cases.filter (·.1.holds way)).map (·.2))

end Scope

end EztScan
