import EztScan.Lookahead
import EztScan.Tree.Basic

/-!
# Moving to an element

A stream of elements can be moved on to just behind the first element that has one of some texts or
kinds. A token that cannot be compared ends the search, and so does the end of the stream.
-/

namespace EztScan

/-- What a search looks for. -/
inductive Target where
  /-- A token that stands for this text. -/
  | word (text : String)
  /-- A token of exactly this kind. -/
  | kind (k : Kind)
deriving Repr

/-- Does a token stand for one of the texts? -/
def Token.hasTargetText (t : Token) : List Target → Except Fault Bool
  | [] => .ok false
  | .word text :: targets => do
    if ← t.equalsText text then return true else t.hasTargetText targets
  | .kind _ :: targets =>
    if t.caseSensitive || t.text.isSome then t.hasTargetText targets else .error .textMissing

/-- Is a token of one of the kinds? -/
def Token.hasTargetKind (t : Token) (targets : List Target) : Bool :=
  targets.any fun target => match target with
    | .kind k => t.kind == some k
    | .word _ => false

/-- Is the element what the search looks for? -/
def Element.isTarget (e : Element) (targets : List Target) : Except Fault Bool :=
  match e with
  | .token t => do
    if ← t.hasTargetText targets then return true else return t.hasTargetKind targets
  | .node .. => .ok false

namespace Lookahead

/-- Moves on, over at most `fuel` elements, to just behind the first target. -/
def moveToWithin (targets : List Target) :
    Nat → Lookahead Element → Option Element × Lookahead Element
  | 0, s => (none, s)
  | fuel + 1, s =>
    match s.next with
    | .error _ => (none, s)
    | .ok (e, s) =>
      match e.isTarget targets with
      | .error _ => (none, s)
      | .ok true => (some e, s)
      | .ok false => moveToWithin targets fuel s

/-- Moves on to just behind the first target, which it gives. -/
def moveTo (targets : List Target) (s : Lookahead Element) : Option Element × Lookahead Element :=
  moveToWithin targets (s.toList.length + 1) s

end Lookahead

end EztScan
