import EztScan.Tree.Basic

/-!
# Sections of a node

The children of a node fall into comments in front, header, opening, inner part and closing. The
lengths of the sections are plain numbers, which may come from outside: an index before the first
child counts from the end, and one after the last child stands for the end. Where a section is asked
for by a range of its own, indices before the first child are faults.
-/

namespace EztScan

/-- The place in a list of this length that an index stands for. -/
def placeOf (length : Nat) (i : Int) : Nat :=
  if i < 0 then (length + i).toNat else min i.toNat length

/-- The elements from one index to another. -/
def slice {α : Type} (xs : List α) (first last : Int) : List α :=
  (xs.take (placeOf xs.length last)).drop (placeOf xs.length first)

/-- The elements from one place to another, where no place may lie before the first element. -/
def range {α : Type} (xs : List α) (first last : Int) : Except Fault (List α) :=
  if last = -1 then .error .sectionEndNegative
  else if first < 0 || last < 0 then .error .sectionNegative
  else .ok ((xs.take last.toNat).drop first.toNat)

namespace Node

variable (n : Node)

/-- The index of the first child after comments and header. -/
def bodyStart : Int :=
  n.head.sections.comments + n.head.sections.header

/-- The index of the first child of the inner part. -/
def innerStart : Int :=
  n.bodyStart + n.head.sections.opening

/-- The index of the first child of the closing. -/
def innerEnd : Int :=
  n.children.length - n.head.sections.closing

/-- The code of the header. -/
def headerCode : Except Fault (List Element) := do
  let es ← range n.children n.head.sections.comments n.bodyStart
  return Element.code es

/-- The code after the header, opening and closing included. -/
def bodyCode : Except Fault (List Element) :=
  if n.bodyStart < 0 then .error .sectionNegative
  else .ok (Element.code (n.children.drop n.bodyStart.toNat))

/-- The code of the inner part. -/
def innerCode : Except Fault (List Element) := do
  let es ← range n.children n.innerStart n.innerEnd
  return Element.code es

/-- The children before the inner part. -/
def front : List Element :=
  n.children.take (placeOf n.children.length n.innerStart)

/-- The children of the inner part. -/
def inner : List Element :=
  slice n.children n.innerStart n.innerEnd

/-- The children after the inner part. -/
def back : List Element :=
  n.children.drop (placeOf n.children.length n.innerEnd)

/-- The node with another inner part. -/
def replaceInner (es : List Element) : Node :=
  { n with children := n.front ++ es ++ n.back }

/-- The comments in front. -/
def headerComments : List Element :=
  (slice n.children 0 n.head.sections.comments).filter Element.isComment

/-- The first child that is code. -/
def firstCode : Except Fault Element :=
  match n.code with
  | e :: _ => .ok e
  | [] => .error .exhausted

end Node

end EztScan
