import EztScan.Tree.Section

/-!
# What is measured on a tree

Places of nodes, comments, line counts and check sums. A node begins where the first of its children
begins whose beginning is known, and ends where the last one does whose end is known; a place of
zero counts as not known. The check sum goes over the code only.
-/

namespace EztScan

/-- A number other than zero. -/
def isKnown : Option Int → Bool
  | some n => n != 0
  | none => false

namespace Element

mutual

/-- A number of the place of an element, taken from the first child that knows it. -/
def firstKnown (get : Span → Option Int) : Element → Option Int
  | .token t => get t.span
  | .node _ cs => firstKnownOf get cs

/-- The number that the first of some elements knows, or else what the last one says. -/
def firstKnownOf (get : Span → Option Int) : List Element → Option Int
  | [] => none
  | [e] => e.firstKnown get
  | e :: es =>
    let own := e.firstKnown get
    if isKnown own then own else firstKnownOf get es

end

mutual

/-- A number of the place of an element, taken from the last child that knows it. -/
def lastKnown (get : Span → Option Int) : Element → Option Int
  | .token t => get t.span
  | .node _ cs => lastKnownOf get cs

/-- The number that the last of some elements knows, or else what the first one says. -/
def lastKnownOf (get : Span → Option Int) : List Element → Option Int
  | [] => none
  | e :: es =>
    let later := lastKnownOf get es
    if isKnown later then later else e.lastKnown get

end

/-- The place of an element. -/
def span (e : Element) : Span where
  beginLine := e.firstKnown Span.beginLine
  beginColumn := e.firstKnown Span.beginColumn
  endLine := e.lastKnown Span.endLine
  endColumn := e.lastKnown Span.endColumn

/-- The number of lines of an element. -/
def lineCount (e : Element) : Except Fault Int :=
  e.span.lineCount

mutual

/-- The check sum of the code of an element, continued from `start`. -/
def crc (start : Int) : Element → Int
  | .token t => t.crc start
  | .node _ cs => crcOfList start cs

/-- The check sum of the code among some elements, continued from `start`. -/
def crcOfList (start : Int) : List Element → Int
  | [] => start
  | e :: es => crcOfList (if e.isCode then e.crc start else start) es

end

/-- The distance from a check sum to the signed form of it that is kept. -/
def crcOffset : Int := 2147483648

/-- The check sum of the code of an element, as it is kept. -/
def codeCrc (e : Element) (start : Int) : Int :=
  e.crc start - crcOffset

mutual

/-- The comments after the first code in the body of a node, and those of the nodes in it. -/
def bodyComments : Element → List Token
  | .token _ => []
  | .node h cs =>
    bodyCommentsOf (placeOf cs.length (h.sections.comments + h.sections.header)) false cs

/-- The comments among some elements, after `skip` of them and once code has been `seen`, and those
of the nodes among them. -/
def bodyCommentsOf (skip : Nat) (seen : Bool) : List Element → List Token
  | [] => []
  | e :: es =>
    match skip with
    | k + 1 => bodyCommentsOf k seen es
    | 0 =>
      match e with
      | .token t =>
        (if t.isComment && seen then [t] else []) ++ bodyCommentsOf 0 (seen || t.isCode) es
      | .node h cs => (Element.node h cs).bodyComments ++ bodyCommentsOf 0 seen es

end

/-- The operand that an element stands for. -/
def toOperand (e : Element) : Operand :=
  match e with
  | .token t => .word t
  | .node .. => .group e.span

end Element

namespace Node

/-- The place of a node. -/
def span (n : Node) : Span :=
  n.toElement.span

end Node

end EztScan
