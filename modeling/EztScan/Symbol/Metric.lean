import EztScan.Symbol.Basic

/-!
# What is measured on a symbol

Comments, lines of code and the check sum of a symbol, all taken from its syntax tree. Comments take
a line each, so that the lines of code are the lines on which tokens begin without as many lines as
there are comments.
-/

namespace EztScan

namespace SyntaxTree

/-- How often the line changes from one token to the next one, the first token included. -/
def lineChanges : Option Int → List Token → Int
  | _, [] => 0
  | before, t :: ts =>
    (if t.span.beginLine = before then 0 else 1) + lineChanges t.span.beginLine ts

/-- The comments in front. -/
def headerComments (t : SyntaxTree) : Except Fault (List Element) :=
  Node.headerComments <$> t.requireRoot

/-- The comments inside. -/
def bodyComments (t : SyntaxTree) : Except Fault (List Token) :=
  (fun n : Node => n.toElement.bodyComments) <$> t.requireRoot

/-- The number of lines of code. -/
def codeLines (t : SyntaxTree) : Except Fault Int := do
  let es ← t.elements
  let body ← t.bodyComments
  let header ← t.headerComments
  return lineChanges (some (-1)) (Element.leavesOfList es) - body.length - header.length

/-- The check sum of the code. -/
def codeCrc : SyntaxTree → Except Fault Int
  | .absent => .error .valueMissing
  | .forest es => .ok (Element.crcOfList 0 es - Element.crcOffset)
  | .root n => .ok (n.toElement.codeCrc 0)

/-- The lines that show a tree. -/
def treeLines (depth : Int) (t : SyntaxTree) : Except Fault (List String) := do
  Element.listLines depth (← t.elements)

end SyntaxTree

/-- A symbol with its tree over several lines. -/
def Symbol.renderTree (s : Symbol) (depth : Int) : Except Fault String := do
  let below ← s.tree.treeLines (depth + 1)
  return Element.joinLines ((Element.indent depth ++ " " ++ s.kind.name) :: below)

end EztScan
