import EztScan.Lookahead
import EztScan.Tree.Measure

/-!
# Printed trees

Two ways to print a tree: on one line (`render`), and over several lines with an indentation that
grows with the depth (`renderTree`). Of a block, the second one shows the header and then the code
of the body; of other nodes, all children.
-/

namespace EztScan

namespace Element

mutual

/-- The element on one line. -/
def render : Element → String
  | .token t => t.render
  | .node h cs => h.kind.name ++ "[" ++ ", ".intercalate (renderAll cs) ++ "]"

/-- Some elements, each on one line. -/
def renderAll : List Element → List String
  | [] => []
  | e :: es => e.render :: renderAll es

end

/-- Some elements on one line. -/
def renderList (es : List Element) : String :=
  "[" ++ ", ".intercalate (renderAll es) ++ "]"

/-- The indentation at a depth. -/
def indent (depth : Int) : String :=
  String.ofList (List.replicate (depth * 2).toNat ' ')

/-- The lines that show the header of a block. -/
def headerLines (depth : Int) (header : List HeaderItem) (children : List Element) : List String :=
  if header.isEmpty then []
  else (indent depth ++ "  header") :: header.map fun item =>
    indent depth ++ "     " ++ match item with
      | .token t => t.render
      | .node number => ((findInList? number children).map (·.toElement.render)).getD ""

mutual

/-- The lines that show an element. -/
def treeLines (depth : Int) : Element → Except Fault (List String)
  | .token t => .ok [indent depth ++ " " ++ t.render]
  | .node h cs => do
    let title := indent depth ++ " " ++ h.kind.name
    if h.kind.family = .block then
      let start := h.sections.comments + h.sections.header
      if start < 0 then .error .sectionNegative
      else
        let body ← bodyLines depth start.toNat cs
        return title :: headerLines depth h.header cs ++ body
    else
      let rest ← listLines (depth + 1) cs
      return title :: rest

/-- The lines that show the code of a block's body, which starts after `skip` children. -/
def bodyLines (depth : Int) (skip : Nat) : List Element → Except Fault (List String)
  | [] => .ok []
  | e :: es =>
    match skip with
    | k + 1 => bodyLines depth k es
    | 0 => do
      let first ← match e with
        | .token t => .ok (if t.isCode then [indent depth ++ "   " ++ t.render] else [])
        | .node h cs => (Element.node h cs).treeLines (depth + 1)
      let rest ← bodyLines depth 0 es
      return first ++ rest

/-- The lines that show some elements. -/
def listLines (depth : Int) : List Element → Except Fault (List String)
  | [] => .ok []
  | e :: es => do
    let first ← e.treeLines depth
    let rest ← listLines depth es
    return first ++ rest

end

/-- Lines one below the other. -/
def joinLines (ls : List String) : String :=
  String.join (ls.map (· ++ "\n"))

/-- The element over several lines. -/
def renderTree (depth : Int) (e : Element) : Except Fault String :=
  joinLines <$> e.treeLines depth

end Element

/-- A stream of elements as it is printed: whether a lookahead is open, and what has been read. -/
def Lookahead.render (s : Lookahead Element) : String :=
  "Lookahead(lookahead=" ++ renderTruth s.looking ++ ", index=" ++ toString s.index ++ ", tokens="
    ++ Element.renderList s.buffer ++ ")"

end EztScan
