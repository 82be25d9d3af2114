import EztScan.Token.Basic

/-!
# Syntax trees

A source is read into a sequence of elements: tokens, and nodes that group elements into a
statement, a block or a term. A node has a kind, sections that say what its children are for, and
what was found out about it when it was completed. Every node made by a parser has a number of its
own, which names it for as long as the parser lives, whatever happens to its children.
-/

namespace EztScan

/-- What sort of construct a kind of node stands for. -/
inductive Family where
  /-- A node of no particular sort. -/
  | plain
  /-- A construct between a beginning and an end that may hold others of its sort. -/
  | block
  /-- A construct between a beginning and an end that holds none of its sort. -/
  | statement
  /-- A construct that one pattern covers as a whole. -/
  | term
deriving Repr, DecidableEq

/-- A kind of node: its name, its sort, and the names of the kinds that it is a special case of. -/
structure NodeKind where
  name : String
  family : Family := .plain
  bases : List String := []
deriving Repr, DecidableEq

/-- Is a node of this kind also one of the kind with that name? -/
def NodeKind.isA (k : NodeKind) (name : String) : Bool :=
  k.name == name || k.bases.contains name

/-- How many children of a node belong to each of its sections. The comments in front come first,
then the header, the opening, the inner part (all that no other section claims) and the closing. -/
structure Sections where
  comments : Int := 0
  header : Int := 0
  opening : Int := 0
  closing : Int := 0
deriving Repr, DecidableEq

/-- What an operand of a statement is to it. -/
inductive Role where
  | procedure
  | file
  | source
  | input
  | sorted
  | target
  | report
  | program
  | query
deriving Repr, DecidableEq

/-- What a statement refers to: a word of it, or a group of words that stands at a place. -/
inductive Operand where
  | word (t : Token)
  | group (place : Span)
deriving Repr, DecidableEq

namespace Operand

/-- The name that an operand gives. A group gives none. -/
def name : Operand → Option String
  | .word t => t.text
  | .group _ => none

/-- The place of an operand. -/
def span : Operand → Span
  | .word t => t.span
  | .group place => place

end Operand

/-- An element of a header: a token, or the node with this number. -/
inductive HeaderItem where
  | token (t : Token)
  | node (number : Nat)
deriving Repr, DecidableEq

/-- All of a node but its children. -/
structure Head where
  /-- The number of the node. -/
  number : Nat := 0
  kind : NodeKind
  sections : Sections := {}
  /-- What the header was made of when it was read. -/
  header : List HeaderItem := []
  /-- The name of the kind of the node that this one was put into. -/
  parent : Option String := none
  /-- The operands that were found when the node was completed. -/
  operands : List (Role × Operand) := []
deriving Repr, DecidableEq

/-- A token, or a node with its children. -/
inductive Element where
  | token (t : Token)
  | node (head : Head) (children : List Element)
deriving Repr

/-- A node: what is known about it, and its children. -/
structure Node where
  head : Head
  children : List Element := []
deriving Repr

/-- The node as an element. -/
def Node.toElement (n : Node) : Element :=
  .node n.head n.children

namespace Element

/-- The element as a node, if it is one. -/
def node? : Element → Option Node
  | .token _ => none
  | .node h cs => some ⟨h, cs⟩

/-- The text of an element. A node has none of its own. -/
def text : Element → Option String
  | .token t => t.text
  | .node .. => none

/-- The text of an element in small letters. -/
def lowerText : Element → Option String
  | .token t => t.lowerText
  | .node .. => none

/-- Has the element a text that is not empty? -/
def hasText : Element → Bool
  | .token t => t.hasText
  | .node .. => false

/-- Is the element a token of this kind? -/
def isA (e : Element) (general : Kind) : Bool :=
  match e with
  | .token t => t.isA general
  | .node .. => false

/-- Is the element a blank token? -/
def isBlank : Element → Bool
  | .token t => t.isBlank
  | .node .. => false

/-- Is the element a comment? -/
def isComment : Element → Bool
  | .token t => t.isComment
  | .node .. => false

/-- Is the element a node, or a token that is neither blank nor a comment? -/
def isCode : Element → Bool
  | .token t => t.isCode
  | .node .. => true

/-- Is the element a node of the kind with this name? -/
def isNodeOf (e : Element) (name : String) : Bool :=
  match e with
  | .token _ => false
  | .node h _ => h.kind.isA name

mutual

/-- The tokens of an element, from left to right. -/
def leaves : Element → List Token
  | .token t => [t]
  | .node _ cs => leavesOfList cs

/-- The tokens of some elements, from left to right. -/
def leavesOfList : List Element → List Token
  | [] => []
  | e :: es => e.leaves ++ leavesOfList es

end

mutual

/-- The node with this number, in or at the element. -/
def find? (number : Nat) : Element → Option Node
  | .token _ => none
  | .node h cs => if h.number = number then some ⟨h, cs⟩ else findInList? number cs

/-- The first node with this number in or among some elements. -/
def findInList? (number : Nat) : List Element → Option Node
  | [] => none
  | e :: es => (e.find? number).or (findInList? number es)

end

/-- The nodes among some elements. -/
def nodes (es : List Element) : List Node :=
  es.filterMap node?

/-- The elements that are code. -/
def code (es : List Element) : List Element :=
  es.filter isCode

@[simp] theorem leaves_token (t : Token) : (Element.token t).leaves = [t] := by
  simp [leaves]

@[simp] theorem leaves_node (h : Head) (cs : List Element) :
    (Element.node h cs).leaves = leavesOfList cs := by
  simp [leaves]

@[simp] theorem leavesOfList_nil : leavesOfList [] = [] := by
  simp [leavesOfList]

@[simp] theorem leavesOfList_cons (e : Element) (es : List Element) :
    leavesOfList (e :: es) = e.leaves ++ leavesOfList es := by
  simp [leavesOfList]

@[simp] theorem leavesOfList_append (as bs : List Element) :
    leavesOfList (as ++ bs) = leavesOfList as ++ leavesOfList bs := by
  induction as with
  | nil => simp
  | cons e es ih => simp [ih]

theorem leavesOfList_map_token (ts : List Token) : leavesOfList (ts.map .token) = ts := by
  induction ts with
  | nil => simp
  | cons t ts ih => simp [ih]

end Element

namespace Node

/-- The children that are nodes. -/
def subNodes (n : Node) : List Node :=
  Element.nodes n.children

/-- The children that are code. -/
def code (n : Node) : List Element :=
  Element.code n.children

/-- The operand with this role. -/
def operand? (n : Node) (role : Role) : Option Operand :=
  n.head.operands.lookup role

/-- The node with other operands. -/
def withOperands (n : Node) (operands : List (Role × Operand)) : Node :=
  { n with head := { n.head with operands } }

/-- Sets the operand with this role. -/
def setOperand (n : Node) (role : Role) (o : Operand) : Node :=
  let others := n.head.operands.filter fun p => p.1 != role
  n.withOperands (others ++ [(role, o)])

end Node

end EztScan
