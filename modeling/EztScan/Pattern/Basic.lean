import EztScan.Text.Letter
import EztScan.Tree.Basic

/-!
# Patterns

A pattern describes elements that follow each other in a stream. Blanks and comments between them do
not count. A grammar says by patterns where its constructs begin and end. What the shape of the
parts cannot say is said by a `Test`, which may read ahead by itself.
-/

namespace EztScan

/-- What a test does: it answers, stops with a fault, or asks for the next element that is code and
goes on from that element, or from the end of the stream. -/
inductive Probe where
  | answer (passed : Bool)
  | stop (f : Fault)
  | ask (next : Option Element → Probe)

/-- A test that a pattern can make beyond the shape of its parts. -/
structure Test where
  /-- The name that the test is printed with. -/
  name : String
  /-- Does the test give no answer instead of a negative one? -/
  silent : Bool := false
  probe : Element → Probe

namespace Test

/-- The element is made of letters. -/
def letters : Test where
  name := "alpha"
  probe e := .answer ((e.text.map Text.isLetters).getD false)

/-- The element after this one is an `x`, which is taken too. -/
def thenX : Test where
  name := "then_x"
  probe _ := .ask fun
    | some e => .answer (e.text == some "x")
    | none => .stop .exhausted

/-- A test that asks for more than it can be given, so that it gives no answer. -/
def unanswered : Test where
  name := "three"
  silent := true
  probe _ := .answer false

/-- A test that does not say what it asks for. -/
def unmeasured : Test where
  name := "plain"
  probe _ := .stop .arityUnknown

end Test

/-- A description of elements that follow each other. -/
inductive Pattern where
  /-- Nothing at all fits. -/
  | never
  /-- A token with this text, in any case, that is not a string. -/
  | word (text : String)
  /-- A token of this kind. -/
  | kind (k : Kind)
  /-- A token with exactly the text of this one, and of its kind. -/
  | exactly (t : Token)
  /-- Anything but this. -/
  | refuse (p : Pattern)
  /-- What comes next is not this. -/
  | notFollowedBy (p : Pattern)
  /-- Any element. -/
  | any
  /-- This or nothing. -/
  | maybe (p : Pattern)
  /-- These one after the other. -/
  | seq (ps : List Pattern)
  /-- The first of these that fits. -/
  | oneOf (ps : List Pattern)
  /-- This, once or several times. -/
  | repeated (p : Pattern)
  /-- A node of the kind with this name. -/
  | node (name : String)
  /-- An element that passes this test. -/
  | test (t : Test)

namespace Pattern

/-- Is the pattern an optional one? -/
def isMaybe : Pattern → Bool
  | .maybe _ => true
  | _ => false

/-- Does the pattern give no answer instead of a negative one? -/
def isSilent : Pattern → Bool
  | .never => true
  | .test t => t.silent
  | _ => false

/-- Is the pattern well made? An optional pattern is of no use as an alternative. -/
def isSound : Pattern → Bool
  | .oneOf ps => !ps.any isMaybe
  | _ => true

mutual

/-- The pattern as it is printed. -/
def render : Pattern → String
  | .never => "None"
  | .word text => text
  | .kind k => k.render
  | .exactly t => t.render
  | .refuse p => "Not(" ++ p.render ++ ")"
  | .notFollowedBy p => "NotFollowedBy(" ++ p.render ++ ")"
  | .any => "Any()"
  | .maybe p => "Optional(" ++ p.render ++ ")"
  | .seq ps => "Seq(" ++ ",".intercalate (renderAll ps) ++ ")"
  | .oneOf ps => "Or(" ++ ",".intercalate (renderAll ps) ++ ")"
  | .repeated p => "Repeat(" ++ p.render ++ ")"
  | .node name => name
  | .test t => t.name

/-- Some patterns as they are printed. -/
def renderAll : List Pattern → List String
  | [] => []
  | p :: ps => p.render :: renderAll ps

end

end Pattern

end EztScan
