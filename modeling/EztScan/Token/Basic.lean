import EztScan.Fault
import EztScan.Text.Case
import EztScan.Text.Checksum
import EztScan.Text.Quoted

/-!
# Tokens

A token is a piece of source text with a kind and a place. Kinds are dotted paths, and a kind is a
special case of every kind that its path starts with (`Kind.isA`). Text, kind and place may each be
missing: marks that a filter puts between the tokens of a source have a kind only.
-/

namespace EztScan

/-- The kind of a token, as the names on the way from the most general kind. -/
structure Kind where
  path : List String
deriving Repr, DecidableEq

namespace Kind

/-- The most general kind. -/
def root : Kind := ⟨[]⟩
/-- A piece of code without a closer kind. -/
def generic : Kind := ⟨["Generic"]⟩
/-- The text of an embedded query. -/
def sqlText : Kind := ⟨["Generic", "SQLText"]⟩
/-- A comment. -/
def comment : Kind := ⟨["Comment"]⟩
/-- A word with a meaning of its own. -/
def keyword : Kind := ⟨["Keyword"]⟩
/-- A text between quotes. -/
def string : Kind := ⟨["Literal", "String"]⟩
/-- Blanks between other tokens. -/
def whitespace : Kind := ⟨["Text", "Whitespace"]⟩
/-- The mark before a line that is indented further than the one before. -/
def increaseIndent : Kind := ⟨["IncreaseIndent"]⟩
/-- The mark before a line that is indented less than the one before. -/
def decreaseIndent : Kind := ⟨["DecreaseIndent"]⟩

/-- Is the first kind the second one or a special case of it? -/
def isA (k general : Kind) : Bool :=
  general.path.isPrefixOf k.path

/-- The kind as it is printed. -/
def render (k : Kind) : String :=
  ".".intercalate ("Token" :: k.path)

@[simp] theorem isA_root (k : Kind) : k.isA root = true := by
  simp [isA, root]

@[simp] theorem isA_self (k : Kind) : k.isA k = true := by
  simp [isA]

end Kind

/-- Where a piece of text begins and ends. What is not known is left out. -/
structure Span where
  beginLine : Option Int := none
  beginColumn : Option Int := none
  endLine : Option Int := none
  endColumn : Option Int := none
deriving Repr, DecidableEq

/-- The number of lines from the first to the last one. -/
def Span.lineCount (s : Span) : Except Fault Int :=
  match s.endLine, s.beginLine with
  | some e, some b => .ok (e - b + 1)
  | _, _ => .error .positionMissing

/-- A truth value as it is printed. -/
def renderTruth (b : Bool) : String :=
  if b then "True" else "False"

/-- A number or the word for its absence. -/
def renderNumber : Option Int → String
  | some n => toString n
  | none => "None"

/-- The four numbers of a place as they are printed. -/
def Span.render (s : Span) : String :=
  ",".intercalate
    [renderNumber s.beginLine, renderNumber s.beginColumn, renderNumber s.endLine,
      renderNumber s.endColumn]

/-- A piece of source text with its kind and place. -/
structure Token where
  text : Option String
  kind : Option Kind
  span : Span := {}
  caseSensitive : Bool := false
deriving Repr, DecidableEq

namespace Token

/-- The text in small letters. An empty text counts as none. -/
def lowerText (t : Token) : Option String :=
  match t.text with
  | some s => if s.isEmpty then none else some (Text.lower s)
  | none => none

/-- Is the kind of the token a special case of `general`? A token without a kind is of none. -/
def isA (t : Token) (general : Kind) : Bool :=
  match t.kind with
  | some k => k.isA general
  | none => false

/-- A token that stands for blanks. An indentation mark is none, though it has no text. -/
def isBlank (t : Token) : Bool :=
  if t.kind = some .whitespace then true
  else if t.kind = some .increaseIndent || t.kind = some .decreaseIndent then false
  else match t.text with
    | some s => s.isEmpty || Text.isBlankText s
    | none => true

/-- A token that stands for a comment. -/
def isComment (t : Token) : Bool :=
  t.isA .comment

/-- A token that is neither blank nor a comment. -/
def isCode (t : Token) : Bool :=
  !t.isBlank && !t.isComment

/-- Has the token a text that is not empty? -/
def hasText (t : Token) : Bool :=
  match t.text with
  | some s => !s.isEmpty
  | none => false

/-- The check sum of the text, continued from `start`. -/
def crc (t : Token) (start : Int) : Int :=
  match t.text with
  | some s => Text.crc start s
  | none => start

/-- Does the token stand for this text? Case counts for case sensitive tokens only. -/
def equalsText (t : Token) (s : String) : Except Fault Bool :=
  if t.caseSensitive then .ok (t.text == some s)
  else match t.text with
    | some own => .ok (Text.lower own == Text.lower s)
    | none => .error .textMissing

/-- Do two tokens stand for the same text? The second token decides, on the text of the first one,
in small letters unless the first one is case sensitive. -/
def equals (t other : Token) : Except Fault Bool :=
  match t.text with
  | some own => other.equalsText (if t.caseSensitive then own else Text.lower own)
  | none =>
    if !t.caseSensitive then .error .textMissing
    else if other.caseSensitive then .ok other.text.isNone
    else match other.text with
      | some _ => .ok false
      | none => .error .textMissing

/-- The token as it is printed. -/
def render (t : Token) : String :=
  let kind := match t.kind with
    | some k => k.render
    | none => "None"
  let text := match t.text with
    | some s => Text.quoted s
    | none => "None"
  "Token(" ++ kind ++ "," ++ text ++ "," ++ t.span.render ++ ")"

end Token

end EztScan
