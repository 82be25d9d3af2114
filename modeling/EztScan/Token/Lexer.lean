import EztScan.Text.Pieces
import EztScan.Token.Basic

/-!
# Tokens of an Easytrieve source

A source is read line by line. A line whose first character after blanks is an asterisk is a
comment. A line that starts with `SQL`, or the word `SQL` inside a line, starts the text of a query,
which goes on to the end of the line and over the next lines as long as each one ends in `-` or `+`.
A quote starts a string that goes to the next quote, over line ends if need be. All other text is
cut into pieces at blanks, quotes and dots, and each piece is a token.

Columns count characters from one. What is open at the end of a line is the `Mode`; what is open at
the end of the source gives no token.
-/

namespace EztScan.Lexer

/-- What is open between two pieces or two lines: nothing, the text of a query, or a string. Text
that is open comes with the line and the column where it began. -/
inductive Mode where
  | code
  | query (text : List Char) (line column : Int)
  | quote (text : List Char) (line column : Int)
deriving Repr, DecidableEq

/-- The separators of the language. -/
def separators : Text.Separators :=
  Text.Separators.ofTexts ["'", "."]

/-- The word that starts a query. -/
def queryWord : List Char := ['S', 'Q', 'L']

/-- A token over some characters. -/
def token (kind : Kind) (text : List Char) (line column endLine endColumn : Int) : Token where
  text := some (String.ofList text)
  kind := some kind
  span := ⟨some line, some column, some endLine, some endColumn⟩

/-- What stands before the sign of continuation at the end of a text, if there is one. -/
def continued? (text : List Char) : Option (List Char) :=
  match text.getLast? with
  | some c => if c = '-' || c = '+' then some text.dropLast else none
  | none => none

/-- Does the line hold a comment? -/
def isCommentLine (line : List Char) : Bool :=
  match Text.strip line with
  | c :: _ => c == '*'
  | [] => false

/-- Does the line start with a query? -/
def isQueryLine (line : List Char) : Bool :=
  queryWord.isPrefixOf (Text.stripLeft line)

/-- The token of a comment line. -/
def commentToken (number : Int) (line : List Char) : Token :=
  token .comment line number 1 number (1 + line.length)

/-- Reads a line that continues a query begun before. -/
def queryLine (number : Int) (line text : List Char) (beginLine column : Int) : List Token × Mode :=
  let fragment := Text.stripRight line
  match continued? fragment with
  | some kept => ([], .query (text ++ Text.stripRight kept ++ ['\n']) beginLine column)
  | none =>
    ([token .sqlText (text ++ fragment) beginLine column number fragment.length], .code)

/-- Reads a line that starts with a query. -/
def firstQueryLine (number : Int) (line : List Char) : List Token × Mode :=
  let stripped := Text.stripLeft line
  let position : Int := line.length - stripped.length
  let word := token .keyword queryWord number (position + 1) number (position + 3)
  let column := position + 4
  let fragment := Text.stripRight (stripped.drop 3)
  match continued? fragment with
  | some kept => ([word], .query (Text.stripRight kept ++ ['\n']) number column)
  | none =>
    ([word, token .sqlText fragment number column number (column + fragment.length)], .code)

/-- Reads one piece of a line, which begins at `column`. -/
def piece (number column : Int) (mode : Mode) (p : List Char) : List Token × Mode :=
  match mode with
  | .quote text line col =>
    if p = ['\''] then ([token .string (text ++ p) line col number column], .code)
    else ([], .quote (text ++ p) line col)
  | .query text line col => ([], .query (text ++ p) line col)
  | .code =>
    if p = ['\''] then ([], .quote p number column)
    else if p = queryWord then
      ([token .keyword queryWord number column number (column + 2)],
        .query [] number (column + 3))
    else ([token .generic p number column number (column + p.length - 1)], .code)

/-- Reads the pieces of a line from `column` on. -/
def pieces (number column : Int) (mode : Mode) : List (List Char) → List Token × Mode
  | [] => ([], mode)
  | p :: ps =>
    let (first, mode) := piece number column mode p
    let (rest, mode) := pieces number (column + p.length) mode ps
    (first ++ rest, mode)

/-- Ends a line of pieces: a query ends with it unless the line is `continued`. -/
def endOfLine (number : Int) (continued : Bool) (mode : Mode) : List Token × Mode :=
  match mode with
  | .query text line col =>
    if continued then ([], .query (text ++ ['\n']) line col)
    else ([token .sqlText text line col number (col + text.length)], .code)
  | mode => ([], mode)

/-- Reads a line of pieces. -/
def pieceLine (number : Int) (line : List Char) (mode : Mode) : List Token × Mode :=
  let kept := continued? (Text.stripRight line)
  let (tokens, mode) := pieces number 1 mode (Text.cut separators (kept.getD line))
  let (last, mode) := endOfLine number kept.isSome mode
  (tokens ++ last, mode)

/-- Reads a line. -/
def line (number : Int) (text : List Char) (mode : Mode) : List Token × Mode :=
  if isCommentLine text then ([commentToken number text], mode)
  else match mode with
    | .query open_ beginLine column => queryLine number text open_ beginLine column
    | .code => if isQueryLine text then firstQueryLine number text else pieceLine number text .code
    | .quote .. => pieceLine number text mode

/-- Reads the lines from line `number` on. -/
def linesFrom (number : Int) (mode : Mode) : List (List Char) → List Token
  | [] => []
  | l :: ls =>
    let (tokens, mode) := line number l mode
    tokens ++ linesFrom (number + 1) mode ls

/-- The tokens of some lines. -/
def lexLines (lines : List String) : List Token :=
  linesFrom 1 .code (lines.map String.toList)

/-- The tokens of a source text. -/
def lex (source : String) : List Token :=
  linesFrom 1 .code (Text.lines source.toList)

/-! ### With what is open held apart

The lexer can also be run on a record of its own, where texts and places may be missing: a query and
a string each have a mark that says whether they are open, and stay behind when they are not. Going
on with a text that is missing, or measuring from a place that is, stops the run. It never comes to
that: the run gives the tokens of `lex`, as the proofs about the lexer show.
-/

/-- What is held between two pieces or two lines. -/
structure Holding where
  inQuery : Bool := false
  queryText : Option (List Char) := none
  queryLine : Option Int := none
  queryColumn : Option Int := none
  inString : Bool := false
  stringText : Option (List Char) := none
  stringLine : Option Int := none
  stringColumn : Option Int := none

/-- A text with more behind it. -/
def goOn (text : Option (List Char)) (more : List Char) : Except Fault (Option (List Char)) :=
  match text with
  | some text => .ok (some (text ++ more))
  | none => .error .textMissing

/-- A token that began at a place that was held. -/
def heldToken (kind : Kind) (text : Option (List Char)) (line column : Option Int)
    (endLine endColumn : Int) : Token where
  text := text.map String.ofList
  kind := some kind
  span := ⟨line, column, some endLine, some endColumn⟩

/-- The place where a word first stands in a text, and -1 if it does not. -/
def find (word : List Char) : List Char → Int
  | [] => if word.isEmpty then 0 else -1
  | c :: cs =>
    if word.isPrefixOf (c :: cs) then 0
    else
      let later := find word cs
      if later = -1 then -1 else later + 1

namespace Holding

/-- The token of the query that is open, which ends here, and what is held then. -/
def endQuery (s : Holding) (endLine endColumn : Int) : List Token × Holding :=
  ([heldToken .sqlText s.queryText s.queryLine s.queryColumn endLine endColumn],
    { s with inQuery := false, queryText := none, queryLine := none, queryColumn := none })

/-- Reads a line that continues a query. -/
def continueQuery (s : Holding) (number : Int) (line : List Char) :
    Except Fault (List Token × Holding) := do
  let fragment := Text.stripRight line
  match continued? fragment with
  | some kept =>
    return ([], { s with queryText := ← goOn s.queryText (Text.stripRight kept ++ ['\n']) })
  | none =>
    let text ← goOn s.queryText fragment
    return { s with queryText := text }.endQuery number fragment.length

/-- Reads a line that starts with a query. -/
def startQuery (s : Holding) (number : Int) (line : List Char) : List Token × Holding :=
  let position := find queryWord line
  let word := token .keyword queryWord number (position + 1) number (position + 3)
  let s := { s with inQuery := true, queryLine := some number, queryColumn := some (position + 4) }
  let fragment := Text.stripRight (line.drop (position + 3).toNat)
  match continued? fragment with
  | some kept => ([word], { s with queryText := some (Text.stripRight kept ++ ['\n']) })
  | none =>
    let (tokens, s) := { s with queryText := some fragment }.endQuery number
      (position + 4 + fragment.length)
    (word :: tokens, s)

/-- Reads one piece of a line. -/
def piece (s : Holding) (number column : Int) (p : List Char) :
    Except Fault (List Token × Holding) := do
  if s.inString then
    let text ← goOn s.stringText p
    if p = ['\''] then
      return ([heldToken .string text s.stringLine s.stringColumn number column],
        { s with stringText := text, inString := false })
    else return ([], { s with stringText := text })
  else if s.inQuery then return ([], { s with queryText := ← goOn s.queryText p })
  else if p = ['\''] then
    return ([], { s with
      inString := true, stringText := some p, stringLine := some number, stringColumn :=
        some column })
  else if p = queryWord then
    return ([token .keyword queryWord number column number (column + 2)], { s with
      inQuery := true, queryText := some [], queryLine := some number, queryColumn :=
        some (column + 3) })
  else return ([token .generic p number column number (column + p.length - 1)], s)

/-- Reads the pieces of a line from `column` on. -/
def pieces (s : Holding) (number column : Int) :
    List (List Char) → Except Fault (List Token × Holding)
  | [] => return ([], s)
  | p :: ps => do
    let (first, s) ← s.piece number column p
    let (rest, s) ← s.pieces number (column + p.length) ps
    return (first ++ rest, s)

/-- Ends a line of pieces. -/
def endLine (s : Holding) (number : Int) (continued : Bool) :
    Except Fault (List Token × Holding) := do
  if s.inQuery then
    if continued then return ([], { s with queryText := ← goOn s.queryText ['\n'] })
    else
      match s.queryColumn, s.queryText with
      | some column, some text => return s.endQuery number (column + text.length)
      | none, _ => throw .positionMissing
      | _, none => throw .lengthMissing
  else return ([], s)

/-- Reads a line of pieces. -/
def pieceLine (s : Holding) (number : Int) (line : List Char) :
    Except Fault (List Token × Holding) := do
  let kept := continued? (Text.stripRight line)
  let (tokens, s) ← s.pieces number 1 (← Text.split separators (kept.getD line))
  let (last, s) ← s.endLine number kept.isSome
  return (tokens ++ last, s)

/-- Reads a line. -/
def line (s : Holding) (number : Int) (text : List Char) : Except Fault (List Token × Holding) :=
  if isCommentLine text then .ok ([commentToken number text], s)
  else if s.inQuery then s.continueQuery number text
  else if isQueryLine text && !s.inString then .ok (s.startQuery number text)
  else s.pieceLine number text

/-- Reads the lines from line `number` on. -/
def linesFrom (s : Holding) (number : Int) : List (List Char) → Except Fault (List Token)
  | [] => return []
  | l :: ls => do
    let (tokens, s) ← s.line number l
    return tokens ++ (← s.linesFrom (number + 1) ls)

end Holding

/-- The tokens of some lines, by way of what is held. -/
def scanLines (lines : List String) : Except Fault (List Token) :=
  Holding.linesFrom {} 1 (lines.map String.toList)

/-- The tokens of a source text, by way of what is held. -/
def scan (source : String) : Except Fault (List Token) :=
  Holding.linesFrom {} 1 (Text.lines source.toList)

end EztScan.Lexer
