import EztScan.Language.Form
import EztScan.Parser

/-!
# Reading Easytrieve sources

From a source text to its syntax tree, and the names that statements declare. A first line that a
preprocessor has put in front (`BEGIN_PROGRAM(`) is not part of the source. Queries are named by
their first words.
-/

namespace EztScan.Language

/-- Sends tokens through stages with these rules. -/
def readWith (stages : List (List Rule)) (tokens : List Token) : Reading :=
  match stages.mapM Scope.ofRules with
  | .error f => ⟨[], some f⟩
  | .ok scopes => Scope.parseAll scopes tokens

/-- The mark of a preprocessor in front of a source. -/
def preprocessorMark : List Char := "BEGIN_PROGRAM(".toList

/-- The text after the first line, or the whole text if it has one line only. -/
def dropLine (cs : List Char) : List Char :=
  match cs.dropWhile (· != '\n') with
  | [] => cs
  | _ :: rest => rest

/-- The source without the line that a preprocessor has put in front. -/
def withoutMark (cs : List Char) : List Char :=
  if preprocessorMark.isPrefixOf cs then dropLine cs else cs

/-- Does the source say that it is a macro? -/
def isMacroSource (cs : List Char) : Bool :=
  "MACRO".toList.isPrefixOf cs

/-- The stages for a source. -/
def stagesFor (cs : List Char) : List (List Rule) :=
  if isMacroSource cs then macroStages else programStages

/-- Reads a source. -/
def parse (source : String) : Reading :=
  let cs := withoutMark source.toList
  readWith (stagesFor cs) (Lexer.lex (String.ofList cs))

/-- Is the node the root of a source? -/
def isRoot (n : Node) : Bool :=
  n.head.kind.isA "Program" || n.head.kind.isA "Macro"

/-! ### Names -/

/-- Is the query a call of a stored procedure? -/
def isExecution (query : List Char) : Bool :=
  "EXEC".toList.isPrefixOf (Text.upper (String.ofList query)).toList

/-- The name of a query: its first four words, or two for a call of a procedure, whose parameters
are left out. A query with no more words than that is its own name. -/
def queryName (query : String) : String :=
  let stripped := Text.strip query.toList
  let count := if isExecution stripped then 2 else 4
  let words := Text.words stripped
  if words.length > count then " ".intercalate ((words.take count).map String.ofList)
  else String.ofList stripped

/-- The text of a word of a statement, counted from zero without blanks and comments. -/
def wordText (n : Node) (i : Nat) : Except Fault (Option String) :=
  match n.code[i]? with
  | some e => .ok e.text
  | none => .error .exhausted

/-- The text of the query of a statement. -/
def queryText (n : Node) : Except Fault (Option String) :=
  match n.operand? .query with
  | some o => .ok o.name
  | none => .error .operandMissing

/-- The name that a statement declares: of files and reports the second word, of procedures the
first one, of queries the one made from their text. -/
def declaredName (n : Node) : Except Fault (Option String) :=
  match n.head.kind.name with
  | "File" | "Report" => wordText n 1
  | "Procedure" => wordText n 0
  | "SQL" => do
    match ← queryText n with
    | some text => return some (queryName text)
    | none => .error .textMissing
  | _ => .error .operandMissing

end EztScan.Language
