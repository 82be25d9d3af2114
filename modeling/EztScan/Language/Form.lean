import EztScan.Grammar.Index

/-!
# The forms of Easytrieve

The statements of the language as rules. A source is a program, or a macro if it says so. In a
program stand its sections (files, data, procedures, jobs, sorts, reports), each of which goes to
the next one. In all of them stand the statements that refer to files, procedures, reports, programs
and queries.
-/

namespace EztScan.Language

/-- A kind of statement of the language. -/
def statementKind (name : String) : NodeKind :=
  ⟨name, .statement, ["Statement", "Node"]⟩

/-- A kind of term of the language. -/
def termKind (name : String) : NodeKind :=
  ⟨name, .term, ["Term", "Node"]⟩

/-! ### Sources -/

/-- A macro: from `MACRO` or `MSTART` to `MEND`. -/
def macroForm : Rule where
  kind := statementKind "Macro"
  opening := some (.oneOf [.word "MACRO", .word "MSTART"])
  closing := some (.word "MEND")

/-- A program: all there is. -/
def program : Rule where
  kind := statementKind "Program"
  opening := some .any
  closing := some .never

/-! ### Sections of a program -/

/-- A section that begins with a word and goes to the next section. -/
def sectionForm (name word : String) : Rule where
  kind := statementKind name
  opening := some (.word word)
  closing := some .never
  yields := true

/-- The description of a file. -/
def file : Rule := sectionForm "File" "FILE"

/-- A field: a name and a letter for its place. -/
def data : Rule where
  kind := statementKind "Data"
  opening := some (.seq [.any, .oneOf [.word "W", .word "F", .word "C", .word "S"]])
  closing := some .never
  yields := true

/-- A procedure: from its name and `PROC` to `END-PROC`, or to the next section. -/
def procedure : Rule where
  kind := statementKind "Procedure"
  opening := some (.seq [.any, .maybe (.word "."), .word "PROC"])
  closing := some (.word "END-PROC")
  yields := true

/-- A job, which reads its input. -/
def job : Rule := { sectionForm "Job" "JOB" with completion := .input }

/-- A sort from a file to another one. -/
def sort : Rule := { sectionForm "Sort" "SORT" with completion := .sort }

/-- The description of a report. -/
def report : Rule := sectionForm "Report" "REPORT"

/-! ### Statements with operands -/

/-- A statement that is a word and the name it refers to. -/
def reference (name word : String) (role : Role) : Rule where
  kind := termKind name
  shape := some (.seq [.word word, .kind .generic])
  completion := .second role

/-- Performs a procedure. -/
def perform : Rule := reference "Perform" "PERFORM" .procedure

/-- The procedure to start or restart with. -/
def start : Rule :=
  { reference "Start" "START" .procedure with
    shape := some (.seq [.oneOf [.word "START", .word "RESTART"], .kind .generic]) }

/-- The procedure to finish with. -/
def finish : Rule := reference "Finish" "FINISH" .procedure

/-- Gets a record of a file. -/
def get : Rule := reference "Get" "GET" .file

/-- Writes a record to a file, maybe from another one. -/
def write : Rule where
  kind := termKind "Write"
  shape := some (.oneOf [
    .seq [.word "WRITE", .kind .generic, .maybe (.oneOf [.word "UPDATE", .word "ADD"]),
      .word "FROM",
      .kind .generic],
    .seq [.word "WRITE", .kind .generic]])
  completion := .fileAndFrom

/-- Puts a record into a file, maybe from another one. -/
def put : Rule where
  kind := termKind "Put"
  shape := some (.oneOf [
    .seq [.word "PUT", .kind .generic, .word "FROM", .kind .generic],
    .seq [.word "PUT", .kind .generic]])
  completion := .fileAndFourth

/-- Points to a record of a file. -/
def point : Rule := reference "Point" "POINT" .file

/-- Displays something. -/
def display : Rule := reference "Display" "DISPLAY" .file

/-- Prints a report. -/
def print : Rule := reference "Print" "PRINT" .report

/-- Calls a program. -/
def call : Rule := reference "Call" "CALL" .program

/-- Executes a query. -/
def query : Rule where
  kind := termKind "SQL"
  shape := some (.seq [.word "SQL", .kind .sqlText])
  completion := .second .query

/-! ### Grammars -/

/-- The stages for a macro. -/
def macroStages : List (List Rule) :=
  [[macroForm]]

/-- The stages for a program. -/
def programStages : List (List Rule) :=
  [[program],
    [file, data, procedure, job, sort, report],
    [perform, start, finish, get, write, print, put, point, call, query]]

/-- All forms of the language. -/
def forms : List Rule :=
  [macroForm, program, file, data, procedure, job, sort, report, perform, start, finish, get, write,
    put,
    point, display, print, call, query]

/-- The roles that operands of a kind of statement can have. -/
def rolesOf (kind : String) : List Role :=
  match kind with
  | "Perform" | "Start" | "Finish" => [.procedure]
  | "Get" | "Point" | "Display" => [.file]
  | "Put" | "Write" => [.file, .source]
  | "Job" => [.input]
  | "Sort" => [.sorted, .target]
  | "Print" => [.report]
  | "Call" => [.program]
  | "SQL" => [.query]
  | _ => []

/-! ### Groups of forms -/

/-- The entry that every group of forms has. -/
def ownEntry : String := "__class__"

/-- The members of a group of forms with these names, in the order of their characters. The group's
own entry is counted, and whatever comes last is left out. -/
def memberNames (names : List String) : List String :=
  ((ownEntry :: names).eraseDups.mergeSort fun a b => decide (a ≤ b)).dropLast

/-- A statement that may lead to a destination, which is known only after the statement has been
read. -/
structure Statement (α : Type) where
  destination : Option α := none

end EztScan.Language
