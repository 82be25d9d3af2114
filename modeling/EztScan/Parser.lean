import EztScan.Grouping.Regroup
import EztScan.Token.Indent
import EztScan.Token.Lexer
import EztScan.Token.Position

/-!
# Parsers

A parser sends the tokens of a source through several stages, each with a grammar of its own, and
gives what the last one hands on. `Scope.parseAll` does so once, from empty desks. A `Parser` can
read several sources one after the other: whatever its stages have on their desks when a source ends
is there when the next one begins.

A stage that stops on a fault asks for no more elements, so that the stages before it rest where
they are. To find the desks they leave, they are run again and asked only for what was needed
(`Parser.demands`).
-/

namespace EztScan

/-- What came of reading a source: elements, and the fault that ended the reading. -/
structure Reading where
  elements : List Element
  fault : Option Fault := none

/-- A stage ready to run: its grammar, its desk, and how many elements it is asked for. -/
structure StageJob where
  scope : Scope
  desk : Desk := {}
  wanted : Option Nat := none

/-- A stage that has run: what it was given, and what it has done. -/
structure StageDone where
  job : StageJob
  bench : Bench
  outcome : Stage.Outcome

namespace StageDone

/-- How many elements the stage has asked for. -/
def asked (d : StageDone) : Nat :=
  d.bench.stream.upcoming.length - d.outcome.bench.stream.upcoming.length

end StageDone

/-- A desk with the nodes on it replaced by what they have become. -/
def Desk.refresh (l : Ledger) (d : Desk) : Desk :=
  let fresh (o : OpenNode) : OpenNode := o.withNode (l.refreshNode o.node)
  { d with statement := d.statement.map fresh, stack := d.stack.map fresh }

/-- Runs a stage on a bench. Asked for nothing, it does not begin. -/
def StageJob.runOn (shared : List Nat) (depth : Nat) (job : StageJob) (bench : Bench) : StageDone :=
  if job.wanted = some 0 then ⟨job, bench, ⟨[], some .atRest, bench⟩⟩
  else ⟨job, bench, Stage.runScope job.scope shared depth job.wanted bench⟩

/-- Runs stages one after the other, each one on what the one before hands on. -/
def runStages (shared : List Nat) (depth : Nat) :
    List StageJob → Ledger → List Element → Option Fault → List StageDone
  | [], _, _, _ => []
  | job :: jobs, ledger, input, broken =>
    let desk := if shared.isEmpty then job.desk else job.desk.refresh ledger
    let done := job.runOn shared depth { desk, stream := { upcoming := input, broken }, ledger }
    let o := done.outcome
    done :: runStages shared depth jobs o.bench.ledger o.out o.fault

/-- What the last stage has handed on. -/
def readingOf (dones : List StageDone) (input : List Element) : Reading :=
  match dones.getLast? with
  | some d => ⟨d.outcome.out, d.outcome.fault⟩
  | none => ⟨input, none⟩

/-- Sends tokens through stages with these grammars, from empty desks. -/
def Scope.parseAll (scopes : List Scope) (tokens : List Token) : Reading :=
  let input := tokens.map Element.token
  readingOf (runStages [] (tokens.length + 1) (scopes.map ({ scope := · })) {} input none) input

/-- A source: a text, or tokens that have no places yet. -/
inductive Source where
  | text (source : String)
  | tokens (pairs : List (Option Kind × Option String))

/-- A parser: the grammars of its stages with what is on their desks, the ledger of nodes and the
numbers of those that are shared, the number of tokens it has been given, and the counters for
tokens without places. -/
structure Parser where
  scopes : List Scope
  desks : List Desk
  ledger : Ledger := {}
  shared : List Nat := []
  tokenCount : Nat := 0
  caseSensitive : Bool := false
  indents : Bool := false
  place : Place := {}
  indent : Indent := {}

namespace Parser

/-- A new parser with these grammars. -/
def new (scopes : List Scope) (caseSensitive indents : Bool) : Parser :=
  { scopes, desks := scopes.map fun _ => {}, caseSensitive, indents }

/-- A token that is handed to the first stage, with the counters at that time. -/
structure Fed where
  token : Token
  place : Place
  indent : Indent

/-- All tokens that a source gives, the counters after them, and the fault at their end. -/
structure Feed where
  tokens : List Fed
  place : Place
  indent : Indent
  fault : Option Fault := none

/-- Puts indentation marks between placed tokens. -/
def markAll (place : Place) (indent : Indent) (fault : Option Fault) : List (Token × Place) → Feed
  | [] => ⟨[], place, indent, fault⟩
  | (t, after) :: rest =>
    match indent.step t with
    | (out, indent, some f) => ⟨out.map fun o => ⟨o.1, after, o.2⟩, after, indent, some f⟩
    | (out, indent, none) =>
      let feed := markAll after indent fault rest
      { feed with tokens := out.map (fun o => ⟨o.1, after, o.2⟩) ++ feed.tokens }

/-- The tokens that a source gives to the first stage. -/
def feed (p : Parser) (source : Source) : Feed :=
  match source with
  | .text s => ⟨(Lexer.lex s).map fun t => ⟨t, p.place, p.indent⟩, p.place, p.indent, none⟩
  | .tokens pairs =>
    let (placed, fault) := p.place.placeAll p.caseSensitive pairs
    if p.indents then markAll p.place p.indent fault placed
    else
      let last := (placed.getLast?.map (·.2)).getD p.place
      ⟨placed.map fun t => ⟨t.1, t.2, p.indent⟩, last, p.indent, fault⟩

/-- How many elements each of some stages is asked for, if the stage after the first of them is
given `wanted`. The stages are given with the last one first, and so are the numbers. -/
def demands (shared : List Nat) (depth : Nat) : List StageDone → Nat → List (Option Nat)
  | [], _ => []
  | d :: ds, wanted =>
    let again := { d.job with wanted := some wanted }.runOn shared depth d.bench
    some wanted :: demands shared depth ds again.asked

/-- The stages before the first one that stopped, and that one. -/
def splitAtFault : List StageDone → List StageDone × Option StageDone
  | [] => ([], none)
  | d :: ds =>
    if d.outcome.fault.isSome then ([], some d)
    else
      let (before, stopped) := splitAtFault ds
      (d :: before, stopped)

/-- Runs the stages. If one of them stops, the ones before it are asked only for what it has
taken. -/
def runAll (shared : List Nat) (depth : Nat) (jobs : List StageJob) (ledger : Ledger)
    (input : List Element) (broken : Option Fault) : List StageDone :=
  let dones := runStages shared depth jobs ledger input broken
  match splitAtFault dones with
  | (before, some stopped) =>
    let wanted := (demands shared depth before.reverse stopped.asked).reverse
    let limited := jobs.zipIdx.map fun (job, i) => { job with wanted := (wanted[i]?).join }
    runStages shared depth limited ledger input broken
  | (_, none) => dones

/-- The counters after a source of which the first stage has asked for some tokens. -/
def countersAfter (p : Parser) (feed : Feed) (first : Option StageDone) : Place × Indent :=
  match first with
  | some d =>
    if d.outcome.fault.isSome && d.outcome.fault != feed.fault then
      match d.asked with
      | 0 => (p.place, p.indent)
      | n + 1 => ((feed.tokens[n]?).map fun t => (t.place, t.indent)).getD (feed.place, feed.indent)
    else (feed.place, feed.indent)
  | none => (feed.place, feed.indent)

/-- Reads a source. -/
def read (p : Parser) (source : Source) : Reading × Parser :=
  let feed := p.feed source
  let input := feed.tokens.map fun t => Element.token t.token
  let tokenCount := p.tokenCount + input.length
  let jobs := (p.scopes.zip p.desks).map fun (scope, desk) => { scope, desk }
  let dones := runAll p.shared (tokenCount + 1) jobs p.ledger input feed.fault
  let ledger := ((dones.getLast?).map (·.outcome.bench.ledger)).getD p.ledger
  let desks := dones.map fun d => d.outcome.bench.desk.refresh ledger
  let reading := readingOf dones input
  let reading := if p.shared.isEmpty then reading
    else { reading with elements := reading.elements.map ledger.refresh }
  let (place, indent) := p.countersAfter feed dones.head?
  let open_ := desks.flatMap fun d => d.openNodes.map (·.head.number)
  let shared := p.shared ++ open_.filter fun k => !p.shared.contains k
  (reading, { p with desks, ledger := ledger.settle, shared, tokenCount, place, indent })

/-- Reads sources one after the other. -/
def readAll (p : Parser) : List Source → List Reading
  | [] => []
  | s :: ss =>
    let (reading, p) := p.read s
    reading :: readAll p ss

end Parser

end EztScan
