import EztScan.Event
import EztScan.Text.Numeric
import EztScan.Work

/-!
# Applications

After all programs have been analysed, an application holds the objects and links of all its
technologies. Here the Easytrieve programs are joined to what runs them. A job step that runs the
interpreter calls the program of the same name as the prototype it refers to (`stepCalls`); a
prototype stands for the program of its name; and a data set that a step uses, with a member in
brackets behind its name, holds the source of the program with the name of the member.
-/

namespace EztScan

/-- An object of an application. There are objects that refuse to tell their name when they are
asked for it, though it is known. -/
structure Part where
  id : Int
  name : String
  type : String
  nameless : Bool := false
deriving Repr, DecidableEq

/-- A link of an application, with the places that it comes from. -/
structure PartLink where
  caller : Int
  callee : Int
  positions : List String := []
deriving Repr, DecidableEq

/-- The objects and links of an application, and the kinds of links that it does not take. -/
structure Application where
  parts : List Part
  links : List PartLink
  refused : List String := []

/-- A link whose two ends have been looked up. -/
structure Join where
  caller : Part
  callee : Part
  positions : List String
deriving Repr, DecidableEq

/-- The name of an object, as it tells it. -/
def Part.tellName (p : Part) : Except Fault String :=
  if p.nameless then .error (.nameless p.id) else .ok p.name

namespace Application

/-- The type of Easytrieve programs. -/
def programType : String := "Eztprogram"
/-- The type of programs that are called by name and not known. -/
def prototypeType : String := "CAST_COBOL_ProgramPrototype"
/-- The type of programs that come with the system. -/
def utilityType : String := "CAST_COBOL_UtilityProgram"
/-- The type of the steps of jobs. -/
def stepType : String := "CAST_JCL_Step"
/-- The types of data sets. -/
def dataSetTypes : List String := ["CAST_JCL_Dataset", "CAST_JCL_ResolvedDataset"]
/-- The name of the interpreter of Easytrieve programs. -/
def interpreterName : String := "EZTPA00"

variable (a : Application)

/-- The objects of one of these types. -/
def ofTypes (types : List String) : List Part :=
  a.parts.filter fun p => types.contains p.type

/-- The Easytrieve programs. -/
def programs : List Part :=
  a.ofTypes [programType]

/-- The programs that are called by name and not known. -/
def prototypes : List Part :=
  a.ofTypes [prototypeType]

/-- The link with its two ends looked up, if it leads from a step of a job to an object of one of
these types. -/
def join? (types : List String) (l : PartLink) : Option Join :=
  match (a.ofTypes [stepType]).find? (·.id == l.caller),
    (a.ofTypes types).find? (·.id == l.callee) with
  | some caller, some callee => some ⟨caller, callee, l.positions⟩
  | _, _ => none

/-- The links from steps of jobs to objects of one of these types. -/
def stepLinks (types : List String) : List Join :=
  a.links.filterMap (a.join? types)

/-- The first prototype that a step refers to, other than the interpreter. -/
def prototypeOf (step : Part) : Option Part :=
  ((a.stepLinks [prototypeType]).find? fun j =>
    j.caller.id == step.id && j.callee.name != interpreterName).map (·.callee)

/-- The program that a step runs by the interpreter. -/
def programOf (step : Part) : Option Part :=
  (a.prototypeOf step).bind fun prototype => a.programs.find? (·.name == prototype.name)

/-- The steps that run the interpreter, each with the program that it runs. -/
def stepCalls : List (Part × Part) :=
  (a.stepLinks [utilityType]).filterMap fun j =>
    if j.callee.name = interpreterName then (a.programOf j.caller).map fun p => (j.caller, p)
      else none

/-! ### Members of data sets -/

/-- The member that is named in brackets behind the name of a data set. -/
def member? (name : String) : Option String :=
  match name.toList.dropWhile (· != '(') with
  | [] => none
  | _ :: rest => some (String.ofList ((rest.takeWhile (· != '(')).takeWhile (· != ')')))

/-- Can a member have this name? Numbers, signs and variables stand for other things. -/
def isMemberName (s : String) : Bool :=
  !Text.isNumeric s && !s.toList.any fun c => c == '+' || c == '-' || c == '&'

/-- The programs with a name, up to the first one that does not tell its name. -/
def programsNamed (name : String) : List Part → List Part
  | [] => []
  | p :: ps =>
    match p.tellName with
    | .error _ => []
    | .ok own => if own = name then p :: programsNamed name ps else programsNamed name ps

/-- The links that a data set is to have to programs, with the place that they come from. -/
def memberLinks (j : Join) : Except Fault (List (Part × Part × String)) := do
  let name ← j.callee.tellName
  match j.positions, member? name with
  | position :: _, some member =>
    if isMemberName member then
      return (programsNamed member a.programs).map fun p => (j.callee, p, position)
    else return []
  | _, _ => return []

/-! ### The end of an application -/

/-- Something that is sent to the log, or a link that is made. -/
inductive Entry where
  | log (level : Level) (text : String)
  | link (kind : LinkKind) (caller callee : Int) (position : Option String)
deriving Repr, DecidableEq

/-- What has been done at the end of an application. -/
structure Journal where
  entries : List Entry := []
  /-- The links from data sets to programs that are to be made. -/
  pending : List (Part × Part × String) := []
  /-- How many of them were made, once that is known. -/
  created : Option Nat := none

/-- Sends a message to the log. -/
def log (level : Level) (text : String) : Work Journal Unit :=
  modify fun j => { j with entries := j.entries ++ [.log level text] }

/-- Makes a link, unless the application refuses links of that kind. -/
def makeLink (kind : LinkKind) (caller callee : Part) (position : Option String) :
    Work Journal Unit := do
  if a.refused.contains kind.name then throw .linkRefused
  modify fun j => { j with entries := j.entries ++ [.link kind caller.id callee.id position] }

/-- Links a step to the program that it runs. -/
def makeCall (call : Part × Part) : Work Journal Unit :=
  a.makeLink .call call.1 call.2 none

/-- Tells the log that there is a prototype. -/
def announcePrototype (p : Part) : Work Journal Unit := do
  log .debug ("Cobol CAST_COBOL_ProgramPrototype found: " ++ (← Work.ofExcept p.tellName))

/-- Tells the log how many programs and prototypes there are, and which prototypes. -/
def announce : Work Journal Unit := do
  log .info "Running code at the end of an application"
  log .info "****** Searching for CAST_COBOL_ProgramPrototype"
  log .info "****** Searching for Easytrieve Programs****"
  log .info ("****** Number of Easytrive Programs " ++ toString a.programs.length)
  a.prototypes.forM announcePrototype
  log .info ("****** Number of CAST_COBOL_ProgramPrototype " ++ toString a.prototypes.length)

/-- Links a program to a prototype of the same name. -/
def matchPrototype (program prototype : Part) : Work Journal Unit := do
  let wanted ← Work.ofExcept prototype.tellName
  let own ← Work.ofExcept program.tellName
  if wanted = own then a.makeLink .same prototype program none

/-- Makes the pending links. Those that are refused are left out. -/
def makePending : Work Journal Unit := do
  modify fun j => { j with created := some 0 }
  (← get).pending.forM fun (dataSet, program, position) => do
    match ← (a.makeLink .access dataSet program (some position)).attempt with
    | .ok () => modify fun j => { j with created := j.created.map (· + 1) }
    | .error _ => pure ()

/-- Joins the Easytrieve programs of an application to what runs them. -/
def finish : Work Journal Unit := do
  a.announce
  a.stepCalls.forM a.makeCall
  a.programs.forM fun program => a.prototypes.forM (a.matchPrototype program)
  (a.stepLinks dataSetTypes).forM fun j => do
    let found ← Work.ofExcept (a.memberLinks j)
    modify fun journal => { journal with pending := journal.pending ++ found }
  a.makePending
  log .info (" Number of links created between JCL Step and Easytrieve Program "
    ++ toString ((← get).created.getD 0))

end Application

end EztScan
