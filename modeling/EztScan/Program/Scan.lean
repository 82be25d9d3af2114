import EztScan.Program.Basic
import EztScan.Work

/-!
# Scanning a program

The work on one program: it goes on from the program and from the events that were reported so far,
and can stop with a fault at any point. What it has reported and declared by then stays.
-/

namespace EztScan

/-- A program under work, and what has been reported during the work. -/
structure Scan where
  program : Program
  events : Array Event := #[]

namespace Scan

/-- Reports an event. -/
def emit (e : Event) : Work Scan Unit :=
  modify fun s => { s with events := s.events.push e }

/-- Sends a message to the log. -/
def log (level : Level) (text : String) (cause : Option Fault) : Work Scan Unit :=
  emit (.log level text cause)

/-- The program as it is now. -/
def program? : Work Scan Program := do
  return (← get).program

/-- Changes the program. -/
def modifyProgram (f : Program → Program) : Work Scan Unit :=
  modify fun s => { s with program := f s.program }

/-- The symbol with this number as it is now. -/
def symbol (id : Nat) : Work Scan Symbol := do
  Work.ofExcept ((← program?).symbol id)

/-- Changes a symbol. -/
def modifySymbol (id : Nat) (f : Symbol → Symbol) : Work Scan Unit :=
  modifyProgram fun p => p.modifySymbol id f

/-- Declares a symbol as a member of another one, under its own name. -/
def declare (parent : Nat) (s : Symbol) : Work Scan Nat := do
  let id := ((← program?).declare parent s.name s).2
  modifyProgram fun p => (p.declare parent s.name s).1
  return id

/-- Makes a new object for a symbol. -/
def allot (id : Nat) : Work Scan ObjectId := do
  let p ← program?
  modifyProgram fun p => p.allot id
  return ⟨p.id, p.made⟩

end Scan

end EztScan
