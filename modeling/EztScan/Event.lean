import EztScan.Token.Basic

/-!
# What is reported to the host

The host keeps objects, properties of objects and of source files, positions, and links between
objects. Everything that is sent to it is an event, and so is every message to the log. Objects are
known by the program that they were made for and by how many were made for that program before, and
programs by their paths, so that what is reported for one program does not depend on the others.
-/

namespace EztScan

/-- A program: the path of its source, and how many programs at that path there were before it. -/
structure ProgramId where
  path : String
  copy : Nat
deriving Repr, DecidableEq

/-- An object of the host: the program it was made for, and how many had been made for that program
before. -/
structure ObjectId where
  program : ProgramId
  index : Nat
deriving Repr, DecidableEq

/-- Something that properties belong to or that an object stands under. -/
inductive Ref where
  | object (id : ObjectId)
  /-- The source file at this path. -/
  | file (path : String)
deriving Repr, DecidableEq

/-- A piece of a source file. The file may be unknown to the host. -/
structure Bookmark where
  file : Option String
  span : Span
deriving Repr, DecidableEq

/-- What a link says about its two ends. -/
inductive LinkKind where
  /-- The first end calls the second one. -/
  | call
  /-- The first end reads from the second one. -/
  | read
  /-- The first end writes to the second one. -/
  | write
  /-- The first end makes use of the second one. -/
  | access
  /-- Both ends stand for one thing. -/
  | same
deriving Repr, DecidableEq

/-- The name of a kind of link. -/
def LinkKind.name : LinkKind → String
  | .call => "callLink"
  | .read => "accessReadLink"
  | .write => "accessWriteLink"
  | .access => "accessLink"
  | .same => "matchLink"

/-- How much a message matters. -/
inductive Level where
  | debug
  | info
  | warning
deriving Repr, DecidableEq

/-- The name of a level. -/
def Level.name : Level → String
  | .debug => "debug"
  | .info => "info"
  | .warning => "warning"

/-- What a property holds. -/
inductive Value where
  | number (n : Int)
  | text (s : String)
deriving Repr, DecidableEq

/-- What is known about an object when it is made. -/
structure ObjectData where
  name : String
  type : String
  parent : Option Ref
  guid : String
  fullName : String
deriving Repr, DecidableEq

/-- Something that is sent to the host, or to the log. -/
inductive Event where
  | object (id : ObjectId) (data : ObjectData)
  | property (owner : Ref) (name : String) (value : Value)
  | position (id : ObjectId) (mark : Bookmark)
  | link (kind : LinkKind) (caller callee : Option ObjectId) (mark : Bookmark)
  /-- A message, which may go on with the fault that caused it. -/
  | log (level : Level) (text : String) (cause : Option Fault)
deriving Repr, DecidableEq

namespace Event

/-- The object that an event makes. -/
def made? : Event → Option ObjectId
  | .object id _ => some id
  | _ => none

end Event

end EztScan
