import EztScan.Event
import EztScan.Tree.Printer

/-!
# Symbols

What a program declares: files, procedures, reports and queries, and the program itself, which holds
them. Programs that are called and not known are symbols, too. A symbol is known by its number among
the symbols of its program. The members of a symbol are found by their names in capital letters, in
the order in which they were declared.
-/

namespace EztScan

/-- What a symbol stands for. -/
inductive SymbolKind where
  /-- Nothing in particular. -/
  | plain
  /-- A program or macro. -/
  | program
  | procedure
  | file
  | report
  | query
  /-- A program that is called and not known. -/
  | unknownProgram
deriving Repr, DecidableEq

namespace SymbolKind

/-- The name of a kind of symbol. -/
def name : SymbolKind → String
  | .plain => "Symbol"
  | .program => "Module"
  | .procedure => "Procedure"
  | .file => "File"
  | .report => "Report"
  | .query => "Sql"
  | .unknownProgram => "UnknownProgram"

/-- All kinds of symbols. -/
def all : List SymbolKind :=
  [.plain, .program, .procedure, .file, .report, .query, .unknownProgram]

/-- The kind of symbol with this name. -/
def ofName? (s : String) : Option SymbolKind :=
  all.find? (·.name == s)

/-- The type of the objects that are made for symbols of a kind. -/
def objectType : SymbolKind → Except Fault String
  | .plain => .error .typeUnknown
  | .program => .ok "Eztprogram"
  | .procedure => .ok "Easyproc"
  | .file => .ok "Easyfile"
  | .report => .ok "Easyreport"
  | .query => .ok "EasySQLQuery"
  | .unknownProgram => .ok "EasyCalltoProgram"

end SymbolKind

/-- The syntax tree of a symbol. A source in which no root is found is left as the elements it was
read into. -/
inductive SyntaxTree where
  | absent
  | forest (es : List Element)
  | root (n : Node)

namespace SyntaxTree

/-- Is there nothing in the tree? -/
def isEmpty : SyntaxTree → Bool
  | .absent => true
  | .forest es => es.isEmpty
  | .root _ => false

/-- The root of a tree that has one. -/
def root? : SyntaxTree → Option Node
  | .root n => some n
  | _ => none

/-- The root of a tree that has to have one. -/
def requireRoot : SyntaxTree → Except Fault Node
  | .root n => .ok n
  | .forest _ => .error .rootMissing
  | .absent => .error .valueMissing

/-- The elements of a tree, of which there has to be one. -/
def elements : SyntaxTree → Except Fault (List Element)
  | .root n => .ok [n.toElement]
  | .forest es => .ok es
  | .absent => .error .valueMissing

/-- The tree on one line. -/
def render : SyntaxTree → String
  | .absent => "None"
  | .forest es => Element.renderList es
  | .root n => n.toElement.render

end SyntaxTree

/-- Where the source of a symbol is kept. -/
inductive Origin where
  /-- No source file is known. -/
  | nowhere
  /-- The source file at this path. -/
  | file (path : String)
  /-- With the symbol of this number. -/
  | beside (id : Nat)
deriving Repr, DecidableEq

/-- Numbers kept under names. -/
abbrev Counts : Type := List (String × Int)

namespace Counts

/-- The number under a name, zero if there is none. -/
def count (c : Counts) (key : String) : Int :=
  (c.lookup key).getD 0

/-- Adds to the number under a name. -/
def add : Counts → String → Int → Counts
  | [], key, n => [(key, n)]
  | (k, m) :: rest, key, n => if k = key then (k, m + n) :: rest else (k, m) :: add rest key n

/-- Adds all the numbers of another list. -/
def addAll (c others : Counts) : Counts :=
  others.foldl (fun c (key, n) => c.add key n) c

end Counts

/-- A list of numbers of symbols under each name. -/
abbrev Members : Type := List (String × List Nat)

namespace Members

/-- Puts a symbol after those of the same name. -/
def insert : Members → String → Nat → Members
  | [], key, id => [(key, [id])]
  | (k, ids) :: rest, key, id =>
    if k = key then (k, ids ++ [id]) :: rest else (k, ids) :: insert rest key id

/-- The symbols under a name. -/
def get (m : Members) (key : String) : List Nat :=
  (m.lookup key).getD []

/-- All symbols, those of one name together. -/
def all (m : Members) : List Nat :=
  m.flatMap (·.2)

/-- After an insertion the symbol is the last one under its name, and the others are where they
were. -/
theorem get_insert (m : Members) (key other : String) (id : Nat) :
    (m.insert key id).get other = m.get other ++ if other = key then [id] else [] := by
  induction m with
  | nil =>
    by_cases h : other = key
    · simp [insert, get, h]
    · have : (other == key) = false := by simp [h]
      simp [insert, get, h, List.lookup_cons, this]
  | cons p rest ih =>
    obtain ⟨k, ids⟩ := p
    by_cases hk : k = key
    · by_cases ho : other = key
      · simp [insert, get, hk, ho]
      · have : (other == key) = false := by simp [ho]
        simp [insert, get, hk, ho, List.lookup_cons, this]
    · by_cases ho : other = k
      · simp [insert, get, hk, ho]
      · have : (other == k) = false := by simp [ho]
        simpa [insert, get, hk, List.lookup_cons, this] using ih

end Members

/-- A symbol of a program. -/
structure Symbol where
  kind : SymbolKind
  name : String
  /-- The symbol that this one is a member of. -/
  parent : Option Nat := none
  /-- The line where the declaration begins. -/
  line : Option Int := none
  tree : SyntaxTree := .absent
  origin : Origin := .nowhere
  members : Members := []
  /-- The object that was made for the symbol. -/
  stored : Option ObjectId := none
  /-- How often each global name was asked for again by members. -/
  guids : Counts := []
  /-- How often each name was asked for again by members. -/
  names : Counts := []
  /-- How many objects of each type were made on behalf of the symbol. -/
  made : Counts := []

/-- The name of a symbol, its kind and where it begins. -/
structure Label where
  kind : SymbolKind
  name : String
  line : Option Int
deriving Repr, DecidableEq

/-- The label of a symbol. -/
def Symbol.label (s : Symbol) : Label :=
  ⟨s.kind, s.name, s.line⟩

/-- A name that has not been given yet: the name itself the first time, and with a number behind it
from then on. -/
def Counts.freshName (c : Counts) (name : String) : String × Counts :=
  match c.lookup name with
  | none => (name, c.add name 0)
  | some n => (name ++ "_" ++ toString (n + 1), c.add name 1)

end EztScan
