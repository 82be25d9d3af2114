/-!
# Faults

Everything that can stop an operation of this library, by cause. A fault is a value: operations that
can stop return it beside the state they reached, so that what was done before stays visible. Where
a fault has a wording of its own, `Fault.message?` gives it.
-/

namespace EztScan

/-- Why an operation stopped. -/
inductive Fault where
  /-- An element was asked for after the last one. -/
  | exhausted
  /-- The elements ran out under a step of the grouping into statements. -/
  | exhaustedInside
  /-- Nobody asks for more, and the work rests where it is. -/
  | atRest
  /-- A lookahead was started while another one was open. -/
  | lookaheadOpen
  /-- A pattern that a rule has to have is not set. -/
  | patternMissing
  /-- A test on tokens that does not say how many arguments it takes. -/
  | arityUnknown
  /-- A token without text was to be compared with a text. -/
  | textMissing
  /-- A token without text was to be measured. -/
  | lengthMissing
  /-- A token or node was asked for its kind where it has none. -/
  | kindMissing
  /-- A sequence of one pattern was to go back to a place that it has not noted. -/
  | placeMissing
  /-- A sequence without patterns was asked for its last one. -/
  | sequenceEmpty
  /-- A block that cannot stand inside others was opened inside others. -/
  | blockNested
  /-- A block was ended by elements that it does not take in. -/
  | endRefused
  /-- A number was to be computed from a position that is not known. -/
  | positionMissing
  /-- A distance was to be measured in steps of no size. -/
  | divisionByZero
  /-- A loop was begun that never ends. -/
  | endless
  /-- A section starts or ends before the first child. -/
  | sectionNegative
  /-- A section ends just before the first child. -/
  | sectionEndNegative
  /-- A handler that does not exist was asked for. -/
  | handlerMissing
  /-- A statement has no operand of the kind asked for. -/
  | operandMissing
  /-- Something was asked of a symbol, syntax tree, file or stored object that is not there. -/
  | valueMissing
  /-- A syntax tree without a root was taken for one with a root. -/
  | rootMissing
  /-- A symbol was to be stored that is stored already. -/
  | alreadyStored
  /-- A symbol of no particular type was asked for its type. -/
  | typeUnknown
  /-- Names were to be resolved through a kind of symbol that does not exist. -/
  | scopeUnknown
  /-- A path was to be measured from, and is empty. -/
  | pathEmpty
  /-- A path was asked for, and there is no text to take it from. -/
  | pathMissing
  /-- A source file is not there. -/
  | fileMissing
  /-- There is no symbol at the place asked for. -/
  | noSuchSymbol
  /-- The object with this number has no name. -/
  | nameless (id : Int)
  /-- The receiver of links does not take this one. -/
  | linkRefused
  /-- A service stopped and gave this reason. -/
  | service (reason : String)
deriving Repr, DecidableEq

/-- The wording of a fault, for those that have one. -/
def Fault.message? : Fault → Option String
  | .exhaustedInside => some "generator raised StopIteration"
  | .lookaheadOpen => some "Lookahead : cannot start a lookahead when one is already open"
  | .sectionNegative =>
    some "Indices for islice() must be None or an integer: 0 <= x <= sys.maxsize."
  | .sectionEndNegative =>
    some "Stop argument for islice() must be None or an integer: 0 <= x <= sys.maxsize."
  | .typeUnknown => some "Subclasses must implement get_metamodel_type method"
  | .pathEmpty => some "no path specified"
  | .nameless id => some (toString id)
  | .linkRefused => some "link refused"
  | .service reason => some reason
  | _ => none

end EztScan
