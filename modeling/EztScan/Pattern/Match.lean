import EztScan.Lookahead
import EztScan.Pattern.Basic
import EztScan.Work

/-!
# Matching

How a pattern is tried on an element and the stream after it. `Pattern.fits` reads ahead in the
stream as far as it needs to; `Pattern.tryOn` opens a lookahead around it and either takes what fits
out of the stream or leaves the stream as it was.

Running out of elements is not the same as a refusal: it ends the whole attempt, except that among
several alternatives the next one is tried.
-/

namespace EztScan

/-- An attempt to match, on the stream of elements. -/
abbrev Attempt (α : Type) : Type :=
  Work (Lookahead Element) α

namespace Attempt

/-- The next element that is code. -/
def nextCode : Attempt Element :=
  Work.of (Lookahead.nextThat Element.isCode)

/-- How far the lookahead has read. -/
def place : Attempt Nat :=
  return (← get).index

/-- Goes back to a place. -/
def backTo (i : Nat) : Attempt Unit :=
  modify ({ · with index := i })

/-- Tries something on the element and on each following one as long as it succeeds, at most `fuel`
times, and stays behind the last success. -/
def whileFits (step : Element → Attempt Bool) : Nat → Nat → Bool → Element → Attempt Bool
  | 0, last, found, _ => do
    backTo last
    return found
  | fuel + 1, last, found, e => do
    if ← step e then
      let here ← place
      let e ← nextCode
      whileFits step fuel here true e
    else
      backTo last
      return found

end Attempt

/-- The answer of a test that has come so far. -/
def Probe.run : Probe → Attempt Bool
  | .answer passed => return passed
  | .stop f => throw f
  | .ask next => do
    match ← Work.attempt Attempt.nextCode with
    | .ok e => (next (some e)).run
    | .error .exhausted => (next none).run
    | .error f => throw f

/-- Does an element pass the test? -/
def Test.passes (t : Test) (e : Element) : Attempt Bool :=
  (t.probe e).run

namespace Pattern

open Attempt

/-- Ends a sequence whose last part is `p`: where that part does not count, goes back to the `last`
place that was noted. -/
def endSeq (p : Pattern) (last : Option Nat) (found : Bool) : Attempt Bool :=
  match p, found with
  | .maybe _, true => return true
  | .maybe _, false => goBack true
  | .notFollowedBy _, found => goBack found
  | _, found => return found
where
  goBack (answer : Bool) : Attempt Bool :=
    match last with
    | some i => do
      backTo i
      return answer
    | none => throw .placeMissing

mutual

/-- Does the pattern fit an element and the stream after it? -/
def fits : Pattern → Element → Attempt Bool
  | .never, _ => return false
  | .word text, e =>
    return e.hasText && !e.isA .string && e.lowerText == some (Text.lower text)
  | .kind k, e => return e.isA k
  | .exactly t, e =>
    if e.text = t.text then
      match t.kind with
      | some k => return e.isA k
      | none => throw .kindMissing
    else return false
  | .refuse p, e => do
    let start ← place
    if ← p.fits e then
      backTo start
      return false
    else return true
  | .notFollowedBy p, e => return !(← p.fits e)
  | .any, _ => return true
  | .maybe p, e => do
    let start ← place
    if ← p.fits e then return true
    else
      backTo start
      return false
  | .seq ps, e => fitsSeq none ps e
  | .oneOf ps, e => fitsOneOf ps e
  | .repeated p, e => do
    whileFits (fun e => p.fits e) ((← get).toList.length + 1) (← place) false e
  | .node name, e => return e.isNodeOf name
  | .test t, e => t.passes e

/-- Do the patterns fit one after the other, from an element on? The `last` place is the one that
the stream was at before that element was read. -/
def fitsSeq (last : Option Nat) : List Pattern → Element → Attempt Bool
  | [], _ => throw .sequenceEmpty
  | p :: ps, e => do
    let found ← p.fits e
    if ps.isEmpty then p.endSeq last found
    else
      let here ← place
      if found then
        let e ← nextCode
        fitsSeq (some here) ps e
      else if p.isMaybe then fitsSeq (some here) ps e
      else return false

/-- Does one of the patterns fit? Each one is tried from the same place. -/
def fitsOneOf : List Pattern → Element → Attempt Bool
  | [], _ => return false
  | p :: ps, e => do
    let start ← place
    match ← Work.attempt (p.fits e) with
    | .ok true => return true
    | .ok false =>
      backTo start
      fitsOneOf ps e
    | .error .exhausted =>
      backTo start
      fitsOneOf ps e
    | .error f => throw f

end

/-- What came out of an attempt. -/
inductive Answer where
  /-- The pattern fits, and these elements were taken. -/
  | taken (es : List Element)
  /-- The pattern fits, and nothing was taken. -/
  | seen
  /-- The pattern does not fit. -/
  | refused
  /-- There is no answer: the stream ended, or the pattern never gives one. -/
  | none
deriving Repr

/-- Tries the pattern on an element that was taken from the stream and on what comes next. If it
fits, the elements that it covers are taken, or with `take` false the element is put back. -/
def tryOn (p : Pattern) (e : Element) (take : Bool) : Attempt Answer := do
  match (← get).start with
  | .error f => throw f
  | .ok s => set s
  match ← Work.attempt (p.fits e) with
  | .error .exhausted =>
    backTo 0
    modify Lookahead.stop
    return .none
  | .error f => throw f
  | .ok false =>
    modify Lookahead.stop
    return if p.isSilent then .none else .refused
  | .ok true =>
    if take then
      let (es, s) := (← get).consume
      set s
      return .taken (e :: es)
    else
      modify fun s => s.stop.unread e
      return .seen

end Pattern

end EztScan
