import EztScan.Proofs.IndentLevels
import EztScan.Proofs.Positions
import Mathlib.Data.List.Infix

/-!
# Places depend on the text alone

Tokens without places get them from a counter that lives on from source to source. Its reader may
leave a source before the end, so what the counter has seen is said by the sources and by how many
tokens of each have been asked for (`Place.passAll`). Whatever it has seen, it stands behind the
text of the tokens that it has placed, and this is a place that can be read off the text
(`Place.behind`). So it does not matter how the text is cut into tokens and sources
(`Place.places_of_text`).

A parser may put marks in front of a token. The token is placed as soon as the first of them is
asked for. Marks have no text, so the tokens that have been placed can be counted by their texts
(`Parser.drawn`).
-/

namespace EztScan

open List Lexer

/-- Where the token ends. -/
def Token.stop (t : Token) : Start :=
  (t.span.endLine, t.span.endColumn)

namespace Place

/-- The place as tokens note it. -/
def noted (p : Place) : Start :=
  (some p.line, some p.column)

/-- The place behind a text: one line more for each line feed, and one column more for each
character after the last of them. -/
def behind (cs : List Char) : Place :=
  ⟨1 + cs.count '\n', 1 + (cs.rtakeWhile (· ≠ '\n')).length⟩

theorem foldl_after (cs : List Char) : cs.foldl after {} = behind cs := by
  induction cs using reverseRecOn with
  | nil => rfl
  | append_singleton cs c ih =>
    rw [foldl_append, ih, foldl_cons, foldl_nil]
    unfold after behind
    rw [count_append, rtakeWhile_concat]
    by_cases hc : c = '\n'
    · simp [hc, add_assoc]
    · simp [hc, add_assoc]

/-- The place after some tokens that have been placed from `p` on. -/
def lastOf (p : Place) (placed : List (Token × Place)) : Place :=
  placed.foldl (fun _ o => o.2) p

/-- The sources of a counter, each with the number of its tokens that are asked for. -/
abbrev Draws := List (List (Option Kind × Option String) × Nat)

/-- Passes sources through one counter, one after the other and each as far as it is asked for. -/
def passAll (p : Place) (caseSensitive : Bool) : Draws → List (Token × Place)
  | [] => []
  | (pairs, asked) :: draws =>
    let placed := (p.placeAll caseSensitive pairs).1.take asked
    placed ++ passAll (p.lastOf placed) caseSensitive draws

/-! ### Token by token -/

/-- Placed tokens stand one behind the other from a place on: each has a text and takes the counter
on over it. -/
inductive Laid : Place → List (Token × Place) → Prop
  | nil {p : Place} : Laid p []
  | cons {p q : Place} {t : Token} {rest : List (Token × Place)} (hsome : t.text.isSome = true)
      (hstart : t.start = p.noted)
      (hstop : t.stop = q.noted) (htext : (textOf [t]).foldl after p = q) (hrest : Laid q rest) :
      Laid p ((t, q) :: rest)

variable {p : Place} {placed later : List (Token × Place)}

theorem laid_placeAll (p : Place) (caseSensitive : Bool)
    (pairs : List (Option Kind × Option String)) : Laid p (p.placeAll caseSensitive pairs).1 := by
  induction pairs generalizing p with
  | nil => exact .nil
  | cons pair pairs ih =>
    obtain ⟨kind, text⟩ := pair
    cases text with
    | none => exact .nil
    | some => exact .cons rfl rfl rfl (congrArg (foldl after p) (flatMap_singleton _ _)) (ih _)

namespace Laid

theorem take (h : Laid p placed) (n : Nat) : Laid p (placed.take n) := by
  induction h generalizing n with
  | nil => exact take_nil.symm ▸ .nil
  | cons hsome hstart hstop htext _ ih =>
    cases n with
    | zero => exact .nil
    | succ n => exact .cons hsome hstart hstop htext (ih n)

theorem append (h : Laid p placed) (hlater : Laid (p.lastOf placed) later) :
    Laid p (placed ++ later) := by
  induction h with
  | nil => exact hlater
  | cons hsome hstart hstop htext _ ih => exact .cons hsome hstart hstop htext (ih hlater)

theorem foldl_textOf_cons {q : Place} {t : Token} (htext : (textOf [t]).foldl after p = q)
    (ts : List Token) : (textOf (t :: ts)).foldl after p = (textOf ts).foldl after q := by
  rw [← singleton_append, textOf_append, foldl_append, htext]

theorem lastOf_eq (h : Laid p placed) :
    p.lastOf placed = (textOf (placed.map (·.1))).foldl after p := by
  induction h with
  | nil => rfl
  | cons _ _ _ htext _ ih => exact ih.trans (foldl_textOf_cons htext _).symm

/-- The counter comes to the ends of the tokens, and each of them begins where the one before has
ended. -/
theorem boundaries (h : Laid p placed) :
    let ts := placed.map (·.1)
    p.noted :: ts.map Token.stop = ts.inits.map
      (fun before => ((textOf before).foldl after p).noted) ∧
      ts.map Token.start = (p.noted :: ts.map Token.stop).dropLast := by
  induction h with
  | nil => exact ⟨rfl, rfl⟩
  | cons _ hstart hstop htext _ ih =>
    obtain ⟨hstops, hstarts⟩ := ih
    simp only [map_cons]
    rw [hstop, hstart, hstarts, inits_cons, map_cons]
    refine ⟨congrArg _ ?_, rfl⟩
    rw [hstops, map_map]
    exact map_congr_left fun before _ => congrArg noted (foldl_textOf_cons htext before).symm

end Laid

/-! ### Source by source -/

theorem laid_passAll (p : Place) (caseSensitive : Bool) (draws : Draws) :
    Laid p (p.passAll caseSensitive draws) := by
  induction draws generalizing p with
  | nil => exact .nil
  | cons draw draws ih => exact ((laid_placeAll p caseSensitive draw.1).take draw.2).append (ih _)

/-- Tokens in front of the first one without a text are placed, and each of them keeps its kind and
its text. -/
theorem kept_placeAll (p : Place) (caseSensitive : Bool)
    (pairs : List (Option Kind × Option String)) :
    (p.placeAll caseSensitive pairs).1.map (fun o => (o.1.kind, o.1.text)) =
      pairs.takeWhile (·.2.isSome) := by
  induction pairs generalizing p with
  | nil => rfl
  | cons pair pairs ih =>
    obtain ⟨kind, text⟩ := pair
    cases text with
    | none => rfl
    | some => exact congrArg (_ :: ·) (ih _)

theorem kept_passAll (p : Place) (caseSensitive : Bool) (draws : Draws) :
    (p.passAll caseSensitive draws).map (fun o => (o.1.kind, o.1.text)) =
      draws.flatMap fun draw => (draw.1.takeWhile (·.2.isSome)).take draw.2 := by
  induction draws generalizing p with
  | nil => rfl
  | cons draw draws ih => rw [passAll, map_append, map_take, kept_placeAll, ih, flatMap_cons]

end Place

/-! ### Marks have no text -/

namespace Indent

variable {s s' : Indent} {t : Token} {column : Int} {marks : List (Token × Indent)}

theorem text_of_mem_marks (h : s.marks column = .ok marks) : ∀ m ∈ marks, m.1.text = none := by
  revert h
  unfold Indent.marks stepsBetween
  split
  · split
    · exact fun h => by cases h
    · rintro ⟨⟩ m hm
      exact (mem_replicate.mp hm).2 ▸ rfl
  · split
    next hloop =>
      rintro ⟨⟩ m hm
      exact ((decreases_eq_some_iff.mp hloop).of_mem m hm).1 ▸ rfl
    · exact fun h => by cases h

theorem HandsOn.text_of_mem (h : HandsOn s t marks s') : ∀ m ∈ marks, m.1.text = none := by
  cases h with
  | code _ _ _ _ _ hmarks => exact text_of_mem_marks hmarks
  | _ => exact forall_mem_nil _

/-- Where the marks go wrong, the token is not handed on. -/
theorem step_of_fault {fault : Fault} (h : (s.step t).2.2 = some fault) : (s.step t).1 = [] := by
  revert h
  unfold step lineStart
  dsimp only
  split
  · exact fun h => by cases h
  · repeat' split
    all_goals first | exact fun _ => rfl | exact fun h => by cases h

end Indent

/-! ### The counter of a parser -/

/-- The tokens of a source that have no places yet. -/
def Source.pairs : Source → List (Option Kind × Option String)
  | .text _ => []
  | .tokens pairs => pairs

namespace Parser

/-- How many tokens have been placed when so many have been asked for, marks among them: one more
than those with a text in front of the last one. -/
def drawn (fed : List Fed) : Nat → Nat
  | 0 => 0
  | n + 1 => (fed.take n).countP (·.token.text.isSome) + 1

/-- How many tokens the first stage has asked for. Unless it has stopped by itself, it has asked for
more than there are. -/
def Feed.asked (feed : Feed) (first : Option StageDone) : Nat :=
  ((first.filter fun d => d.outcome.fault.isSome && d.outcome.fault != feed.fault).map
    (·.asked)).getD (feed.tokens.length + 1)

/-- What the stages have done with a source. -/
def stagesOn (p : Parser) (source : Source) : List StageDone :=
  let input := (p.feed source).tokens.map fun t => Element.token t.token
  runAll p.shared (p.tokenCount + input.length + 1)
    ((p.scopes.zip p.desks).map fun x => { scope := x.1, desk := x.2 })
    p.ledger input (p.feed source).fault

/-- The sources of a parser, each with the number of its tokens that have been placed. -/
def draws (p : Parser) : List Source → Place.Draws
  | [] => []
  | source :: sources =>
    let feed := p.feed source
    (source.pairs, drawn feed.tokens (feed.asked (p.stagesOn source).head?)) :: draws
      (p.read source).2 sources

/-- However many of the tokens are asked for, the counter is behind those that have been placed, and
behind `last` in the end. -/
def Follows (p : Place) (placed : List (Token × Place)) (fed : List Fed) (last : Place) : Prop :=
  ∀ n, (fed[n]?.map (·.place)).getD last = p.lastOf (placed.take (drawn fed (n + 1)))

variable {p q last : Place} {t : Token} {placed : List (Token × Place)} {fed : List Fed}

theorem drawn_cons (f : Fed) (fed : List Fed) (n : Nat) :
    drawn (f :: fed) (n + 2) = drawn fed (n + 1) + if f.token.text.isSome then 1 else 0 := by
  rw [drawn, drawn, take_succ_cons, countP_cons]
  omega

theorem follows_nil : Follows p [] [] p :=
  fun _ => rfl

/-- A token may be placed that is not handed on. -/
theorem follows_stop : Follows p ((t, q) :: placed) [] q := by
  intro n
  rw [drawn, take_nil]
  rfl

/-- A token is placed when it is asked for. -/
theorem Follows.token (h : Follows q placed fed last) (ht : t.text.isSome = true)
    (indent : Indent) : Follows p ((t, q) :: placed) (⟨t, q, indent⟩ :: fed) last := by
  intro n
  cases n with
  | zero => rfl
  | succ n =>
    rw [drawn_cons, if_pos ht]
    exact h n

/-- Marks are asked for when the token behind them has been placed. -/
theorem Follows.marks (h : Follows p ((t, q) :: placed) fed last) {marks : List (Token × Indent)}
    (hmarks : ∀ m ∈ marks, m.1.text = none) :
    Follows p ((t, q) :: placed) (marks.map (fun m => ⟨m.1, q, m.2⟩) ++ fed) last := by
  induction marks with
  | nil => exact h
  | cons m marks ih =>
    obtain ⟨hm, hmarks⟩ := forall_mem_cons.mp hmarks
    intro n
    cases n with
    | zero => rfl
    | succ n =>
      rw [map_cons, cons_append, drawn_cons, hm]
      exact ih hmarks n

/-- Marks do not move the counter, whether or not a fault ends them. -/
theorem follows_markAll (h : p.Laid placed) (indent : Indent) (fault : Option Fault) :
    Follows p placed (markAll p indent fault placed).tokens
      (markAll p indent fault placed).place := by
  induction h generalizing indent with
  | nil => exact follows_nil
  | @cons p q t placed ht _ _ _ _ ih =>
    have hfault := @Indent.step_of_fault indent t
    have hstep := @Indent.exists_handsOn indent t
    rw [markAll]
    generalize indent.step t = outcome at hfault hstep
    obtain ⟨out, next, stopped⟩ := outcome
    cases stopped with
    | some =>
      obtain rfl : out = [] := hfault rfl
      exact follows_stop
    | none =>
      obtain ⟨marks, hmarks, hout⟩ := hstep rfl
      obtain rfl : out = marks ++ [(t, next)] := hout
      dsimp only
      rw [map_append, append_assoc]
      exact ((ih next).token ht next).marks hmarks.text_of_mem

theorem follows_plain (h : p.Laid placed) (indent : Indent) :
    Follows p placed (placed.map fun o => ⟨o.1, o.2, indent⟩) (p.lastOf placed) := by
  induction h with
  | nil => exact follows_nil
  | cons ht _ _ _ _ ih => exact ih.token ht indent

theorem lastOf_eq_getLast? (p : Place) (placed : List (Token × Place)) :
    p.lastOf placed = (placed.getLast?.map (·.2)).getD p := by
  cases placed using reverseRecOn with
  | nil => rfl
  | append_singleton =>
    rw [getLast?_concat, Place.lastOf, foldl_append]
    rfl

theorem follows_feed (p : Parser) (source : Source) :
    Follows p.place (p.place.placeAll p.caseSensitive source.pairs).1 (p.feed source).tokens
      (p.feed source).place := by
  cases source with
  | text s =>
    intro n
    change (((lex s).map fun t => Fed.mk t p.place p.indent)[n]?.map (·.place)).getD p.place =
      p.place
    rw [getElem?_map]
    cases (lex s)[n]? with
    | none | some => rfl
  | tokens pairs =>
    have hlaid := p.place.laid_placeAll p.caseSensitive pairs
    unfold feed Source.pairs
    dsimp only
    split
    · exact follows_markAll hlaid _ _
    · rw [← lastOf_eq_getLast?]
      exact follows_plain hlaid _

/-- The counter after a source is behind the tokens that have been placed for the first stage. -/
theorem place_read (p : Parser) (source : Source) :
    (p.read source).2.place = p.place.lastOf ((p.place.placeAll p.caseSensitive source.pairs).1.take
      (drawn (p.feed source).tokens ((p.feed source).asked (p.stagesOn source).head?))) := by
  change (p.countersAfter (p.feed source) (p.stagesOn source).head?).1 = _
  have hfollows := p.follows_feed source
  generalize p.feed source = feed at hfollows
  have hend := hfollows feed.tokens.length
  rw [getElem?_eq_none (Nat.le_refl _)] at hend
  cases (p.stagesOn source).head? with
  | none => exact hend
  | some d =>
    unfold countersAfter Feed.asked
    dsimp only
    rw [Option.filter_some]
    split
    · rw [Option.map_some, Option.getD_some]
      cases d.asked with
      | zero => rfl
      | succ n =>
        rw [← hfollows n]
        dsimp only
        cases feed.tokens[n]? with
        | none | some => rfl
    · exact hend

theorem place_after (p : Parser) (sources : List Source) :
    (p.after sources).place = p.place.lastOf
      (p.place.passAll p.caseSensitive (p.draws sources)) := by
  induction sources generalizing p with
  | nil => rfl
  | cons source sources ih =>
    have hafter : (p.after (source :: sources)).place = _ := ih (p.read source).2
    rw [hafter, draws, Place.passAll, place_read p source]
    exact (foldl_append ..).symm

end Parser

namespace Place

/-- Where the text of tokens is cut: how many characters stand before, and the place that is noted
there. -/
def cuts (ts : List Token) : List (Nat × Start) :=
  (ts.inits.map fun before => (textOf before).length).zip (({} : Place).noted :: ts.map Token.stop)

theorem eq_of_mem_cuts (h : Laid {} placed) {n : Nat} {q : Start}
    (hmem : (n, q) ∈ cuts (placed.map (·.1))) :
    q = (behind ((textOf (placed.map (·.1))).take n)).noted := by
  rw [cuts, h.boundaries.1, zip_map', mem_map] at hmem
  obtain ⟨before, hbefore, heq⟩ := hmem
  obtain ⟨rfl, rfl⟩ := Prod.mk.inj heq
  obtain ⟨rest, hrest⟩ := (mem_inits _ _).mp hbefore
  rw [← hrest, textOf_append, take_left, foldl_after]

/-- **Places depend on the text alone.** Of the sources that pass through one counter, the tokens
that are asked for get places, up to one without a text. The first of them begins at the first
place, and each other one where the one before has ended. It ends at the place behind all texts up
to its own, that is at one more than the line feeds in them and at one more than the characters
after the last line feed. So wherever two counters have seen the same text, they note the same place
at a cut that both have made. The counter of a parser is one that passes the sources of the
parser. -/
theorem places_of_text (caseSensitive caseSensitive' : Bool) (draws draws' : Draws) :
    let ts := (({} : Place).passAll caseSensitive draws).map (·.1)
    let ts' := (({} : Place).passAll caseSensitive' draws').map (·.1)
    ts.map (fun t => (t.kind, t.text)) = draws.flatMap
      (fun draw => (draw.1.takeWhile (·.2.isSome)).take draw.2) ∧
      ts.map Token.start = ((some 1, some 1) :: ts.map Token.stop).dropLast ∧
      ts.map Token.stop = ts.inits.tail.map (fun seen => (behind (textOf seen)).noted) ∧
      (textOf ts = textOf ts' → ∀ n q q', (n, q) ∈ cuts ts → (n, q') ∈ cuts ts' → q = q') ∧
      ∀ (scopes : List Scope) (indents : Bool) (sources : List Source),
        let p := Parser.new scopes caseSensitive indents
        (p.after sources).place =
          behind (textOf ((({} : Place).passAll caseSensitive (p.draws sources)).map (·.1))) := by
  -- each token begins where the one before it has stopped
  have hlaid (caseSensitive : Bool) (draws : Draws) := laid_passAll {} caseSensitive draws
  obtain ⟨hstops, hstarts⟩ := (hlaid caseSensitive draws).boundaries
  refine ⟨?_, hstarts, ?_, fun heq n q q' hq hq' => ?_, fun scopes indents sources => ?_⟩
  · rw [map_map]
    exact kept_passAll _ _ _
  · have htail := congrArg tail hstops
    simp only [foldl_after] at htail
    rw [map_tail]
    exact htail
  · rw [eq_of_mem_cuts (hlaid _ _) hq, eq_of_mem_cuts (hlaid _ _) hq', heq]
  · have hafter := Parser.place_after (.new scopes caseSensitive indents) sources
    refine hafter.trans ?_
    rw [← foldl_after]
    exact (hlaid _ _).lastOf_eq

/-- A text in two sources. -/
def splitDraws : Draws :=
  [([(some .generic, some "A\nB"), (some .generic, some "C")], 2), ([(none, some "\n")], 1)]

/-- The same text in one source. Inside of it, both have the cut in front of the last line feed
only. -/
def joinedDraws : Draws :=
  [([(none, some "A"), (none, some "\nBC"), (none, some "\n")], 3)]

theorem places_of_text_splitDraws :
    let ts := (({} : Place).passAll false splitDraws).map (·.1)
    let ts' := (({} : Place).passAll true joinedDraws).map (·.1)
    textOf ts = textOf ts' ∧ (4, some 2, some 3) ∈ cuts ts ∧ (4, some 2, some 3) ∈ cuts ts' ∧
      ∀ q, (4, q) ∈ cuts ts' → q = (some 2, some 3) := by
  intro ts ts'
  have htext : textOf ts = textOf ts' := by decide +kernel
  have hcut : (4, some 2, some 3) ∈ cuts ts := by decide +kernel
  refine ⟨htext, hcut, by decide +kernel, fun q hq => ?_⟩
  exact ((places_of_text false true splitDraws joinedDraws).2.2.2.1 htext 4 _ q hcut hq).symm

end Place

end EztScan
