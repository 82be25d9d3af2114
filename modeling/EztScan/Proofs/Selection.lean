import EztScan.Language.Form
import EztScan.Proofs.Attempts
import EztScan.Proofs.Steps

/-!
# The index and all rules

A grammar files its rules under the words that their constructs begin with, and on an element only
the rules under its text and those without words are tried. This module shows that nothing is
missed: the rule that is found, what it takes, and what is left of the stream are the same as if all
rules had been tried, first those with words and then the others (`Index.selection_eq`).

Three things make it so. A pattern with words refuses an element with another text, and does not
even read ahead (`Pattern.fits_of_keywords`), so a rule that is left out would have been refused. A
rule that is filed twice under a word is tried twice, but what has refused a stream refuses it
again. And a rule that was refused leaves the stream as it was, up to what is in the buffer, which
no attempt depends on (`Bench.Similar`).
-/

namespace EztScan

open List

variable {p : Pattern} {c : Candidates} {r : Rule} {rules : List Rule} {index : Index}
variable {c' : Candidates} {more : List Rule} {index' : Index} {lists : List (List Rule)}
  {b : Bench}

/-! ### Patterns with words -/

namespace Pattern

open Work Attempt

/-- Alternatives have words if each of them has some. -/
theorem of_keywordsOfAll_cons {ps : List Pattern} {ks : List String}
    (h : keywordsOfAll (p :: ps) = .ok (some ks)) :
    ∃ first rest, p.keywords = .ok (some first) ∧ keywordsOfAll ps = .ok (some rest) ∧
      ks = first ++ rest := by
  unfold keywordsOfAll at h
  cases hp : p.keywords with
  | error =>
    rw [hp] at h
    cases h
  | ok first =>
    rw [hp] at h
    -- one alternative without words is enough for the choice to have none
    rcases first with _ | (_ | ⟨k, first⟩)
    · cases h
    · cases h
    · cases hps : keywordsOfAll ps with
      | error =>
        rw [hps] at h
        cases h
      | ok rest =>
        rw [hps] at h
        cases rest with
        | none => cases h
        | some rest =>
          cases h
          exact ⟨k :: first, rest, rfl, rfl, rfl⟩

mutual

/-- **A pattern with words refuses all others.** It does so on the element alone: nothing is read
ahead. -/
theorem fits_of_keywords :
    ∀ (p : Pattern) {ks : List String} {e : Element}, p.keywords = .ok (some ks) →
    (∀ k ∈ ks, e.lowerText ≠ some k) → ∀ s, (p.fits e).runOn s = (.ok false, s)
  | .word text, ks, e, h, hks, s => by
    unfold keywords at h
    cases h
    have hword : (e.lowerText == some (Text.lower text)) = false :=
      beq_eq_false_iff_ne.mpr (hks _ (mem_singleton_self _))
    unfold fits
    rw [hword, Bool.and_false]
    rfl
  | .seq ps, ks, e, h, hks, s => by
    unfold keywords at h
    split at h
    next => cases h
    next text rest =>
      cases h
      have hfirst := fits_of_keywords (.word text) (by unfold keywords; rfl) hks s
      unfold fits fitsSeq
      rw [Runs.runOn_bind hfirst]
      -- the first part is the last one, or it is not one that can be left out
      cases rest with
      | nil | cons => rfl
    next => cases h
  | .oneOf ps, ks, e, h, hks, s => by
    unfold keywords at h
    unfold fits
    exact fitsOneOf_of_keywords ps h hks s
  | .never, _, _, h, _, _ | .kind _, _, _, h, _, _ | .exactly _, _, _, h, _, _
  | .refuse _, _, _, h, _, _
  | .notFollowedBy _, _, _, h, _, _ | .any, _, _, h, _, _ | .maybe _, _, _, h, _, _
  | .repeated _, _, _, h, _, _
  | .node _, _, _, h, _, _ | .test _, _, _, h, _, _ => by cases h

theorem fitsOneOf_of_keywords :
    ∀ (ps : List Pattern) {ks : List String} {e : Element}, keywordsOfAll ps = .ok (some ks) →
    (∀ k ∈ ks, e.lowerText ≠ some k) → ∀ s, (fitsOneOf ps e).runOn s = (.ok false, s)
  | [], _, _, _, _, _ => rfl
  | p :: ps, ks, e, h, hks, s => by
    obtain ⟨ks₁, ks₂, hp, hps, rfl⟩ := of_keywordsOfAll_cons h
    have hfirst := fits_of_keywords p hp (fun k hk => hks k (mem_append_left _ hk)) s
    have hrest := fitsOneOf_of_keywords ps hps (fun k hk => hks k (mem_append_right _ hk)) s
    unfold fitsOneOf
    rw [Runs.runOn_bind (show Runs place s s.index s from rfl),
      Runs.runOn_bind (runs_attempt.mpr hfirst)]
    exact hrest

end

/-- The words that a construct which begins with the pattern can begin with. Where there are none,
all elements will do. -/
def wordsOf (first : Option Pattern) : List String :=
  match first.map keywords with
  | some (.ok (some ks)) => ks
  | _ => []

theorem wordsOf_eq {ks : Option (List String)} (h : p.keywords = .ok ks) :
    wordsOf (some p) = ks.getD [] := by
  unfold wordsOf
  rw [Option.map_some, h]
  cases ks <;> rfl

/-- A rule with words refuses all others. -/
theorem fits_of_wordsOf {e : Element} (hwords : wordsOf (some p) ≠ [])
    (he : ∀ k ∈ wordsOf (some p), e.lowerText ≠ some k) (s : Lookahead Element) :
    (p.fits e).runOn s = (.ok false, s) := by
  rcases hp : p.keywords with f | (_ | ks)
  · unfold wordsOf at hwords
    rw [Option.map_some, hp] at hwords
    exact absurd rfl hwords
  · rw [wordsOf_eq hp] at hwords
    exact absurd rfl hwords
  · rw [wordsOf_eq hp] at he
    exact fits_of_keywords p hp he s

end Pattern

/-! ### How rules are filed -/

theorem of_bind_eq_ok {α β : Type} {x : Except Fault α} {f : α → Except Fault β} {b : β}
    (h : x >>= f = .ok b) : ∃ a, x = .ok a ∧ f a = .ok b := by
  cases x with
  | error => cases h
  | ok a => exact ⟨a, rfl, h⟩

namespace Candidates

open Pattern

variable {pattern : Rule → Option Pattern}

/-- All rules of a list are there: each one under its words, and those without words on their
own. -/
structure Files (pattern : Rule → Option Pattern) (rules : List Rule) (c : Candidates) : Prop where
  byWord : c.byWord = rules.flatMap fun r => (wordsOf (pattern r)).map (·, r)
  others : c.others = rules.filter fun r => (wordsOf (pattern r)).isEmpty

theorem files_nil : Files pattern [] {} :=
  ⟨rfl, rfl⟩

theorem add_eq {c' : Candidates} {first : Option Pattern} (h : c.add r first = .ok c') :
    c' = { byWord := c.byWord ++ (wordsOf first).map (·, r)
           others := c.others ++ bif (wordsOf first).isEmpty then [r] else [] } := by
  unfold add at h
  cases first with
  | none => cases h
  | some p =>
    dsimp only at h
    rcases hp : p.keywords with f | (_ | (_ | ⟨k, ks⟩))
    · rw [hp] at h
      cases h
    all_goals
      rw [hp] at h
      cases h
      rw [wordsOf_eq hp]
      simp

theorem Files.add (hc : Files pattern rules c) (h : c.add r (pattern r) = .ok c') :
    Files pattern (rules ++ [r]) c' := by
  rw [add_eq h]
  refine ⟨?_, ?_⟩
  · rw [flatMap_append, flatMap_singleton, hc.byWord]
  · rw [filter_append, filter_singleton, hc.others]

theorem Files.addAll (hc : Files pattern rules c)
    (h : more.foldlM (fun c r => c.add r (pattern r)) c = .ok c') :
    Files pattern (rules ++ more) c' := by
  induction more generalizing rules c with
  | nil =>
    cases h
    rwa [append_nil]
  | cons r more ih =>
    rw [foldlM_cons] at h
    obtain ⟨c₁, hadd, h⟩ := of_bind_eq_ok h
    rw [append_cons]
    exact ih (hc.add hadd) h

/-- The rules that are tried on an element: each one as often as the text of the element is among
its words, and those without words. -/
theorem Files.rulesFor_eq (hc : Files pattern rules c) (e : Element) : c.rulesFor e =
      (rules.flatMap fun r => ((wordsOf (pattern r)).filter fun k => e.lowerText == some k).map
        fun _ => r) ++
        rules.filter fun r => (wordsOf (pattern r)).isEmpty := by
  unfold rulesFor
  rw [hc.others]
  cases e.lowerText with
  | none => simp
  | some text =>
    dsimp only
    rw [hc.byWord, filter_flatMap, map_flatMap]
    refine congrArg (· ++ _) (congrArg (List.flatMap · rules) (funext fun r => ?_))
    rw [filter_map, map_map]
    refine congrArg (List.map _) (filter_congr fun k _ => ?_)
    -- the index compares from the side of the word
    exact (BEq.comm : (k == text) = (text == k))

end Candidates

namespace Index

open Candidates

/-- All rules of a list are filed: statements by their openings, blocks by their headers or else by
their openings, and terms by their shapes. -/
structure Files (rules : List Rule) (index : Index) : Prop where
  statements : index.statements.Files Rule.opening (ofFamily rules .statement)
  blocks : index.blocks.Files Grouping.blockStart (ofFamily rules .block)
  terms : index.terms.Files Rule.shape (ofFamily rules .term)

theorem ofFamily_append (rules more : List Rule) (family : Family) :
    ofFamily (rules ++ more) family = ofFamily rules family ++ ofFamily more family :=
  filter_append rules more

theorem Files.extend (hindex : Files rules index) (h : index.extend more = .ok index') :
    Files (rules ++ more) index' := by
  unfold Index.extend at h
  obtain ⟨statements, hs, h⟩ := of_bind_eq_ok h
  obtain ⟨blocks, hb, h⟩ := of_bind_eq_ok h
  obtain ⟨terms, ht, h⟩ := of_bind_eq_ok h
  cases h
  refine ⟨?_, ?_, ?_⟩ <;> rw [ofFamily_append]
  · exact hindex.statements.addAll hs
  · exact hindex.blocks.addAll hb
  · exact hindex.terms.addAll ht

theorem Files.extendAll (hindex : Files rules index)
    (h : lists.foldlM Index.extend index = .ok index') : Files (rules ++ lists.flatten) index' := by
  induction lists generalizing rules index with
  | nil =>
    cases h
    rwa [flatten_nil, append_nil]
  | cons more lists ih =>
    rw [foldlM_cons] at h
    obtain ⟨next, hnext, h⟩ := of_bind_eq_ok h
    rw [flatten_cons, ← append_assoc]
    exact ih (hindex.extend hnext) h

theorem files_of_ofLists (h : ofLists lists = .ok index) : Files lists.flatten index := by
  have hempty : Files [] {} := ⟨files_nil, files_nil, files_nil⟩
  exact hempty.extendAll h

end Index

/-! ### Trying rules again, and trying others in between -/

/-- Two benches are the same up to where the elements of their streams are kept. -/
structure Bench.Similar (b c : Bench) : Prop where
  desk : b.desk = c.desk
  ledger : b.ledger = c.ledger
  stream : b.stream.Similar c.stream

theorem Bench.Similar.refl (b : Bench) : b.Similar b :=
  ⟨rfl, rfl, .refl _⟩

theorem Bench.Similar.symm {c : Bench} (h : b.Similar c) : c.Similar b :=
  ⟨h.desk.symm, h.ledger.symm, h.stream.symm⟩

theorem Bench.Similar.trans {c d : Bench} (hbc : b.Similar c) (hcd : c.Similar d) : b.Similar d :=
  ⟨hbc.desk.trans hcd.desk, hbc.ledger.trans hcd.ledger, hbc.stream.trans hcd.stream⟩

namespace Grouping

open Work Pattern

variable {pattern : Rule → Option Pattern} {e : Element} {b : Bench}

/-- Two pieces of work have come to the same outcome, on benches that are the same up to where
elements are kept. -/
def SameEnd {α : Type} (x y : Except Fault α × Bench) : Prop :=
  x.1 = y.1 ∧ x.2.Similar y.2

theorem SameEnd.refl {α : Type} (x : Except Fault α × Bench) : SameEnd x x :=
  ⟨rfl, .refl _⟩

theorem SameEnd.symm {α : Type} {x y : Except Fault α × Bench} (h : SameEnd x y) : SameEnd y x :=
  ⟨h.1.symm, h.2.symm⟩

theorem SameEnd.trans {α : Type} {x y z : Except Fault α × Bench} (hxy : SameEnd x y)
    (hyz : SameEnd y z) : SameEnd x z :=
  ⟨hxy.1.trans hyz.1, hxy.2.trans hyz.2⟩

theorem beside_take? (p : Option Pattern) (e : Element) :
    Beside Bench.Similar (fun _ => True) (take? p e) (take? p e) := by
  cases p with
  | none => exact beside_throw _
  | some p =>
    unfold take?
    have htry : Beside Bench.Similar (fun _ => True) (onStream (p.tryOn e true))
        (onStream (p.tryOn e true)) := by
      intro b c h
      obtain ⟨hsame, -, hstream⟩ := p.beside_tryOn e true b.stream c.stream h.stream
      exact ⟨hsame, fun _ _ => trivial, h.desk, h.ledger, hstream⟩
    refine htry.bind fun answer _ => ?_
    cases answer <;> exact beside_pure trivial

theorem beside_firstRule? (pattern : Rule → Option Pattern) (e : Element) (rs : List Rule) :
    Beside Bench.Similar (fun _ => True) (firstRule? pattern e rs) (firstRule? pattern e rs) := by
  induction rs with
  | nil => exact beside_pure trivial
  | cons r rs ih =>
    unfold firstRule?
    refine (beside_take? (pattern r) e).bind fun found _ => ?_
    cases found with
    | some => exact beside_pure trivial
    | none => exact ih

/-- The rule is tried on the element and takes nothing. -/
def Declines (pattern : Rule → Option Pattern) (e : Element) (b : Bench) (r : Rule) : Prop :=
  ∃ c, Runs (take? (pattern r) e) b none c

theorem similar_of_declined {c : Bench} (hb : b.stream.looking = false)
    (h : Runs (take? (pattern r) e) b none c) : b.Similar c := by
  have hledger : Keeps (fun b c : Bench => b.ledger = c.ledger) (take? (pattern r) e) := by
    intro b
    cases pattern r with
    | none => rfl
    | some =>
      unfold take?
      refine of_runOn_bind (P := fun c : Bench => b.ledger = c.ledger) rfl fun answer t ht => ?_
      obtain ⟨s, -, rfl⟩ := runs_within.mp ht
      cases answer <;> rfl
  obtain ⟨-, hgoes⟩ := taken_of_runs_take? hb h
  exact ⟨hgoes.desk.symm, hledger.of_runs h, hb.trans hgoes.looking.symm, hgoes.broken.symm,
    hgoes.rest.symm⟩

/-- A rule that takes nothing may as well be left out. -/
theorem sameEnd_of_declines (hb : b.stream.looking = false) (h : Declines pattern e b r)
    (rs : List Rule) :
    SameEnd ((firstRule? pattern e (r :: rs)).runOn b) ((firstRule? pattern e rs).runOn b) := by
  obtain ⟨c, hc⟩ := h
  conv => lhs; unfold firstRule?
  rw [hc.runOn_bind]
  obtain ⟨hsame, -, hreached⟩ := beside_firstRule? pattern e rs c b (similar_of_declined hb hc).symm
  exact ⟨hsame, hreached⟩

theorem sameEnd_of_all_decline (hb : b.stream.looking = false) {skipped : List Rule}
    (h : ∀ r ∈ skipped, Declines pattern e b r) (rs : List Rule) :
    SameEnd ((firstRule? pattern e (skipped ++ rs)).runOn b)
      ((firstRule? pattern e rs).runOn b) := by
  induction skipped with
  | nil => exact .refl _
  | cons r skipped ih =>
    obtain ⟨hr, hskipped⟩ := forall_mem_cons.mp h
    exact (sameEnd_of_declines hb hr (skipped ++ rs)).trans (ih hskipped)

/-- After a rule that does not take nothing, it does not matter which rules come. -/
theorem runOn_of_not_declines (h : ¬ Declines pattern e b r) (rs rs' : List Rule) :
    (firstRule? pattern e (r :: rs)).runOn b = (firstRule? pattern e (r :: rs')).runOn b := by
  unfold firstRule?
  refine runOn_bind_congr fun found c hc => ?_
  cases found with
  | some => rfl
  | none => exact absurd ⟨c, hc⟩ h

/-- A rule with words takes nothing where none of them stands. -/
theorem declines_of_wordsOf (hb : b.stream.looking = false) (hwords : wordsOf (pattern r) ≠ [])
    (he : ∀ k ∈ wordsOf (pattern r), e.lowerText ≠ some k) : Declines pattern e b r := by
  unfold Declines
  cases hpattern : pattern r with
  | none =>
    rw [hpattern] at hwords
    exact absurd rfl hwords
  | some p =>
    rw [hpattern] at hwords he
    have hrun := runOn_tryOn p e true hb
    -- the match ends on the element itself, so the stream is closed again where it was opened
    rw [fits_of_wordsOf hwords he] at hrun
    have honStream : Runs (onStream (p.tryOn e true)) b (if p.isSilent then .none else .refused)
        { b with stream := { b.stream with looking := false, index := 0 } } :=
      runs_within.mpr ⟨_, hrun, rfl⟩
    refine ⟨{ b with stream := { b.stream with looking := false, index := 0 } }, ?_⟩
    unfold Runs take?
    rw [honStream.runOn_bind]
    cases p.isSilent <;> rfl

/-! ### Trying all rules -/

/-- Rules in the order in which they are tried without an index: those with words, and then the
others. -/
def wordsFirst (pattern : Rule → Option Pattern) (rules : List Rule) : List Rule :=
  rules.filter (fun r => !(wordsOf (pattern r)).isEmpty) ++ rules.filter fun r =>
    (wordsOf (pattern r)).isEmpty

/-- Trying each rule as often as the text of the element is among its words, or trying each rule
that has words. -/
theorem sameEnd_filed (hb : b.stream.looking = false) (rules others : List Rule) : SameEnd
      ((firstRule? pattern e ((rules.flatMap fun r =>
        ((wordsOf (pattern r)).filter fun k => e.lowerText == some k).map fun _ => r) ++
          others)).runOn b)
      ((firstRule? pattern e (rules.filter (fun r => !(wordsOf (pattern r)).isEmpty) ++
        others)).runOn b) := by
  induction rules with
  | nil => exact .refl _
  | cons r rules ih =>
    rw [flatMap_cons, append_assoc]
    by_cases hwords : wordsOf (pattern r) = []
    · -- a rule without words is not among these
      rw [filter_cons_of_neg (by simp [hwords]), hwords]
      exact ih
    rw [filter_cons_of_pos (by simpa using hwords), cons_append]
    cases hcopies : (wordsOf (pattern r)).filter fun k => e.lowerText == some k with
    | nil =>
      -- the rule has other words, so it would not have taken anything
      have he : ∀ k ∈ wordsOf (pattern r), e.lowerText ≠ some k :=
        fun k hk heq => filter_eq_nil_iff.mp hcopies k hk (beq_iff_eq.mpr heq)
      exact ih.trans (sameEnd_of_declines hb (declines_of_wordsOf hb hwords he) _).symm
    | cons k ks =>
      rw [map_cons, cons_append]
      by_cases hr : Declines pattern e b r
      · -- refused once, the rule is refused by way of all its other words too
        have hcopy : ∀ q ∈ r :: ks.map fun _ => r, Declines pattern e b q := by
          refine forall_mem_cons.mpr ⟨hr, fun q hq => ?_⟩
          obtain ⟨-, -, rfl⟩ := mem_map.mp hq
          exact hr
        exact (sameEnd_of_all_decline hb hcopy _).trans
          (ih.trans (sameEnd_of_declines hb hr _).symm)
      · -- it is found or stops with a fault, and nothing behind it is tried
        rw [runOn_of_not_declines hr]
        exact .refl _

theorem sameEnd_of_files (hc : c.Files pattern rules) (hb : b.stream.looking = false) :
    SameEnd ((firstRule? pattern e (c.rulesFor e)).runOn b)
      ((firstRule? pattern e (wordsFirst pattern rules)).runOn b) := by
  rw [hc.rulesFor_eq]
  exact sameEnd_filed hb rules _

end Grouping

namespace Index

open Grouping

/-- **Nothing is missed by the index.** Whatever element comes and whatever stream is behind it, the
statement, the term and the block that are found by the rules under the text of the element are
those that are found by all rules of their family, tried in the order of the grammar, those with
words first. The same elements are taken, and the same ones are left; where one way stops with a
fault, so does the other. -/
theorem selection_eq {lists : List (List Rule)} {index : Index} (hindex : ofLists lists = .ok index)
    (e : Element) {b : Bench} (hb : b.stream.looking = false) :
    SameEnd ((firstRule? Rule.opening e (index.statements.rulesFor e)).runOn b)
        ((firstRule? Rule.opening e
          (wordsFirst Rule.opening (ofFamily lists.flatten .statement))).runOn b) ∧
      SameEnd ((firstRule? Rule.shape e (index.terms.rulesFor e)).runOn b)
        ((firstRule? Rule.shape e (wordsFirst Rule.shape (ofFamily lists.flatten .term))).runOn b) ∧
      SameEnd ((firstBlock? e (index.blocks.rulesFor e)).runOn b)
        ((firstBlock? e (wordsFirst blockStart (ofFamily lists.flatten .block))).runOn b) := by
  have hfiles := files_of_ofLists hindex
  refine ⟨sameEnd_of_files hfiles.statements hb, sameEnd_of_files hfiles.terms hb, ?_⟩
  rw [firstBlock?_eq, firstBlock?_eq]
  exact sameEnd_of_files hfiles.blocks hb

/-- A bench whose stream has been read ahead by one element, and gives a blank and a word. -/
def wordBehind : Bench where
  stream :=
    { buffer := [.token { text := some " ", kind := some .whitespace }]
      upcoming := [.token { text := some "A", kind := some .string }] }

/-- The rule for `PUT` is filed twice, and both times it refuses a word that is a string. -/
theorem selection_eq_forms :
    ∃ index, ofLists [Language.forms] = .ok index ∧ wordBehind.stream.looking = false ∧
      index.terms.rulesFor (.token { text := some "Put", kind := some .generic }) =
        [Language.put, Language.put, Language.start] ∧
      SameEnd
        ((firstRule? Rule.shape (.token { text := some "Put", kind := some .generic })
          (index.terms.rulesFor (.token { text := some "Put", kind := some .generic }))).runOn
            wordBehind)
        ((firstRule? Rule.shape (.token { text := some "Put", kind := some .generic })
          (wordsFirst Rule.shape (ofFamily [Language.forms].flatten .term))).runOn wordBehind) := by
  refine ⟨_, rfl, rfl, rfl, ?_⟩
  have hindex : ofLists [Language.forms] = .ok _ := rfl
  exact (selection_eq hindex (.token { text := some "Put", kind := some .generic }) rfl).2.1

end Index

end EztScan
