import EztScan.Proofs.Conservation
import EztScan.Proofs.Positions
import EztScan.Proofs.ProgramParts

/-!
# Sources with a mark in front

A preprocessor may put a line of its own in front of a source. The line is cut off before the source
is read, and the lines of what is left are counted from one again. So the marked source is read
exactly as the source without the mark is, positions included (`parse_eq_of_mark`), and every token
says that it stands one line further up than it does in the marked source.

Positions that count the line in front are those of the source without it, moved down by one
(`Element.shift`). What is read of a marked source never has them, unless there is nothing to read:
the stages keep all tokens, and each token says on which line it begins (`elements_ne_shift`).
-/

namespace EztScan

open Element

/-! ### Moving lines -/

/-- The place so many lines further down. -/
def Span.shift (k : Int) (s : Span) : Span :=
  { s with beginLine := s.beginLine.map (· + k), endLine := s.endLine.map (· + k) }

/-- The token so many lines further down. -/
def Token.shift (k : Int) (t : Token) : Token :=
  { t with span := t.span.shift k }

/-- The operand so many lines further down. -/
def Operand.shift (k : Int) : Operand → Operand
  | .word t => .word (t.shift k)
  | .group place => .group (place.shift k)

/-- The element of a header so many lines further down. -/
def HeaderItem.shift (k : Int) : HeaderItem → HeaderItem
  | .token t => .token (t.shift k)
  | .node number => .node number

/-- What is known about a node, with all places so many lines further down. -/
def Head.shift (k : Int) (h : Head) : Head :=
  { h with
    header := h.header.map (·.shift k)
    operands := h.operands.map fun o => (o.1, o.2.shift k) }

namespace Element

mutual

/-- The element with all that is in it so many lines further down. -/
def shift (k : Int) : Element → Element
  | .token t => .token (t.shift k)
  | .node h cs => .node (h.shift k) (shiftAll k cs)

/-- The elements with all that is in them so many lines further down. -/
def shiftAll (k : Int) : List Element → List Element
  | [] => []
  | e :: es => e.shift k :: shiftAll k es

end

mutual

theorem leaves_shift (k : Int) : ∀ e : Element, (e.shift k).leaves = e.leaves.map (·.shift k)
  | .token t => by rw [shift, leaves_token, leaves_token, List.map_singleton]
  | .node h cs => by rw [shift, leaves_node, leaves_node, leavesOfList_shiftAll k cs]

theorem leavesOfList_shiftAll (k : Int) :
    ∀ es : List Element, leavesOfList (shiftAll k es) = (leavesOfList es).map (·.shift k)
  | [] => by rw [shiftAll, leavesOfList_nil, List.map_nil]
  | e :: es => by
    rw [shiftAll, leavesOfList_cons, leavesOfList_cons, leaves_shift k e,
      leavesOfList_shiftAll k es, List.map_append]

end

end Element

theorem Token.shift_one_ne {t : Token} {n : Int} (h : t.span.beginLine = some n) :
    t.shift 1 ≠ t := by
  intro heq
  have hline : (t.shift 1).span.beginLine = some (n + 1) := congrArg (Option.map (· + 1)) h
  rw [heq, h] at hline
  have := Option.some.inj hline
  omega

/-- What is read, so many lines further down. -/
def Reading.shift (k : Int) (r : Reading) : Reading :=
  { r with elements := shiftAll k r.elements }

namespace Language

/-! ### The line in front -/

theorem withoutMark_of_line {line rest : List Char} (hmark : preprocessorMark <+: line)
    (hline : '\n' ∉ line) : withoutMark (line ++ '\n' :: rest) = rest := by
  have hmarked : preprocessorMark.isPrefixOf (line ++ '\n' :: rest) = true :=
    List.isPrefixOf_iff_prefix.mpr (hmark.trans (List.prefix_append line _))
  have hdrop : (line ++ '\n' :: rest).dropWhile (· != '\n') = '\n' :: rest := by
    rw [List.dropWhile_append_of_pos]
    · rfl
    · intro c hc
      exact bne_iff_ne.mpr fun heq => hline (heq ▸ hc)
  unfold withoutMark
  rw [if_pos hmarked, dropLine, hdrop]

section Marked

variable {line source : String} (hmark : preprocessorMark <+: line.toList)
  (hline : '\n' ∉ line.toList) (hsource : ¬ preprocessorMark <+: source.toList)

include hmark hline hsource in
/-- A line that a preprocessor has put in front makes no difference. -/
theorem parse_eq_of_mark : parse (line ++ "\n" ++ source) = parse source := by
  have hcut : withoutMark (line ++ "\n" ++ source).toList = source.toList := by
    rw [String.toList_append, String.toList_append, List.append_assoc]
    exact withoutMark_of_line hmark hline
  unfold parse
  rw [hcut, withoutMark_of_not_mark hsource]

/-! ### The tokens -/

/-- Each token ends on a line of the source. -/
theorem endsOn_of_mem_lex {source : String} {t : Token} (h : t ∈ Lexer.lex source) :
    ∃ (k : Nat) (l : List Char), (Text.lines source.toList)[k]? = some l ∧
      t.EndsOn (1 + (k : Nat)) l :=
  Lexer.endsOn_linesFrom (show Lexer.Mode.OpenBefore 1 .code from trivial) _ t h

variable (hfault : (parse source).fault = none)

include hsource hfault

/-- The tokens of a source without a mark pass stages with some grammars. -/
theorem exists_parseAll : ∃ scopes, parse source = Scope.parseAll scopes (Lexer.lex source) := by
  unfold parse at hfault ⊢
  rw [withoutMark_of_not_mark hsource] at hfault ⊢
  dsimp only at hfault ⊢
  rw [String.ofList_toList] at hfault ⊢
  unfold readWith at hfault ⊢
  split at hfault
  next => cases hfault
  next scopes _ => exact ⟨scopes, rfl⟩

theorem perm_of_parse : (leavesOfList (parse source).elements).Perm (Lexer.lex source) := by
  obtain ⟨scopes, hparse⟩ := exists_parseAll hsource hfault
  exact perm_of_runStages (by simp) hparse hfault

/-- Positions that count another line are not those that are read, as long as anything is read. -/
theorem elements_ne_shift (htokens : Lexer.lex source ≠ []) :
    shiftAll 1 (parse source).elements ≠ (parse source).elements := by
  intro heq
  have hperm := perm_of_parse hsource hfault
  have hne : leavesOfList (parse source).elements ≠ [] := by
    intro hnil
    rw [hnil] at hperm
    exact htokens hperm.nil_eq.symm
  obtain ⟨t, ts, hleaves⟩ := List.exists_cons_of_ne_nil hne
  have hmem : t ∈ Lexer.lex source := hperm.subset (hleaves ▸ List.mem_cons_self)
  obtain ⟨k, l, -, hends⟩ := endsOn_of_mem_lex hmem
  obtain ⟨n, -, hbegin, -⟩ := hends.first
  have hshifted := leavesOfList_shiftAll 1 (parse source).elements
  rw [heq, hleaves, List.map_cons] at hshifted
  exact Token.shift_one_ne hbegin (List.cons.inj hshifted).1.symm

include hmark hline in
/-- **The lines of a marked source are those of the source without the mark.** Reading a source with
a preprocessor's line in front gives what reading the source alone gives. A token within one line
says its line of the source alone, and stands in the next line of the source with the mark. To count
the line in front would give another result, unless there are no tokens. -/
theorem parse_marked :
    parse (line ++ "\n" ++ source) = parse source ∧
      (∀ t ∈ leavesOfList (parse (line ++ "\n" ++ source)).elements,
        t.span.beginLine = t.span.endLine →
        ∃ n : Nat, t.span.beginLine = some (n : Int) ∧
          ∃ text, (Text.lines (line ++ "\n" ++ source).toList)[n]? = some text ∧ t.StandsIn text) ∧
      (parse (line ++ "\n" ++ source) = (parse source).shift 1 ↔ Lexer.lex source = []) := by
  have hsame := parse_eq_of_mark hmark hline hsource
  rw [hsame]
  refine ⟨rfl, fun t ht hlines => ?_, fun heq => ?_, fun hnone => ?_⟩
  · have hmem := (perm_of_parse hsource hfault).subset ht
    obtain ⟨k, text, htext, hends⟩ := endsOn_of_mem_lex hmem
    obtain ⟨n, -, hbegin, hstands⟩ := hends.first
    have hn : n = 1 + (k : Int) := Option.some.inj (hbegin.symm.trans (hlines.trans hends.last))
    refine ⟨k + 1, by rw [hbegin, hn]; congr 1; omega, text, ?_, hstands hn⟩
    -- with the mark on top, each line has one line more above it
    have hsplit : Text.lines (line ++ "\n" ++ source).toList =
        line.toList :: Text.lines source.toList := by
      rw [String.toList_append, String.toList_append, List.append_assoc]
      exact List.splitOn_append_cons_self_of_not_mem hline _
    rw [hsplit, List.getElem?_cons_succ]
    exact htext
  · by_contra hsome
    exact elements_ne_shift hsource hfault hsome (congrArg Reading.elements heq).symm
  · obtain ⟨scopes, hparse⟩ := exists_parseAll hsource hfault
    have hnil : (parse source).elements = [] := by
      rw [hparse] at hfault ⊢
      rw [hnone] at hfault ⊢
      exact eq_nil_of_passed (passed_of_runStages (by simp) hfault) rfl
    unfold Reading.shift
    rw [hnil, shiftAll, ← hnil]

end Marked

theorem parse_marked_parm :
    (parse "PARM\n").fault = none ∧
      parse ("BEGIN_PROGRAM(A)" ++ "\n" ++ "PARM\n") = parse "PARM\n" := by
  have hfault : (parse "PARM\n").fault = none := by decide +kernel
  have hmark : preprocessorMark <+: "BEGIN_PROGRAM(A)".toList := by decide
  exact ⟨hfault, (parse_marked hmark (by decide) (by decide) hfault).1⟩

/-- Positions do not count the line in front. -/
theorem parse_ne_shift_of_mark :
    (parse "PARM\n").fault = none ∧
      parse ("BEGIN_PROGRAM(A)" ++ "\n" ++ "PARM\n") ≠ (parse "PARM\n").shift 1 := by
  have hfault : (parse "PARM\n").fault = none := by decide +kernel
  have hmark : preprocessorMark <+: "BEGIN_PROGRAM(A)".toList := by decide
  refine ⟨hfault, fun heq => ?_⟩
  rw [parse_eq_of_mark hmark (by decide) (by decide)] at heq
  exact elements_ne_shift (by decide) hfault (by decide +kernel)
    (congrArg Reading.elements heq).symm

end Language

end EztScan
