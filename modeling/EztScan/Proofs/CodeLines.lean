import EztScan.Proofs.LineChanges
import EztScan.Proofs.Resolution

/-!
# Lines of code

How many lines of code a program is said to have. The count takes the changes of the line along its
tokens and leaves out as many as it finds comments (`SyntaxTree.codeLines`). It does not find all
comments: those in front of the first code token among the children of a node are left out, and
since a node is no token, a comment behind sections can be one of them (`Node.earlyComments`). Nor
does it know that the line changes once more where text goes on behind a comment
(`SyntaxTree.resumptions`).

So the count is the number of lines on which the program has something else than comments, and both
of these numbers on top of it (`codeLines_of_runs`). It is right exactly if each comment comes
behind a code token of its node and no comment stands between tokens that begin on one line.

The tokens of a program are those of its source, in order (`leavesOfList_parseAll`), which tells how
the line changes along them. Comments are counted over the tree, one node at a time
(`length_comments`).
-/

namespace EztScan

open Element Token List

variable {n : Node} {t : Token} {ts : List Token}

/-! ### Comments of a tree -/

namespace Element

/-- Is the element a token of code? -/
def isCodeToken : Element → Bool
  | .token t => t.isCode
  | .node .. => false

/-- The comments among some elements that come before all tokens of code. -/
def earlyComments (es : List Element) : List Element :=
  (es.takeWhile fun e => !e.isCodeToken).filter isComment

theorem earlyComments_of_isCodeToken {e : Element} (h : e.isCodeToken = true) (es : List Element) :
    earlyComments (e :: es) = [] := by
  unfold earlyComments
  rw [takeWhile_cons_of_neg (by rw [h]; decide), filter_nil]

theorem length_earlyComments_cons {e : Element} (h : e.isCodeToken = false) (es : List Element) :
    (earlyComments (e :: es)).length = (if e.isComment then 1 else 0) +
      (earlyComments es).length := by
  unfold earlyComments
  rw [takeWhile_cons_of_pos (by rw [h]; rfl), filter_cons]
  split
  · rw [length_cons, add_comm]
  · rw [zero_add]

theorem bodyCommentsOf_nil (skip : Nat) (seen : Bool) : bodyCommentsOf skip seen [] = [] := by
  rw [bodyCommentsOf]

theorem bodyCommentsOf_succ (skip : Nat) (seen : Bool) (e : Element) (es : List Element) :
    bodyCommentsOf (skip + 1) seen (e :: es) = bodyCommentsOf skip seen es := by
  rw [bodyCommentsOf]

theorem bodyCommentsOf_token (seen : Bool) (t : Token) (es : List Element) :
    bodyCommentsOf 0 seen (.token t :: es) =
      (if t.isComment && seen then [t] else []) ++ bodyCommentsOf 0 (seen || t.isCode) es := by
  rw [bodyCommentsOf]

theorem bodyCommentsOf_node (seen : Bool) (hd : Head) (cs es : List Element) :
    bodyCommentsOf 0 seen (.node hd cs :: es) = (Element.node hd cs).bodyComments ++
      bodyCommentsOf 0 seen es := by
  rw [bodyCommentsOf]

/-- Blanks and comments in front may as well be skipped. -/
theorem bodyCommentsOf_of_idle {front : List Element} (h : ∀ e ∈ front, e.isCode = false)
    (es : List Element) :
    bodyCommentsOf front.length false (front ++ es) = bodyCommentsOf 0 false (front ++ es) := by
  induction front with
  | nil => rfl
  | cons e front ih =>
    obtain ⟨he, hfront⟩ := forall_mem_cons.mp h
    obtain ⟨⟨t, rfl⟩, -⟩ := isPlain_of_not_isCode he
    have ht : t.isCode = false := he
    rw [length_cons, cons_append, bodyCommentsOf_succ, ih hfront, bodyCommentsOf_token, ht,
      Bool.and_false, Bool.or_false]
    rfl

end Element

namespace Node

/-- The comments among the children of a node that come before all tokens of code there. -/
def earlyComments (n : Node) : List Element :=
  Element.earlyComments n.children

/-- A node is made of parts, and its sections say so. -/
def IsLaid (n : Node) : Prop :=
  ∃ comments opening body closing, n.Laid comments opening body closing

/-- The comments in front of a node have no influence on which comments count for its body. -/
theorem IsLaid.bodyComments_eq (h : n.IsLaid) :
    n.toElement.bodyComments = bodyCommentsOf 0 false n.children := by
  obtain ⟨comments, opening, body, closing, hlaid⟩ := h
  have hskip : placeOf n.children.length (n.head.sections.comments + n.head.sections.header) =
      comments.length := by
    rw [hlaid.sections, hlaid.children]
    unfold placeOf
    dsimp only
    rw [add_zero, if_neg (by omega), Int.toNat_natCast, append_assoc, append_assoc, length_append]
    exact min_eq_left (Nat.le_add_right _ _)
  unfold Node.toElement
  rw [bodyComments, hskip, hlaid.children, append_assoc, append_assoc,
    bodyCommentsOf_of_idle hlaid.idle]

end Node

namespace Element

/-- How many comments come early, in all nodes of some elements. -/
def earlyCount (es : List Element) : Nat :=
  ((allNodes es).map fun n => n.earlyComments.length).sum

theorem earlyCount_cons (e : Element) (es : List Element) :
    earlyCount (e :: es) = earlyCount [e] + earlyCount es := by
  unfold earlyCount
  rw [allNodes_cons, map_append, sum_append]

theorem earlyCount_token (t : Token) : earlyCount [.token t] = 0 := by
  unfold earlyCount
  rw [allNodes_token]
  rfl

theorem earlyCount_node (n : Node) :
    earlyCount [n.toElement] = n.earlyComments.length + earlyCount n.children := by
  unfold earlyCount
  rw [allNodes_node, map_cons, sum_cons]

theorem earlyCount_eq_zero_iff {es : List Element} :
    earlyCount es = 0 ↔ ∀ n ∈ allNodes es, n.earlyComments = [] := by
  unfold earlyCount
  rw [List.sum_eq_zero_iff_forall_eq_nat, List.forall_mem_map]
  exact forall₂_congr fun n _ => List.length_eq_zero_iff

/-- How many comments of some elements are accounted for in a row: those that count for bodies, and
those that come early, if no code has been `seen` before. -/
def accounted (seen : Bool) (es : List Element) : Nat :=
  (bodyCommentsOf 0 seen es).length + if seen then 0 else (earlyComments es).length

theorem accounted_nil (seen : Bool) : accounted seen [] = 0 := by
  unfold accounted
  rw [bodyCommentsOf_nil]
  cases seen with
  | true | false => rfl

/-- A comment is accounted for, whether code was seen before it or not. -/
theorem accounted_token (seen : Bool) (t : Token) (es : List Element) :
    accounted seen (.token t :: es) = (if t.isComment then 1 else 0) +
      accounted (seen || t.isCode) es := by
  unfold accounted
  rw [bodyCommentsOf_token, length_append]
  cases seen with
  | true =>
    rw [Bool.and_true, Bool.true_or, if_pos rfl, if_pos rfl, apply_ite List.length]
    exact add_assoc ..
  | false =>
    rw [Bool.and_false, Bool.false_or, if_neg Bool.false_ne_true, if_neg Bool.false_ne_true]
    cases hcode : t.isCode with
    | true =>
      -- a token of code is no comment, and nothing behind it comes early
      have hcomment : t.isComment = false := by
        unfold Token.isCode at hcode
        simpa using (Bool.and_eq_true_iff.mp hcode).2
      have hnone : earlyComments (.token t :: es) = [] :=
        earlyComments_of_isCodeToken (e := .token t) hcode es
      rw [hnone, hcomment, if_pos rfl, if_neg Bool.false_ne_true, zero_add]
      exact Nat.zero_add _
    | false =>
      have hcons : (earlyComments (.token t :: es)).length =
          (if t.isComment then 1 else 0) + (earlyComments es).length :=
        length_earlyComments_cons (e := .token t) hcode es
      rw [hcons, if_neg Bool.false_ne_true, length_nil]
      omega

/-- Nodes have no influence on what has been seen. -/
theorem accounted_node (seen : Bool) (hd : Head) (cs es : List Element) :
    accounted seen (.node hd cs :: es) = (Element.node hd cs).bodyComments.length +
      accounted seen es := by
  have hcons : (earlyComments (.node hd cs :: es)).length = 0 + (earlyComments es).length :=
    length_earlyComments_cons rfl es
  unfold accounted
  rw [bodyCommentsOf_node, length_append, hcons, zero_add, add_assoc]

/-- What a laid node accounts for: what counts for its body, and what comes early in it. -/
theorem accounted_children (h : n.IsLaid) :
    accounted false n.children = n.toElement.bodyComments.length + n.earlyComments.length := by
  unfold accounted
  rw [h.bodyComments_eq, if_neg Bool.false_ne_true]
  rfl

/-- **Every comment is accounted for**, in the row that it stands in or as an early one in a node
further down. -/
theorem length_comments : ∀ (seen : Bool) (es : List Element), (∀ n ∈ allNodes es, n.IsLaid) →
    ((leavesOfList es).filter Token.isComment).length = accounted seen es + earlyCount es
  | seen, [], _ => by
    rw [leavesOfList_nil, accounted_nil]
    rfl
  | seen, .token t :: es, h => by
    rw [allNodes_cons, allNodes_token, nil_append] at h
    have hrest := length_comments (seen || t.isCode) es h
    have hown : ([t].filter Token.isComment).length = if t.isComment then 1 else 0 := by
      rw [filter_cons, filter_nil, apply_ite List.length]
      rfl
    rw [leavesOfList_cons, leaves_token, filter_append, length_append, hown, hrest, accounted_token,
      earlyCount_cons, earlyCount_token, zero_add, add_assoc]
  | seen, .node hd cs :: es, h => by
    have hall : allNodes [.node hd cs] = ⟨hd, cs⟩ :: allNodes cs := allNodes_node ⟨hd, cs⟩
    rw [allNodes_cons, hall, forall_mem_append, forall_mem_cons] at h
    obtain ⟨⟨hlaid, hbelow⟩, hbehind⟩ := h
    -- inside of the node nothing has been seen yet
    have hinner := length_comments false cs hbelow
    have hrest := length_comments seen es hbehind
    have hown : accounted false cs = (Element.node hd cs).bodyComments.length +
        (earlyComments cs).length :=
      accounted_children hlaid
    have hearly : earlyCount [.node hd cs] = (earlyComments cs).length + earlyCount cs :=
      earlyCount_node ⟨hd, cs⟩
    rw [leavesOfList_cons, leaves_node, filter_append, length_append, hinner, hrest, hown,
      accounted_node, earlyCount_cons _ es, hearly]
    omega

end Element

/-! ### The tree of a program -/

namespace Language

open Grouping

/-- **The stages keep all tokens in order.** -/
theorem leavesOfList_parseAll (hlexed : ∀ u ∈ t :: ts, Lexer.Lexed u)
    (hfault : (Scope.parseAll programScopes (t :: ts)).fault = none) :
    leavesOfList (Scope.parseAll programScopes (t :: ts)).elements = t :: ts := by
  obtain ⟨h, cs, helements, -, hleaves⟩ := leaves_of_parseAll hlexed hfault
  rw [helements, leavesOfList_cons, leaves_node, leavesOfList_map_token, hleaves]

theorem TermShown.isLaid {r : Rule} {words : List Element} (h : TermShown r words n) :
    n.IsLaid := by
  obtain ⟨comments, opening, hlaid, -⟩ := h.parts
  exact ⟨_, _, _, _, hlaid⟩

theorem Section.Read.isLaid {s : Section} (h : s.Read n) : n.IsLaid := by
  obtain ⟨comments, opening, body, closing, hlaid, -⟩ := h.parts
  exact ⟨_, _, _, _, hlaid⟩

/-- **All nodes of a program are laid.** -/
theorem ProgramRead.isLaid (h : ProgramRead t ts n) : ∀ m ∈ allNodes [n.toElement], m.IsLaid := by
  obtain ⟨body, hlaid, -⟩ := h.parts
  rw [allNodes_node, forall_mem_cons]
  refine ⟨⟨_, _, _, _, hlaid⟩, h.forall_mem_allNodes (fun _ hterm => hterm.isLaid) fun hs =>
    ⟨hs.isLaid, ?_⟩⟩
  exact hs.forall_mem_allNodes fun _ hterm => hterm.isLaid

/-- **The program that a source is read into** has its parts, and tokens that come in order. -/
theorem program_of_treeOf {source : String} (h : Scan.treeOf source = .ok (.root n))
    (hkind : n.head.kind.name = "Program") :
    ∃ t ts, ProgramRead t ts n ∧ Ordered n.toElement.leaves := by
  obtain ⟨hfault, hmem⟩ := mem_of_treeOf h
  obtain ⟨text, hparse⟩ := parse_cases source
  have hlexed := Lexer.lexed_lex text
  have hordered := Lexer.ordered_lex text
  generalize Lexer.lex text = tokens at hparse hlexed hordered
  rcases hparse with hparse | hparse
  · -- a macro is not read into a program
    rw [hparse] at hmem
    obtain ⟨hform, -⟩ := tokens_of_macro hlexed hmem
    rw [hform] at hkind
    exact absurd hkind (by decide)
  · rw [hparse] at hfault hmem
    cases tokens with
    | nil => cases hmem
    | cons t ts =>
      obtain ⟨m, helements, hread⟩ := program_of_parseAll hlexed hfault
      have hleaves := leavesOfList_parseAll hlexed hfault
      rw [helements] at hmem hleaves
      obtain rfl := eq_of_mem_program hmem
      refine ⟨t, ts, hread, hordered.sublist ?_⟩
      rw [← hleaves, leavesOfList_cons]
      exact sublist_append_left _ _

end Language

/-! ### Lines of code -/

namespace SyntaxTree

open EztScan.Language

/-- The root of a program has no comments in front. -/
theorem headerComments_of_program (h : ProgramRead t ts n) :
    (SyntaxTree.root n).headerComments = .ok [] := by
  obtain ⟨body, hlaid, -⟩ := h.parts
  change Except.ok n.headerComments = _
  unfold Node.headerComments slice
  rw [hlaid.sections]
  rfl

/-- **What the count of the lines of a program comes to.** -/
theorem codeLines_of_program (h : ProgramRead t ts n) (hordered : Ordered n.toElement.leaves) :
    (SyntaxTree.root n).codeLines =
      .ok ((startLines n.toElement.leaves).card + earlyCount [n.toElement] +
        resumptions (some (-1)) false n.toElement.leaves) := by
  have hlaid := h.isLaid
  rw [allNodes_node, forall_mem_cons] at hlaid
  have hcomments : (n.toElement.leaves.filter Token.isComment).length =
      n.toElement.bodyComments.length + earlyCount [n.toElement] := by
    unfold Node.toElement
    rw [leaves_node, length_comments false n.children hlaid.2, accounted_children hlaid.1,
      add_assoc, ← earlyCount_node]
    rfl
  have hcount : (SyntaxTree.root n).codeLines =
      .ok (lineChanges (some (-1)) n.toElement.leaves - n.toElement.bodyComments.length - 0) := by
    have hleaves : leavesOfList [n.toElement] = n.toElement.leaves := by
      rw [leavesOfList_cons, leavesOfList_nil, append_nil]
    unfold codeLines
    rw [headerComments_of_program h, ← hleaves]
    rfl
  -- all comments are taken off again, apart from the early ones
  rw [hcount, lineChanges_of_ordered hordered, hcomments]
  refine congrArg Except.ok ?_
  omega

end SyntaxTree

namespace Scan

open EztScan.Language SyntaxTree Work

/-- The tree of a program with a root. -/
theorem tree_of_root {p : Program} (h : p.root? = some n) :
    ∃ self, p.symbols[0]? = some self ∧ self.tree = .root n := by
  obtain ⟨self, hself, hroot⟩ := Option.bind_eq_some_iff.mp h
  refine ⟨self, hself, ?_⟩
  cases htree : self.tree with
  | root =>
    rw [htree] at hroot
    rw [Option.some.inj hroot]
  | absent | forest =>
    rw [htree] at hroot
    cases hroot

/-- **Lines of code.** If a source has been read into a program, then the lines of code that are
counted are the lines on which tokens other than comments begin, and as many more as there are early
comments and lines that are gone back to. So the count is right exactly if every comment comes
behind a code token of its node, and none between tokens that begin on one line. -/
theorem codeLines_of_runs {files : SourceFiles} {i : ProgramId} {origin : Origin}
    {text : Option String} {events : Array Event} {s : Scan}
    (hrun : Runs (readProgram files) ⟨Program.unread i origin text, events⟩ () s) {n : Node}
    (hroot : s.program.root? = some n) (hkind : n.head.kind.name = "Program") :
    ∃ self, s.program.symbols[0]? = some self ∧
      self.tree.codeLines = .ok ((startLines n.toElement.leaves).card + earlyCount [n.toElement] +
        resumptions (some (-1)) false n.toElement.leaves) ∧
      (self.tree.codeLines = .ok (startLines n.toElement.leaves).card ↔
        (∀ m ∈ allNodes [n.toElement], m.earlyComments = []) ∧ Unbroken n.toElement.leaves) := by
  obtain ⟨self, hself, htree⟩ := tree_of_root hroot
  rcases (hasRead_of_runs (Program.isBare_unread i origin text) hrun).2 with ⟨hbare, -⟩ | ⟨root,
    hreads, -, henrolled⟩
  · -- without a tree there is no root
    rw [hbare.root?_eq] at hroot
    cases hroot
  · obtain rfl := Option.some.inj (henrolled.root?_eq.symm.trans hroot)
    obtain ⟨source, -, hsource⟩ := hreads
    obtain ⟨t, ts, hread, hordered⟩ := program_of_treeOf hsource hkind
    have hcount := codeLines_of_program hread hordered
    refine ⟨self, hself, by rw [htree, hcount], ?_⟩
    rw [htree, hcount, Except.ok.injEq, ← earlyCount_eq_zero_iff, ← resumptions_of_ordered hordered]
    omega

/-- A comment in front of a query, and another one inside of it. -/
def interruptedQuery : Scan :=
  ⟨Program.unread ⟨"A.ezt", 0⟩ .nowhere (some "PARM\n* C\nSQL SELECT A -\n* D\nFROM B\n"), #[]⟩

/-- The first comment counts as a line of code, and the query as two. -/
theorem codeLines_of_runs_interruptedQuery :
    ∃ s n self, Runs (readProgram []) interruptedQuery () s ∧ s.program.root? = some n ∧
      n.head.kind.name = "Program" ∧
      s.program.symbols[0]? = some self ∧ (startLines n.toElement.leaves).card = 2 ∧
        self.tree.codeLines = .ok 4 ∧
      ¬ ((∀ m ∈ allNodes [n.toElement], m.earlyComments = []) ∧ Unbroken n.toElement.leaves) := by
  have hrun : Runs (readProgram []) interruptedQuery () _ := runs_of_isOk (by decide +kernel)
  have hcounts : ((readProgram []).runOn interruptedQuery).2.program.root?.any (fun n =>
      n.head.kind.name == "Program" && (startLines n.toElement.leaves).card == 2 && earlyCount
        [n.toElement] == 1 &&
        resumptions (some (-1)) false n.toElement.leaves == 1) = true := by
    decide +kernel
  obtain ⟨n, hroot, hn⟩ := (Option.any_eq_true _ _).mp hcounts
  simp only [Bool.and_eq_true, beq_iff_eq] at hn
  obtain ⟨⟨⟨hkind, hlines⟩, hearly⟩, hresumed⟩ := hn
  obtain ⟨self, hself, hcount, hright⟩ := codeLines_of_runs hrun hroot hkind
  rw [hlines, hearly, hresumed] at hcount
  refine ⟨_, n, self, hrun, hroot, hkind, hself, hlines, hcount, ?_⟩
  rw [← hright, hlines, hcount]
  intro h
  cases h

/-- A comment between the first word of a program and a file. -/
def commentedFile : Scan :=
  ⟨Program.unread ⟨"A.ezt", 0⟩ .nowhere (some "PARM\n* C\nFILE A\n"), #[]⟩

/-- The comment counts as a line of code. -/
theorem codeLines_ne_startLines :
    ∃ s n self, Runs (readProgram []) commentedFile () s ∧ s.program.root? = some n ∧
      n.head.kind.name = "Program" ∧
      s.program.symbols[0]? = some self ∧ (startLines n.toElement.leaves).card = 2 ∧
        self.tree.codeLines = .ok 3 := by
  have hrun : Runs (readProgram []) commentedFile () _ := runs_of_isOk (by decide +kernel)
  have hcounts : ((readProgram []).runOn commentedFile).2.program.root?.any (fun n =>
      n.head.kind.name == "Program" && (startLines n.toElement.leaves).card == 2 &&
        (SyntaxTree.root n).codeLines = .ok 3) = true := by
    decide +kernel
  obtain ⟨n, hroot, hn⟩ := (Option.any_eq_true _ _).mp hcounts
  simp only [Bool.and_eq_true, beq_iff_eq, decide_eq_true_eq] at hn
  obtain ⟨⟨hkind, hlines⟩, hcount⟩ := hn
  obtain ⟨self, hself, htree⟩ := tree_of_root hroot
  exact ⟨_, n, self, hrun, hroot, hkind, hself, hlines, by rw [htree, hcount]⟩

end Scan

end EztScan
