import EztScan.Proofs.Positions

/-!
# Where queries start

A query starts with the word `SQL`, and the lexer looks for it in two places. Further in a line it
compares whole pieces with the word. At the start of a line it only looks whether the line starts
with these letters, behind its blanks, before it cuts anything. The two do not agree: a first word
that is longer, such as `SQLCODE`, starts a query with the text `CODE`
(`query_opens_at_longer_word`). This is the only way in which they can differ (`query_opens_iff`).

A token of the word always begins on the line that is being read (`beginLine_of_keyword`). So where
one is found at the start of a line, the line starts with the word.
-/

namespace EztScan.Lexer

open Text List

/-! ### The first word of a line -/

/-- A piece that is not blank. -/
def isWord (p : List Char) : Bool :=
  !p.all isBlank

/-- The first piece of a line that is not blank, if the line is cut without the sign of continuation
at its end. -/
def firstWord? (line : List Char) : Option (List Char) :=
  (cut separators (unsigned line)).find? isWord

/-- The first piece of a text starts with its first character. -/
theorem exists_cut_cons (seps : Separators) (c : Char) (cs : List Char) :
    ∃ p ps, cut seps (c :: cs) = (c :: p) :: ps := by
  have hflatten := flatten_cut seps (c :: cs)
  cases hcut : cut seps (c :: cs) with
  | nil =>
    rw [hcut] at hflatten
    exact absurd hflatten.symm (cons_ne_nil c cs)
  | cons p ps =>
    obtain ⟨d, q, rfl⟩ := exists_cons_of_ne_nil (ne_nil_of_mem_cut (hcut ▸ mem_cons_self))
    rw [hcut, flatten_cons, cons_append] at hflatten
    exact ⟨q, ps, by rw [(List.cons.inj hflatten).1]⟩

theorem find?_cut_of_solid (seps : Separators) {cs : List Char}
    (h : ∀ c tail, cs = c :: tail → isBlank c = false) :
    (cut seps cs).find? isWord = (cut seps cs).head? := by
  cases cs with
  | nil =>
    rw [cut]
    rfl
  | cons c cs =>
    obtain ⟨p, ps, hcut⟩ := exists_cut_cons seps c cs
    have hword : isWord (c :: p) = true := by simp [isWord, h c cs rfl]
    rw [hcut, find?_cons_of_pos hword, head?_cons]

/-- The first piece that is not blank is the first piece behind the blanks. -/
theorem find?_cut (seps : Separators) (cs : List Char) :
    (cut seps cs).find? isWord = (cut seps (stripLeft cs)).head? := by
  have hsolid : ∀ (cs : List Char) (c : Char) (tail : List Char), cs.dropWhile isBlank = c :: tail →
      isBlank c = false := by
    intro cs c tail hcs
    have hhead := head?_dropWhile_not isBlank cs
    rw [hcs] at hhead
    simpa using hhead
  cases cs with
  | nil =>
    rw [stripLeft, dropWhile_nil, cut]
    rfl
  | cons c cs =>
    unfold stripLeft
    cases hc : isBlank c with
    | true =>
      have hrun : ¬ isWord (c :: cs.takeWhile isBlank) = true := by simp [isWord, hc]
      rw [cut, if_pos hc, find?_cons_of_neg hrun, dropWhile_cons_of_pos hc]
      exact find?_cut_of_solid seps (hsolid cs)
    | false =>
      have hself : (c :: cs).dropWhile isBlank = c :: cs := dropWhile_cons_of_neg (by simp [hc])
      rw [hself]
      exact find?_cut_of_solid seps fun d tail hd => (List.cons.inj hd).1 ▸ hc

/-! ### Lines that start with the word -/

theorem isBlank_of_mem_queryWord {c : Char} (hc : c ∈ queryWord) : isBlank c = false := by
  have hall : queryWord.all (fun c => !isBlank c) = true := by decide
  simpa using all_eq_true.mp hall c hc

/-- No separator starts with a letter of the word. -/
theorem at?_of_mem_queryWord {c : Char} (hc : c ∈ queryWord) (cs : List Char) :
    separators.at? (c :: cs) = none := by
  rw [← Option.not_isSome_iff_eq_none]
  intro hsome
  obtain ⟨t, ht, -, hstart⟩ := Separators.isSome_at?.mp hsome
  simp only [mem_cons, not_mem_nil, or_false] at ht
  rcases ht with rfl | rfl
  · obtain rfl : '\'' = c := (cons_prefix_cons.mp hstart).1
    exact absurd hc (by decide)
  · obtain rfl : '.' = c := (cons_prefix_cons.mp hstart).1
    exact absurd hc (by decide)

/-- A letter of the word belongs to the piece that it follows. -/
theorem spanWord_of_mem_queryWord {c : Char} (hc : c ∈ queryWord) (cs : List Char) :
    spanWord separators (c :: cs) = (c :: (spanWord separators cs).1,
      (spanWord separators cs).2) := by
  rw [spanWord, if_neg]
  simp [isBlank_of_mem_queryWord hc, at?_of_mem_queryWord hc]

theorem exists_cut_queryWord (rest : List Char) :
    ∃ more ps, cut separators (queryWord ++ rest) = (queryWord ++ more) :: ps := by
  have hS : 'S' ∈ queryWord := by decide
  have hQ : 'Q' ∈ queryWord := by decide
  have hL : 'L' ∈ queryWord := by decide
  refine ⟨(spanWord separators rest).1, cut separators (spanWord separators rest).2, ?_⟩
  change cut separators ('S' :: 'Q' :: 'L' :: rest) = _
  rw [cut, if_neg (by simp [isBlank_of_mem_queryWord hS]), at?_of_mem_queryWord hS]
  rw [spanWord_of_mem_queryWord hQ, spanWord_of_mem_queryWord hL]
  rfl

theorem isQueryLine_iff {line : List Char} :
    isQueryLine line = true ↔ ∃ blanks rest, (∀ c ∈ blanks, isBlank c = true) ∧
      line = blanks ++ queryWord ++ rest := by
  constructor
  · intro h
    exact ⟨_, _, all_eq_true.mp all_takeWhile, eq_of_isQueryLine h⟩
  · rintro ⟨blanks, rest, hblanks, rfl⟩
    have hstrip : stripLeft (blanks ++ queryWord ++ rest) = queryWord ++ rest := by
      rw [stripLeft, append_assoc, dropWhile_append_of_pos hblanks]
      exact dropWhile_cons_of_neg (by decide)
    unfold isQueryLine
    rw [hstrip]
    exact List.isPrefixOf_iff_prefix.mpr (prefix_append _ _)

/-- The sign of continuation at the end of a line is no part of the word that it starts with. -/
theorem isQueryLine_unsigned (line : List Char) :
    isQueryLine (unsigned line) = isQueryLine line := by
  rw [Bool.eq_iff_iff, isQueryLine_iff, isQueryLine_iff]
  constructor
  · rintro ⟨blanks, rest, hblanks, hline⟩
    obtain ⟨more, hmore⟩ := unsigned_isPrefix line
    exact ⟨blanks, rest ++ more, hblanks, by rw [← hmore, hline, append_assoc]⟩
  · rintro ⟨blanks, rest, hblanks, rfl⟩
    have hne : blanks ++ queryWord ≠ [] := by simp [queryWord]
    have hstrip : stripRight (blanks ++ queryWord ++ rest) =
        blanks ++ queryWord ++ stripRight rest := by
      refine stripRight_append hne ?_
      rw [getLast_append_of_ne_nil _ (by decide : queryWord ≠ [])]
      decide
    rw [← continued?_getD, hstrip]
    by_cases hrest : stripRight rest = []
    · -- the line ends with the word, and the word does not end with a sign
      have hnone : continued? (blanks ++ queryWord) = none := by
        rw [continued?_append blanks (by decide : queryWord ≠ [])]
        rfl
      rw [hrest, append_nil, hnone]
      exact ⟨blanks, rest, hblanks, rfl⟩
    · rw [continued?_append _ hrest]
      cases continued? (stripRight rest) with
      | none => exact ⟨blanks, rest, hblanks, rfl⟩
      | some kept => exact ⟨blanks, kept, hblanks, rfl⟩

/-- **A line starts with the word if its first word does.** -/
theorem isQueryLine_iff_firstWord? {line : List Char} :
    isQueryLine line = true ↔ ∃ w, firstWord? line = some w ∧ queryWord <+: w := by
  unfold firstWord?
  rw [← isQueryLine_unsigned, find?_cut]
  unfold isQueryLine
  rw [ List.isPrefixOf_iff_prefix]
  constructor
  · rintro ⟨rest, hrest⟩
    obtain ⟨more, ps, hcut⟩ := exists_cut_queryWord rest
    rw [← hrest, hcut]
    exact ⟨_, rfl, prefix_append _ _⟩
  · rintro ⟨w, hw, hstart⟩
    obtain ⟨ps, hcut⟩ := head?_eq_some_iff.mp hw
    have hflatten := flatten_cut separators (stripLeft (unsigned line))
    rw [hcut, flatten_cons] at hflatten
    exact hstart.trans ⟨_, hflatten⟩

/-! ### Tokens of the word -/

/-- The word of a line that starts with it is the first token, and it stands behind the blanks. -/
theorem exists_firstQueryLine (number : Int) (line : List Char) :
    ∃ endColumn more, (firstQueryLine number line).1 =
      token .keyword queryWord number ((line.takeWhile isBlank).length + 1) number endColumn ::
        more := by
  have hposition : (line.length - (stripLeft line).length : Int) =
      (line.takeWhile isBlank).length := by
    have hlength : line.length = (line.takeWhile isBlank).length + (stripLeft line).length := by
      rw [stripLeft, ← length_append, takeWhile_append_dropWhile]
    omega
  unfold firstQueryLine
  dsimp only
  rw [hposition]
  cases continued? (stripRight ((stripLeft line).drop 3)) with
  | some | none => exact ⟨_, _, rfl⟩

/-- **Keywords begin on the line that is read.** -/
theorem beginLine_of_keyword {number : Int} {text : List Char} {mode : Mode} {t : Token}
    (ht : t ∈ (line number text mode).1) (hkind : t.kind = some .keyword) :
    t.span.beginLine = some number := by
  cases hcomment : isCommentLine text with
  | false => exact (lineToken_line hcomment t ht).keyword hkind
  | true =>
    rw [line_of_comment hcomment, mem_singleton] at ht
    rw [ht]
    rfl

/-- A keyword stands in the line on which it begins. -/
theorem standsIn_of_keyword {number : Int} {mode : Mode} (hmode : mode.OpenBefore number)
    (ls : List (List Char)) :
    ∀ t ∈ linesFrom number mode ls, t.kind = some .keyword →
      ∃ (k : Nat) (l : List Char), ls[k]? = some l ∧ t.span.beginLine = some (number + k) ∧
        t.StandsIn l := by
  intro t ht hkind
  obtain ⟨k, l, mode', hl, hmem, hopen⟩ := exists_line_of_mem ht
  have hline := beginLine_of_keyword hmem hkind
  obtain ⟨n, -, hfirst, hstands⟩ := ((endsOn_line l (hopen hmode)).1 t hmem).first
  exact ⟨k, l, hl, hline, hstands (Option.some.inj (hfirst.symm.trans hline))⟩

/-! ### Queries at the start of a line -/

/-- Among the tokens is the word that starts a query, at the first place of the line that is not
blank. -/
def OpensQuery (tokens : List Token) (number : Int) (line : List Char) : Prop :=
  ∃ t ∈ tokens, t.kind = some .keyword ∧ t.text = some (String.ofList queryWord) ∧
    t.start = (some number, some ((line.takeWhile isBlank).length + 1 : Int))

theorem opensQuery_iff_isQueryLine {source : String} {before after : List (List Char)}
    {l : List Char} (hlines : lines source.toList = before ++ l :: after)
    (hmode : modeAfter 1 .code before = .code) (hcomment : isCommentLine l = false) :
    OpensQuery (lex source) (before.length + 1) l ↔ isQueryLine l = true := by
  unfold lex
  rw [hlines]
  constructor
  · rintro ⟨t, ht, hkind, htext, hstart⟩
    have hcode : Mode.code.OpenBefore 1 := trivial
    obtain ⟨k, l', hl', hline, text, front, rest, htext', hsplit, hcolumn⟩ :=
      standsIn_of_keyword hcode _ t ht hkind
    obtain ⟨hbegin, hfirst⟩ := Prod.mk.inj hstart
    -- the line of the token is the one in question, and the token stands behind its blanks
    obtain rfl : k = before.length := by
      have := Option.some.inj (hline.symm.trans hbegin)
      omega
    obtain rfl : l' = l := by simpa using hl'.symm
    obtain rfl : text = String.ofList queryWord := Option.some.inj (htext'.symm.trans htext)
    have hlength : front.length = (l'.takeWhile isBlank).length := by
      have := Option.some.inj (hcolumn.symm.trans hfirst)
      omega
    rw [String.toList_ofList, append_assoc] at hsplit
    have happend : front ++ (queryWord ++ rest) = l'.takeWhile isBlank ++ l'.dropWhile isBlank :=
      hsplit.symm.trans takeWhile_append_dropWhile.symm
    have hfront : front = l'.takeWhile isBlank := (append_inj happend hlength).1
    refine isQueryLine_iff.mpr ⟨front, rest, ?_, by rw [append_assoc]; exact hsplit⟩
    rw [hfront]
    exact all_eq_true.mp all_takeWhile
  · intro hquery
    have hline : line (before.length + 1) l .code = firstQueryLine (before.length + 1) l := by
      unfold line
      rw [hcomment, if_neg Bool.false_ne_true, hquery]
      rfl
    obtain ⟨endColumn, more, htokens⟩ := exists_firstQueryLine (before.length + 1) l
    refine ⟨token .keyword queryWord (before.length + 1) ((l.takeWhile isBlank).length + 1)
      (before.length + 1) endColumn,
      ?_, rfl, rfl, rfl⟩
    rw [linesFrom_append, hmode, linesFrom_cons, add_comm 1 (before.length : Int), hline, htokens]
    exact mem_append_right _ (mem_append_left _ mem_cons_self)

/-- **The start of a line is compared with the letters of the word only.** Take a line that is no
comment and is reached while nothing is open. The lexer finds a query at its start if and only if
its first word starts with `SQL`. So this is the same as asking whether the first word is `SQL`,
which is what is asked further in the line, unless the first word is a longer one that starts so. -/
theorem query_opens_iff {source : String} {before after : List (List Char)} {l : List Char}
    (hlines : lines source.toList = before ++ l :: after) (hmode : modeAfter 1 .code before = .code)
    (hcomment : isCommentLine l = false) :
    (OpensQuery (lex source) (before.length + 1) l ↔ ∃ w, firstWord? l = some w ∧ queryWord <+: w) ∧
      ((OpensQuery (lex source) (before.length + 1) l ↔ firstWord? l = some queryWord) ↔
        ¬ ∃ c more, firstWord? l = some (queryWord ++ c :: more)) := by
  have hopens : OpensQuery (lex source) (before.length + 1) l ↔
      ∃ w, firstWord? l = some w ∧ queryWord <+: w :=
    (opensQuery_iff_isQueryLine hlines hmode hcomment).trans isQueryLine_iff_firstWord?
  refine ⟨hopens, ?_⟩
  rw [hopens]
  constructor
  · rintro hsame ⟨c, more, hlonger⟩
    have hword := hsame.mp ⟨_, hlonger, prefix_append _ _⟩
    have hlength := congrArg List.length (Option.some.inj (hlonger.symm.trans hword))
    simp at hlength
  · refine fun hnot => ⟨?_, fun hword => ⟨_, hword, prefix_refl _⟩⟩
    rintro ⟨w, hw, more, rfl⟩
    cases more with
    | nil => rwa [append_nil] at hw
    | cons c more => exact absurd ⟨c, more, hw⟩ hnot

/-- On the second line, with a separator right behind the word and a sign at the end of the line. -/
theorem query_opens_iff_before_dot :
    (lines "PARM\n SQL.A-".toList = ["PARM".toList] ++ " SQL.A-".toList :: [] ∧
        modeAfter 1 .code ["PARM".toList] = .code ∧ isCommentLine " SQL.A-".toList = false) ∧
      (OpensQuery (lex "PARM\n SQL.A-") 2 " SQL.A-".toList ↔
        ∃ w, firstWord? " SQL.A-".toList = some w ∧ queryWord <+: w) ∧
      ((OpensQuery (lex "PARM\n SQL.A-") 2 " SQL.A-".toList ↔
        firstWord? " SQL.A-".toList = some queryWord) ↔
        ¬ ∃ c more, firstWord? " SQL.A-".toList = some (queryWord ++ c :: more)) := by
  have hlines : lines "PARM\n SQL.A-".toList = ["PARM".toList] ++ " SQL.A-".toList :: [] := by
    decide +kernel
  have hmode : modeAfter 1 .code ["PARM".toList] = .code := by decide +kernel
  have hcomment : isCommentLine " SQL.A-".toList = false := by decide +kernel
  exact ⟨⟨hlines, hmode, hcomment⟩, query_opens_iff hlines hmode hcomment⟩

/-- A query is found at the start of a line whose first word is `SQLCODE`. -/
theorem query_opens_at_longer_word :
    lines "SQLCODE".toList = [] ++ "SQLCODE".toList :: [] ∧ modeAfter 1 .code [] = .code ∧
      isCommentLine "SQLCODE".toList = false ∧
      ¬ (OpensQuery (lex "SQLCODE") 1 "SQLCODE".toList ↔
        firstWord? "SQLCODE".toList = some queryWord) := by
  have hlines : lines "SQLCODE".toList = [] ++ "SQLCODE".toList :: [] := by decide +kernel
  have hcomment : isCommentLine "SQLCODE".toList = false := by decide +kernel
  have hopens : OpensQuery (lex "SQLCODE") 1 "SQLCODE".toList :=
    (opensQuery_iff_isQueryLine hlines rfl hcomment).mpr (by decide +kernel)
  have hword : firstWord? "SQLCODE".toList ≠ some queryWord := by decide +kernel
  exact ⟨hlines, rfl, hcomment, fun hsame => hword (hsame.mp hopens)⟩

end EztScan.Lexer
