import EztScan.Proofs.Lossless
import Mathlib.Algebra.Order.Ring.Int

/-!
# Where tokens stand

The lexer counts lines and columns by hand: pieces move the column on, text that is open keeps the
place where it began, and a query begins at a column of its own. Here the counts are shown to be
those of the source (`lex_positions`).

Two things are followed. The first one is where tokens begin. A line adds places to those that there
are, in order and all of them on the line itself, if the place of the text that is open counts as
one (`starts_line`). For this it does not matter that a token is complete only lines after it began.
The second one is what stands there: text that is open on a line is the part of the line from its
column on (`Mode.OpensIn`), so that a token which ends where it began is a part of it too
(`endsOn_line`).
-/

namespace EztScan

open List

variable {number : Int}

/-- Where a text begins, the line first. -/
abbrev Start := Option Int × Option Int

/-- The first place is known, and it comes before the second one, which is known too. -/
def Start.Before (p q : Start) : Prop :=
  ∃ line column line' column', p = (some line, some column) ∧ q = (some line', some column') ∧
    (line < line' ∨ line = line' ∧ column < column')

namespace Token

/-- Where the token begins. -/
def start (t : Token) : Start :=
  (t.span.beginLine, t.span.beginColumn)

/-- The line holds the text of the token from its column on. -/
def StandsIn (line : List Char) (t : Token) : Prop :=
  ∃ text before after, t.text = some text ∧ line = before ++ text.toList ++ after ∧
    t.span.beginColumn = some ((before.length : Int) + 1)

/-- The token ends on this line. If it has begun there as well, it is a part of it. -/
structure EndsOn (number : Int) (line : List Char) (t : Token) : Prop where
  last : t.span.endLine = some number
  first : ∃ n ≤ number, t.span.beginLine = some n ∧ (n = number → t.StandsIn line)

/-- The first token ends on the line that the second one ends on, or on a line before. -/
def EndsNoLater (s t : Token) : Prop :=
  ∃ m n, s.span.endLine = some m ∧ t.span.endLine = some n ∧ m ≤ n

end Token

namespace Lexer

open Text

/-! ### Pieces -/

/-- Each piece has a character, so that columns go on from one piece to the next. -/
theorem ne_nil_of_mem_cut {seps : Separators} {cs p : List Char} (h : p ∈ cut seps cs) :
    p ≠ [] := by
  fun_induction cut seps cs with
  | case1 => exact absurd h not_mem_nil
  | case2 c cs _ ih =>
    rcases mem_cons.mp h with rfl | h
    · exact cons_ne_nil _ _
    · exact ih h
  | case3 c cs _ s hs ih =>
    rcases mem_cons.mp h with rfl | h
    · exact length_pos_iff.mp (seps.isPrefix_of_at? hs).1
    · exact ih h
  | case4 c cs _ _ ih =>
    rcases mem_cons.mp h with rfl | h
    · exact cons_ne_nil _ _
    · exact ih h

theorem pieces_cons (number column : Int) (mode : Mode) (p : List Char) (ps : List (List Char)) :
    pieces number column mode (p :: ps) =
      ((piece number column mode p).1 ++
        (pieces number (column + p.length) (piece number column mode p).2 ps).1,
        (pieces number (column + p.length) (piece number column mode p).2 ps).2) :=
  rfl

/-- A query takes all that is left of its line. -/
theorem pieces_query (number column : Int) (text : List Char) (line col : Int)
    (ps : List (List Char)) :
    pieces number column (.query text line col) ps =
      ([], .query (text ++ ps.flatten) line col) := by
  induction ps generalizing column text with
  | nil =>
    rw [flatten_nil, append_nil]
    rfl
  | cons p ps ih =>
    have hpiece : piece number column (.query text line col) p =
      ([], .query (text ++ p) line col) := rfl
    rw [pieces_cons, hpiece, ih, flatten_cons, append_assoc]
    rfl

/-! ### Where tokens begin -/

/-- Where the text that is open began. -/
def Mode.starts : Mode → List Start
  | .code => []
  | .query _ line column => [(some line, some column)]
  | .quote _ line column => [(some line, some column)]

/-- Where the tokens that have been read began, and behind them the text that is open. -/
def starts (result : List Token × Mode) : List Start :=
  result.1.map Token.start ++ result.2.starts

/-- Places on one line in their order, none of them before the column. -/
structure OnLine (number column : Int) (new : List Start) : Prop where
  ordered : new.Pairwise Start.Before
  columns : ∀ q ∈ new, ∃ c, q = (some number, some c) ∧ column ≤ c

namespace OnLine

variable {number column column' : Int} {new : List Start}

theorem nil : OnLine number column [] :=
  ⟨Pairwise.nil, forall_mem_nil _⟩

theorem mono (h : OnLine number column' new) (hle : column ≤ column') :
    OnLine number column new := by
  refine ⟨h.ordered, fun q hq => ?_⟩
  obtain ⟨c, rfl, hc⟩ := h.columns q hq
  exact ⟨c, rfl, le_trans hle hc⟩

theorem cons (h : OnLine number column' new) (hlt : column < column') :
    OnLine number column ((some number, some column) :: new) := by
  refine ⟨pairwise_cons.mpr ⟨fun q hq => ?_, h.ordered⟩,
    forall_mem_cons.mpr ⟨⟨column, rfl, le_refl _⟩, ?_⟩⟩
  · obtain ⟨c, rfl, hc⟩ := h.columns q hq
    exact ⟨number, column, number, c, rfl, rfl, .inr ⟨rfl, lt_of_lt_of_le hlt hc⟩⟩
  · exact (h.mono hlt.le).columns

end OnLine

/-- What the pieces of a line begin stands in order on this line, behind what was open before. -/
theorem starts_pieces (number column : Int) (mode : Mode) {ps : List (List Char)}
    (hps : ∀ p ∈ ps, p ≠ []) :
    ∃ new, OnLine number column new ∧
      starts (pieces number column mode ps) = mode.starts ++ new := by
  induction ps generalizing column mode with
  | nil => exact ⟨[], .nil, (append_nil _).symm⟩
  | cons p ps ih =>
    have hlt : column < column + p.length := by
      have hp := length_pos_iff.mpr (hps p mem_cons_self)
      omega
    -- what the rest of the line begins, whatever the first piece gives and leaves open
    have hrest {tokens : List Token} {mode' : Mode}
        (hpiece : piece number column mode p = (tokens, mode')) :
        ∃ new, OnLine number (column + p.length) new ∧
          starts (pieces number column mode (p :: ps)) =
            tokens.map Token.start ++ (mode'.starts ++ new) := by
      obtain ⟨new, hnew, heq⟩ :=
        ih (column + p.length) mode' fun q hq => hps q (mem_cons_of_mem p hq)
      refine ⟨new, hnew, ?_⟩
      rw [pieces_cons, hpiece, ← heq, starts, map_append, append_assoc]
      rfl
    cases mode with
    | quote text line col =>
      -- the piece goes to the string, and begins nothing
      by_cases hp : p = ['\'']
      · obtain ⟨new, hnew, heq⟩ := hrest (if_pos hp)
        exact ⟨new, hnew.mono hlt.le, heq⟩
      · obtain ⟨new, hnew, heq⟩ := hrest (if_neg hp)
        exact ⟨new, hnew.mono hlt.le, heq⟩
    | query =>
      refine ⟨[], .nil, ?_⟩
      rw [pieces_query]
      rfl
    | code =>
      by_cases hp : p = ['\'']
      · obtain ⟨new, hnew, heq⟩ := hrest (if_pos hp)
        exact ⟨_ :: new, hnew.cons hlt, heq⟩
      · by_cases hsql : p = queryWord
        · -- the query begins behind its word, and nothing else begins on the line
          have hquery : OnLine number (column + 3) [(some number, some (column + 3))] :=
            OnLine.nil.cons (lt_add_one _)
          have hword : OnLine number column [(some number, some column),
              (some number, some (column + 3))] :=
            hquery.cons (by omega)
          refine ⟨_, hword, ?_⟩
          have hpiece : piece number column .code p =
              ([token .keyword queryWord number column number (column + 2)],
                .query [] number (column + 3)) :=
            (if_neg hp).trans (if_pos hsql)
          rw [pieces_cons, hpiece, pieces_query]
          rfl
        · obtain ⟨new, hnew, heq⟩ := hrest ((if_neg hp).trans (if_neg hsql))
          exact ⟨_ :: new, hnew.cons hlt, heq⟩

/-- The end of a line begins nothing. -/
theorem starts_endOfLine (number : Int) (continued : Bool) (mode : Mode) :
    starts (endOfLine number continued mode) = mode.starts := by
  cases mode with
  | code | quote => rfl
  | query => cases continued <;> rfl

theorem starts_pieceLine (number : Int) (text : List Char) (mode : Mode) :
    ∃ new, OnLine number 1 new ∧ starts (pieceLine number text mode) = mode.starts ++ new := by
  have hpieces : ∀ p ∈ cut separators ((continued? (stripRight text)).getD text), p ≠ [] :=
    fun p hp => ne_nil_of_mem_cut hp
  obtain ⟨new, hnew, heq⟩ := starts_pieces number 1 mode hpieces
  refine ⟨new, hnew, ?_⟩
  unfold pieceLine starts
  rw [map_append, append_assoc]
  change _ ++ starts (endOfLine _ _ _) = _
  rw [starts_endOfLine]
  exact heq

theorem starts_queryLine (number : Int) (line text : List Char) (beginLine column : Int) :
    starts (queryLine number line text beginLine column) = [(some beginLine, some column)] := by
  unfold queryLine
  dsimp only
  cases continued? (stripRight line) with
  | some | none => rfl

theorem starts_firstQueryLine (number : Int) (line : List Char) :
    ∃ new, OnLine number 1 new ∧ starts (firstQueryLine number line) = new := by
  have hle := length_stripLeft_le line
  -- the blanks in front, the word, and the query right behind it
  let position : Int := line.length - (stripLeft line).length
  have hquery : OnLine number (position + 4) [(some number, some (position + 4))] :=
    OnLine.nil.cons (lt_add_one _)
  refine ⟨(some number, some (position + 1)) :: [(some number, some (position + 4))],
    (hquery.cons (by omega)).mono (by omega), ?_⟩
  unfold firstQueryLine
  dsimp only
  cases continued? (stripRight ((stripLeft line).drop 3)) with
  | some | none => rfl

/-- **Where a line begins tokens.** A line that is no comment adds places on itself to what was
open. -/
theorem starts_line (number : Int) {text : List Char} (mode : Mode)
    (h : isCommentLine text = false) :
    ∃ new, OnLine number 1 new ∧ starts (line number text mode) = mode.starts ++ new := by
  unfold line
  rw [h, if_neg Bool.false_ne_true]
  cases mode with
  | query => exact ⟨[], .nil, starts_queryLine _ _ _ _ _⟩
  | quote => exact starts_pieceLine _ _ _
  | code =>
    dsimp only
    split
    · exact starts_firstQueryLine _ _
    · exact starts_pieceLine _ _ .code

/-- Over all lines, what is begun stands in order, on no line before the first of them. -/
theorem starts_linesFrom (number : Int) (mode : Mode) (ls : List (List Char)) :
    ∃ new : List Start, new.Pairwise Start.Before ∧
      (∀ q ∈ new, ∃ n c, q = (some n, some c) ∧ number ≤ n) ∧
      starts ((linesFrom number mode ls).filter fun t => !t.isComment, modeAfter number mode ls) =
        mode.starts ++ new := by
  induction ls generalizing number mode with
  | nil => exact ⟨[], Pairwise.nil, forall_mem_nil _, (append_nil _).symm⟩
  | cons l ls ih =>
    obtain ⟨later, hordered, hlater, heq⟩ := ih (number + 1) (line number l mode).2
    cases hl : isCommentLine l with
    | true =>
      -- a comment begins where it stands, but it is no part of what is compared
      rw [line_of_comment hl] at heq
      refine ⟨later, hordered, fun q hq => ?_, ?_⟩
      · obtain ⟨n, c, rfl, hn⟩ := hlater q hq
        exact ⟨n, c, rfl, by omega⟩
      · rw [linesFrom_cons, line_of_comment hl, filter_append, filter_cons, isComment_commentToken]
        change starts (_, modeAfter (number + 1) (line number l mode).2 ls) = _
        rw [line_of_comment hl]
        exact heq
    | false =>
      -- first what this line begins, and then what begins on later ones
      obtain ⟨new, hnew, hline⟩ := starts_line number mode hl
      refine ⟨new ++ later, pairwise_append.mpr ⟨hnew.ordered, hordered, ?_⟩, ?_, ?_⟩
      · intro p hp q hq
        obtain ⟨c, rfl, -⟩ := hnew.columns p hp
        obtain ⟨n, c', rfl, hn⟩ := hlater q hq
        exact ⟨number, c, n, c', rfl, rfl, .inl (by omega)⟩
      · intro q hq
        rcases mem_append.mp hq with hq | hq
        · obtain ⟨c, rfl, -⟩ := hnew.columns q hq
          exact ⟨number, c, rfl, le_refl _⟩
        · obtain ⟨n, c, rfl, hn⟩ := hlater q hq
          exact ⟨n, c, rfl, by omega⟩
      · -- what the line leaves open is what the lines behind it start with
        rw [linesFrom_cons, filter_append, (filter_isComment_of_codeToken (codeToken_line hl)).2]
        calc starts ((line number l mode).1 ++
            (linesFrom (number + 1) (line number l mode).2 ls).filter (fun t => !t.isComment),
            modeAfter number mode (l :: ls))
            = (line number l mode).1.map Token.start ++
              ((line number l mode).2.starts ++ later) := by
              rw [← heq, starts, map_append, append_assoc]
              rfl
          _ = mode.starts ++ (new ++ later) := by
              rw [← append_assoc, ← append_assoc, ← hline]
              rfl

/-! ### What stands there -/

/-- The text that is open began on a line before, or it stands in this one in front of the rest. -/
def Mode.OpensIn (number : Int) (line rest : List Char) : Mode → Prop
  | .code => True
  | .query text n column | .quote text n column =>
    n ≤ number ∧ (n = number → ∃ before, line = before ++ text ++ rest ∧ column = before.length + 1)

/-- The text that is open began on a line before. -/
def Mode.OpenBefore (number : Int) : Mode → Prop
  | .code => True
  | .query _ n _ | .quote _ n _ => n < number

theorem Mode.OpenBefore.opensIn {mode : Mode} (h : mode.OpenBefore number) (line rest : List Char) :
    mode.OpensIn number line rest := by
  cases mode with
  | code => trivial
  | query | quote => exact ⟨le_of_lt h, fun hn => absurd hn (ne_of_lt h)⟩

theorem Mode.OpensIn.openBefore {line rest : List Char} {mode : Mode}
    (h : mode.OpensIn number line rest) : mode.OpenBefore (number + 1) := by
  cases mode with
  | code => trivial
  | query | quote => exact Int.lt_add_one_of_le h.1

/-- Text that ends on a line makes a token there, if it stands in the line wherever it has begun on
it. -/
theorem endsOn_token {n column : Int} {line text : List Char} (kind : Kind) (endColumn : Int)
    (hn : n ≤ number)
    (h : n = number → ∃ before after, line = before ++ text ++ after ∧ column = before.length + 1) :
    (token kind text n column number endColumn).EndsOn number line := by
  refine ⟨rfl, n, hn, rfl, fun heq => ?_⟩
  obtain ⟨before, after, hline, hcolumn⟩ := h heq
  refine ⟨String.ofList text, before, after, rfl, ?_, ?_⟩
  · rw [String.toList_ofList]
    exact hline
  · rw [← hcolumn]
    rfl

/-- One piece: what is left open stands in front of what follows the piece. -/
theorem endsOn_piece {line before p rest : List Char} {mode : Mode}
    (hline : line = before ++ p ++ rest) (hmode : mode.OpensIn number line (p ++ rest)) :
    (∀ t ∈ (piece number (before.length + 1) mode p).1, t.EndsOn number line) ∧
      (piece number (before.length + 1) mode p).2.OpensIn number line rest := by
  have hhere (kind : Kind) (endColumn : Int) :
      (token kind p number (before.length + 1) number endColumn).EndsOn number line :=
    endsOn_token kind endColumn (le_refl _) fun _ => ⟨before, rest, hline, rfl⟩
  cases mode with
  | quote text n column =>
    unfold piece
    dsimp only
    -- the piece goes to the open text, and the text still ends where the rest begins
    have hopen : n = number → ∃ before, line = before ++ (text ++ p) ++ rest ∧
        column = before.length + 1 := by
      intro heq
      obtain ⟨front, hfront, hcolumn⟩ := hmode.2 heq
      exact ⟨front, by rw [hfront, append_assoc, append_assoc, append_assoc], hcolumn⟩
    split
    · refine ⟨forall_mem_singleton.mpr (endsOn_token _ _ hmode.1 fun heq => ?_), trivial⟩
      obtain ⟨front, hfront, hcolumn⟩ := hopen heq
      exact ⟨front, rest, hfront, hcolumn⟩
    · exact ⟨forall_mem_nil _, hmode.1, hopen⟩
  | query =>
    refine ⟨forall_mem_nil _, hmode.1, fun heq => ?_⟩
    obtain ⟨front, hfront, hcolumn⟩ := hmode.2 heq
    exact ⟨front, by rw [hfront, append_assoc, append_assoc, append_assoc], hcolumn⟩
  | code =>
    unfold piece
    dsimp only
    split
    · exact ⟨forall_mem_nil _, le_refl _, fun _ => ⟨before, hline, rfl⟩⟩
    · split
      next hword =>
        -- the query opens behind the word, with no text yet
        refine ⟨forall_mem_singleton.mpr (hword ▸ hhere _ _), le_refl _,
          fun _ => ⟨before ++ p, ?_, ?_⟩⟩
        · rw [hline, append_nil]
        · rw [hword, length_append]
          simp [queryWord, add_assoc]
      next => exact ⟨forall_mem_singleton.mpr (hhere _ _), trivial⟩

/-- The pieces of a line one after the other, each behind what stands before it. -/
theorem endsOn_pieces {line after : List Char} {ps : List (List Char)} {before : List Char}
    {mode : Mode} (hline : line = before ++ ps.flatten ++ after)
    (hmode : mode.OpensIn number line (ps.flatten ++ after)) :
    (∀ t ∈ (pieces number (before.length + 1) mode ps).1, t.EndsOn number line) ∧
      (pieces number (before.length + 1) mode ps).2.OpensIn number line after := by
  induction ps generalizing before mode with
  | nil => exact ⟨forall_mem_nil _, hmode⟩
  | cons p ps ih =>
    rw [flatten_cons, append_assoc] at hmode
    have hsplit : line = before ++ p ++ (ps.flatten ++ after) := by
      rw [hline, flatten_cons, append_assoc, append_assoc, append_assoc]
    obtain ⟨hfirst, hopen⟩ := endsOn_piece hsplit hmode
    obtain ⟨hrest, hlast⟩ := ih (hsplit.trans (append_assoc _ _ _).symm) hopen
    -- the column of the next piece is what stands before it
    have hcolumn : ((before ++ p).length + 1 : Int) = before.length + 1 + p.length := by
      rw [length_append]
      omega
    rw [hcolumn] at hrest hlast
    rw [pieces_cons]
    exact ⟨forall_mem_append.mpr ⟨hfirst, hrest⟩, hlast⟩

theorem stripRight_isPrefix (cs : List Char) : stripRight cs <+: cs :=
  List.rdropWhile_prefix isBlank cs

theorem unsigned_isPrefix (line : List Char) : unsigned line <+: line := by
  unfold unsigned
  dsimp only
  split
  · exact (List.dropLast_prefix _).trans (stripRight_isPrefix line)
  · exact prefix_rfl

/-- At the end of a line the rest of it does not matter any more. -/
theorem endsOn_endOfLine {line rest : List Char} {mode : Mode} (continued : Bool)
    (hmode : mode.OpensIn number line rest) :
    (∀ t ∈ (endOfLine number continued mode).1, t.EndsOn number line) ∧
      (endOfLine number continued mode).2.OpenBefore (number + 1) := by
  cases mode with
  | code => exact ⟨forall_mem_nil _, trivial⟩
  | quote => exact ⟨forall_mem_nil _, hmode.openBefore⟩
  | query =>
    cases continued with
    | true => exact ⟨forall_mem_nil _, Int.lt_add_one_of_le hmode.1⟩
    | false =>
      refine ⟨forall_mem_singleton.mpr (endsOn_token _ _ hmode.1 fun heq => ?_), trivial⟩
      obtain ⟨before, hbefore, hcolumn⟩ := hmode.2 heq
      exact ⟨before, rest, hbefore, hcolumn⟩

theorem endsOn_pieceLine (text : List Char) {mode : Mode} (hmode : mode.OpenBefore number) :
    (∀ t ∈ (pieceLine number text mode).1, t.EndsOn number text) ∧
      (pieceLine number text mode).2.OpenBefore (number + 1) := by
  unfold pieceLine
  dsimp only
  rw [continued?_getD]
  -- the pieces are those of the line, less the sign that it ends with
  obtain ⟨after, hafter⟩ := unsigned_isPrefix text
  have hline : text = [] ++ (cut separators (unsigned text)).flatten ++ after := by
    rw [flatten_cut]
    exact hafter.symm
  obtain ⟨htokens, hopen⟩ := endsOn_pieces hline (hmode.opensIn _ _)
  obtain ⟨hlast, hbefore⟩ := endsOn_endOfLine (continued? (stripRight text)).isSome hopen
  exact ⟨forall_mem_append.mpr ⟨htokens, hlast⟩, hbefore⟩

theorem endsOn_queryLine (line text : List Char) {beginLine : Int} (column : Int)
    (hbegin : beginLine < number) :
    (∀ t ∈ (queryLine number line text beginLine column).1, t.EndsOn number line) ∧
      (queryLine number line text beginLine column).2.OpenBefore (number + 1) := by
  unfold queryLine
  dsimp only
  cases continued? (stripRight line) with
  | some => exact ⟨forall_mem_nil _, Int.lt_add_one_of_le hbegin.le⟩
  | none =>
    refine ⟨forall_mem_singleton.mpr (endsOn_token _ _ hbegin.le fun heq => ?_), trivial⟩
    exact absurd heq (ne_of_lt hbegin)

/-- The keyword of a query stands in the line, and so does the text, unless it stays open. -/
theorem endsOn_firstQueryLine {line : List Char} (hline : isQueryLine line = true) :
    (∀ t ∈ (firstQueryLine number line).1, t.EndsOn number line) ∧
      (firstQueryLine number line).2.OpenBefore (number + 1) := by
  -- the column is counted from the length of the line and of what is left of it
  obtain ⟨blanks, hblanks⟩ : ∃ blanks, blanks = line.takeWhile isBlank := ⟨_, rfl⟩
  have hsplit : line = (blanks ++ queryWord) ++ (stripLeft line).drop 3 := by
    rw [hblanks]
    exact eq_of_isQueryLine hline
  have hposition : (line.length - (stripLeft line).length : Int) = blanks.length := by
    have hlength : line.length = blanks.length + (stripLeft line).length := by
      rw [hblanks, stripLeft, ← length_append, takeWhile_append_dropWhile]
    omega
  have hword (endColumn : Int) :
      (token .keyword queryWord number (blanks.length + 1) number endColumn).EndsOn number line :=
    endsOn_token _ _ (le_refl _) fun _ => ⟨blanks, _, hsplit, rfl⟩
  unfold firstQueryLine
  dsimp only
  rw [hposition]
  cases continued? (stripRight ((stripLeft line).drop 3)) with
  | some => exact ⟨forall_mem_singleton.mpr (hword _), Int.lt_add_one_of_le (le_refl _)⟩
  | none =>
    -- the query is what follows the word, up to blanks at the end
    obtain ⟨after, hafter⟩ := stripRight_isPrefix ((stripLeft line).drop 3)
    refine ⟨forall_mem_cons.mpr ⟨hword _, forall_mem_singleton.mpr ?_⟩, trivial⟩
    refine endsOn_token _ _ (le_refl _) fun _ => ⟨blanks ++ queryWord, after, ?_, ?_⟩
    · rw [append_assoc _ _ after, hafter]
      exact hsplit
    · rw [length_append]
      simp [queryWord, add_assoc]

/-- **What a line ends stands in the line**, unless it began on a line before. -/
theorem endsOn_line (text : List Char) {mode : Mode} (hmode : mode.OpenBefore number) :
    (∀ t ∈ (line number text mode).1, t.EndsOn number text) ∧
      (line number text mode).2.OpenBefore (number + 1) := by
  cases hl : isCommentLine text with
  | true =>
    rw [line_of_comment hl]
    refine ⟨forall_mem_singleton.mpr ?_, (hmode.opensIn [] []).openBefore⟩
    exact endsOn_token _ _ (le_refl _) fun _ => ⟨[], [], (append_nil text).symm, rfl⟩
  | false =>
    unfold line
    rw [hl, if_neg Bool.false_ne_true]
    cases mode with
    | query => exact endsOn_queryLine _ _ _ hmode
    | quote => exact endsOn_pieceLine _ hmode
    | code =>
      dsimp only
      split
      next hquery => exact endsOn_firstQueryLine hquery
      next => exact endsOn_pieceLine _ hmode

/-- Each token comes from one of the lines, and no text that is open there begins on it. -/
theorem exists_line_of_mem {mode : Mode} {ls : List (List Char)} {t : Token}
    (ht : t ∈ linesFrom number mode ls) :
    ∃ (k : Nat) (l : List Char) (mode' : Mode), ls[k]? = some l ∧
      t ∈ (line (number + k) l mode').1 ∧
      (mode.OpenBefore number → mode'.OpenBefore (number + k)) := by
  induction ls generalizing number mode with
  | nil => cases ht
  | cons l ls ih =>
    rw [linesFrom_cons] at ht
    rcases mem_append.mp ht with ht | ht
    · refine ⟨0, l, mode, rfl, ?_⟩
      rw [Nat.cast_zero, add_zero]
      exact ⟨ht, id⟩
    · obtain ⟨k, l', mode', hl', hmem, hopen⟩ := ih ht
      refine ⟨k + 1, l', mode', hl', ?_⟩
      -- it comes from a later line, which is counted from the next one on
      rw [Nat.cast_succ, add_comm (k : Int) 1, ← add_assoc]
      exact ⟨hmem, fun hmode => hopen (endsOn_line l hmode).2⟩

/-- Over all lines, each token ends on one of them. -/
theorem endsOn_linesFrom {mode : Mode} (hmode : mode.OpenBefore number) (ls : List (List Char)) :
    ∀ t ∈ linesFrom number mode ls, ∃ k l, ls[k]? = some l ∧ t.EndsOn (number + (k : Nat)) l := by
  intro t ht
  obtain ⟨k, l, mode', hl, hmem, hopen⟩ := exists_line_of_mem ht
  exact ⟨k, l, hl, (endsOn_line l (hopen hmode)).1 t hmem⟩

/-- Lines are read one after the other, and each ends its tokens on itself. -/
theorem endsNoLater_linesFrom {mode : Mode} (hmode : mode.OpenBefore number)
    (ls : List (List Char)) : (linesFrom number mode ls).Pairwise Token.EndsNoLater := by
  induction ls generalizing number mode with
  | nil => exact Pairwise.nil
  | cons l ls ih =>
    obtain ⟨htokens, hopen⟩ := endsOn_line l hmode
    rw [linesFrom_cons]
    refine pairwise_append.mpr ⟨?_, ih hopen, ?_⟩
    · refine pairwise_of_forall_mem_list fun s hs t ht => ?_
      exact ⟨number, number, (htokens s hs).last, (htokens t ht).last, le_refl _⟩
    · intro s hs t ht
      obtain ⟨k, l', -, hends⟩ := endsOn_linesFrom hopen ls t ht
      exact ⟨number, _, (htokens s hs).last, hends.last, by omega⟩

/-! ### All positions -/

/-- **Positions are faithful and ordered.** A token begins no later than it ends, and one that ends
on the line that it begins on stands in that line of the source, at its column. Tokens end in the
order in which they come, and all but comments begin in that order as well, no two of them at one
place. -/
theorem lex_positions (source : String) :
    (∀ t ∈ lex source, ∃ first last, t.span.beginLine = some first ∧ t.span.endLine = some last ∧
      first ≤ last ∧
        (first = last → 1 ≤ first ∧
          ∃ line, (lines source.toList)[(first - 1).toNat]? = some line ∧ t.StandsIn line)) ∧
      (lex source).Pairwise Token.EndsNoLater ∧
      ((lex source).filter fun t => !t.isComment).Pairwise fun s t => s.start.Before t.start := by
  have hcode : Mode.code.OpenBefore 1 := trivial
  refine ⟨fun t ht => ?_, endsNoLater_linesFrom hcode _, ?_⟩
  · obtain ⟨k, l, hl, hends⟩ := endsOn_linesFrom hcode _ t ht
    obtain ⟨n, hn, hfirst, hstands⟩ := hends.first
    refine ⟨n, _, hfirst, hends.last, hn, fun heq => ⟨by omega, l, ?_, hstands heq⟩⟩
    have hindex : (n - 1).toNat = k := by omega
    rw [hindex]
    exact hl
  · obtain ⟨new, hordered, -, heq⟩ := starts_linesFrom 1 .code (lines source.toList)
    rw [starts, Mode.starts, nil_append] at heq
    rw [← heq] at hordered
    exact pairwise_map.mp (pairwise_append.mp hordered).1

-- a string over two lines begins on the first and ends on the second, with a comment between them
example : (lex "A 'B\n* C\nD' E").map (fun t => (t.text, t.span.beginLine, t.span.endLine)) =
    [(some "A", some 1, some 1), (some " ", some 1, some 1), (some "* C", some 2, some 2),
      (some "'BD'", some 1, some 3), (some " ", some 3, some 3), (some "E", some 3, some 3)] := by
  decide +kernel

end Lexer

end EztScan
