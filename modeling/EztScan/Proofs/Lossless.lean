import EztScan.Proofs.Lexing
import EztScan.Proofs.Splitting

/-!
# The lexer loses nothing

Every character of a source that is not blank is in exactly one place: in the token of its line if
that is a comment, in a token of code, or in the text that is still open at the end. Only the signs
that continue a line are left out.

Inside a line this holds to the letter: what the pieces of a line add to the open text is what they
are (`textOf_pieces`). At the ends of lines, blanks come and go, so that from there on texts are
compared by their `ink`, the characters that are not blank (`ink_line`). The run over all lines is
`ink_linesFrom`.

The lexer never stops, either. Run on a record in which the texts and places of what is open may be
missing, it holds at each moment what the mode says is open (`Holding.Shows`), so that nothing is
missing when it is needed (`scan_eq_lex`).
-/

namespace EztScan

open List

/-! ### Texts without blanks -/

namespace Text

/-- The characters of a text that are not blank. -/
def ink (cs : List Char) : List Char :=
  cs.filter fun c => !isBlank c

theorem ink_append (as bs : List Char) : ink (as ++ bs) = ink as ++ ink bs :=
  filter_append ..

theorem ink_stripRight (cs : List Char) : ink (stripRight cs) = ink cs := by
  -- the blanks that are stripped are the rest of the text
  have hsplit : stripRight cs ++ cs.rtakeWhile isBlank = cs := rdropWhile_append_rtakeWhile ..
  have hblank : ink (cs.rtakeWhile isBlank) = [] := by
    refine filter_eq_nil_iff.mpr fun c hc => ?_
    rw [mem_rtakeWhile_imp hc]
    exact Bool.false_ne_true
  calc ink (stripRight cs)
      = ink (stripRight cs) ++ ink (cs.rtakeWhile isBlank) := by rw [hblank, append_nil]
    _ = ink cs := by rw [← ink_append, hsplit]

theorem ink_takeWhile_isBlank (cs : List Char) : ink (cs.takeWhile isBlank) = [] := by
  refine filter_eq_nil_iff.mpr fun c hc => ?_
  rw [mem_takeWhile_imp hc]
  exact Bool.false_ne_true

/-- Behind a character that is not blank, blanks are stripped from what follows only. -/
theorem stripRight_append {as bs : List Char} (has : as ≠ [])
    (hlast : isBlank (as.getLast has) = false) : stripRight (as ++ bs) = as ++ stripRight bs := by
  induction bs using List.reverseRecOn with
  | nil =>
    have hself : stripRight as = as := by
      refine rdropWhile_eq_self_iff.mpr fun _ => ?_
      rw [hlast]
      exact Bool.false_ne_true
    rw [append_nil, hself]
    exact (append_nil as).symm
  | append_singleton bs b ih =>
    change (as ++ (bs ++ [b])).rdropWhile isBlank = as ++ (bs ++ [b]).rdropWhile isBlank
    rw [← append_assoc, rdropWhile_concat, rdropWhile_concat]
    by_cases hb : isBlank b = true
    · rw [if_pos hb, if_pos hb]
      exact ih
    · rw [if_neg hb, if_neg hb, append_assoc]

end Text

namespace Lexer

open Text

/-! ### Signs of continuation -/

/-- The line without the sign of continuation that it ends with, if it does. -/
def unsigned (line : List Char) : List Char :=
  let text := stripRight line
  if text.getLast? = some '-' ∨ text.getLast? = some '+' then text.dropLast else line

theorem continued?_eq (text : List Char) : continued? text =
      if text.getLast? = some '-' ∨ text.getLast? = some '+' then some text.dropLast else none := by
  unfold continued?
  cases text.getLast? with
  | none => rfl
  | some => simp

theorem continued?_getD (line : List Char) :
    (continued? (stripRight line)).getD line = unsigned line := by
  rw [continued?_eq]
  unfold unsigned
  dsimp only
  split <;> rfl

/-- What stands in front of a text that is not empty has no part in its sign. -/
theorem continued?_append (as : List Char) {bs : List Char} (hbs : bs ≠ []) :
    continued? (as ++ bs) = (continued? bs).map (as ++ ·) := by
  rw [continued?_eq, continued?_eq, getLast?_append_of_ne_nil as hbs]
  split
  · rw [dropLast_append_of_ne_nil hbs]
    rfl
  · rfl

/-! ### Open text -/

/-- The text of some tokens. -/
def textOf (ts : List Token) : List Char :=
  ts.flatMap fun t => (t.text.getD "").toList

theorem textOf_append (as bs : List Token) : textOf (as ++ bs) = textOf as ++ textOf bs :=
  flatMap_append

theorem textOf_token (kind : Kind) (text : List Char) (line column endLine endColumn : Int) :
    textOf [token kind text line column endLine endColumn] = text := by
  unfold textOf token
  rw [flatMap_singleton]
  exact String.toList_ofList

/-- The text that is open. -/
def Mode.openText : Mode → List Char
  | .code => []
  | .query text _ _ => text
  | .quote text _ _ => text

/-- What was read, and is open now, has the same ink as a text. -/
def Reads (text : List Char) (result : List Token × Mode) : Prop :=
  ink (textOf result.1 ++ result.2.openText) = ink text

/-! ### Lines -/

/-- A piece goes into a token or to the open text. -/
theorem textOf_piece (number column : Int) (mode : Mode) (p : List Char) :
    textOf (piece number column mode p).1 ++ (piece number column mode p).2.openText =
      mode.openText ++ p := by
  cases mode with
  | quote =>
    unfold piece
    dsimp only
    split
    · rw [textOf_token]
      exact append_nil _
    · rfl
  | query => rfl
  | code =>
    unfold piece
    dsimp only
    split
    next => rfl
    next =>
      split
      next hword =>
        rw [textOf_token, hword]
        exact append_nil _
      next =>
        rw [textOf_token]
        exact append_nil _

theorem textOf_pieces (number column : Int) (mode : Mode) (ps : List (List Char)) :
    textOf (pieces number column mode ps).1 ++ (pieces number column mode ps).2.openText =
      mode.openText ++ ps.flatten := by
  induction ps generalizing column mode with
  | nil => exact (append_nil _).symm
  | cons p ps ih =>
    have hfirst := textOf_piece number column mode p
    have hrest := ih (column + p.length) (piece number column mode p).2
    unfold pieces
    rw [textOf_append, append_assoc, hrest, ← append_assoc, hfirst, append_assoc, flatten_cons]

theorem ink_endOfLine (number : Int) (continued : Bool) (mode : Mode) :
    Reads mode.openText (endOfLine number continued mode) := by
  unfold Reads endOfLine
  split
  next text line col =>
    split
    · -- the line feed that joins two lines of a query is blank
      change ink (text ++ ['\n']) = ink text
      rw [ink_append]
      exact append_nil _
    · rw [textOf_token]
      exact congrArg ink (append_nil _)
  next => rfl

theorem ink_pieceLine (number : Int) (line : List Char) (mode : Mode) :
    Reads (mode.openText ++ unsigned line) (pieceLine number line mode) := by
  unfold Reads pieceLine
  dsimp only
  rw [continued?_getD]
  have hpieces := textOf_pieces number 1 mode (cut separators (unsigned line))
  rw [flatten_cut] at hpieces
  have hend := ink_endOfLine number (continued? (stripRight line)).isSome
    (pieces number 1 mode (cut separators (unsigned line))).2
  unfold Reads at hend
  rw [textOf_append, append_assoc, ink_append, hend, ← ink_append, hpieces]

/-- The text of a line that continues a query: without its sign, and without blanks at its end. -/
theorem ink_unsigned_of_continued {line kept : List Char}
    (h : continued? (stripRight line) = some kept) :
    ink (unsigned line) = ink (stripRight kept) := by
  rw [← continued?_getD, h, ink_stripRight]
  rfl

theorem ink_unsigned_of_not_continued {line : List Char} (h : continued? (stripRight line) = none) :
    ink (unsigned line) = ink (stripRight line) := by
  rw [← continued?_getD, h, ink_stripRight]
  rfl

theorem ink_queryLine (number : Int) (line text : List Char) (beginLine column : Int) :
    Reads (text ++ unsigned line) (queryLine number line text beginLine column) := by
  unfold Reads queryLine
  dsimp only
  cases h : continued? (stripRight line) with
  | some kept =>
    change ink (text ++ stripRight kept ++ ['\n']) = _
    rw [ink_append, ink_append, ink_append text (unsigned line), ink_unsigned_of_continued h]
    exact append_nil _
  | none =>
    rw [textOf_token]
    change ink (text ++ stripRight line ++ []) = _
    rw [append_nil, ink_append, ink_append, ink_unsigned_of_not_continued h]

/-- A line that starts with a query: blanks, the word, and the rest. -/
theorem eq_of_isQueryLine {line : List Char} (h : isQueryLine line = true) :
    line = (line.takeWhile isBlank ++ queryWord) ++ (stripLeft line).drop 3 := by
  obtain ⟨rest, hrest⟩ := List.isPrefixOf_iff_prefix.mp h
  have hdrop : (stripLeft line).drop 3 = rest := by
    rw [← hrest]
    rfl
  calc line = line.takeWhile isBlank ++ stripLeft line := (takeWhile_append_dropWhile ..).symm
    _ = (line.takeWhile isBlank ++ queryWord) ++ (stripLeft line).drop 3 := by
      rw [hdrop, append_assoc, hrest]

/-- The first line of a query is divided into the keyword and the text behind it. -/
theorem ink_firstQueryLine (number : Int) {line : List Char} (hline : isQueryLine line = true) :
    Reads (unsigned line) (firstQueryLine number line) := by
  obtain ⟨rest, hrest⟩ : ∃ rest, rest = (stripLeft line).drop 3 := ⟨_, rfl⟩
  obtain ⟨front, hfront⟩ : ∃ front, front = line.takeWhile isBlank ++ queryWord := ⟨_, rfl⟩
  have hsplit : line = front ++ rest := by
    rw [hfront, hrest]
    exact eq_of_isQueryLine hline
  have hink : ink front = ink queryWord := by
    rw [hfront, ink_append, ink_takeWhile_isBlank, nil_append]
  -- the word is not blank, so that stripping the line strips the rest
  have hlast : front.getLast? = some 'L' := by
    rw [hfront, getLast?_append_of_ne_nil _ (by decide)]
    rfl
  have hstrip : stripRight line = front ++ stripRight rest := by
    have hne : front ≠ [] := by
      rintro rfl
      exact nomatch hlast
    have hL : front.getLast hne = 'L' := by
      rw [getLast?_eq_some_getLast hne] at hlast
      exact Option.some.inj hlast
    rw [hsplit, stripRight_append hne (by rw [hL]; decide)]
  unfold Reads firstQueryLine
  dsimp only
  rw [← hrest]
  cases h : continued? (stripRight rest) with
  | some kept =>
    have hne : stripRight rest ≠ [] := by
      intro hnil
      rw [hnil] at h
      exact nomatch h
    have hunsigned : unsigned line = front ++ kept := by
      rw [← continued?_getD, hstrip, continued?_append _ hne, h]
      rfl
    rw [textOf_token, hunsigned, ink_append, ink_append, hink]
    change ink queryWord ++ ink (stripRight kept ++ ['\n']) = _
    rw [ink_append, ink_stripRight]
    exact congrArg _ (append_nil _)
  | none =>
    have hunsigned : unsigned line = line := by
      rw [← continued?_getD, hstrip]
      by_cases hnil : stripRight rest = []
      · rw [hnil, append_nil, continued?_eq, hlast]
        rfl
      · rw [continued?_append _ hnil, h]
        rfl
    rw [hunsigned, hsplit, ink_append front, hink]
    change ink (textOf ([_] ++ [_]) ++ []) = _
    rw [append_nil, textOf_append, textOf_token, textOf_token, ink_append, ink_stripRight]

/-- **A line that is no comment goes, to the last character, into tokens or to the open text.** -/
theorem ink_line (number : Int) {text : List Char} (mode : Mode) (h : isCommentLine text = false) :
    Reads (mode.openText ++ unsigned text) (line number text mode) := by
  unfold line
  rw [h, if_neg Bool.false_ne_true]
  cases mode with
  | query => exact ink_queryLine _ _ _ _ _
  | quote => exact ink_pieceLine _ _ _
  | code =>
    dsimp only
    split
    next hquery => exact ink_firstQueryLine number hquery
    next => exact ink_pieceLine _ _ .code

/-! ### All lines -/

/-- What is open after some lines. -/
def modeAfter (number : Int) (mode : Mode) : List (List Char) → Mode
  | [] => mode
  | l :: ls => modeAfter (number + 1) (line number l mode).2 ls

/-- Lines are read from where those before them have ended. -/
theorem linesFrom_append (number : Int) (mode : Mode) (ls ls' : List (List Char)) :
    linesFrom number mode (ls ++ ls') =
      linesFrom number mode ls ++ linesFrom (number + ls.length)
        (modeAfter number mode ls) ls' := by
  induction ls generalizing number mode with
  | nil =>
    rw [nil_append, length_nil, Int.natCast_zero, Int.add_zero]
    rfl
  | cons l ls ih =>
    have hnumber : number + 1 + ls.length = number + (l :: ls).length := by
      rw [length_cons]
      omega
    rw [cons_append, linesFrom_cons, ih, linesFrom_cons, append_assoc, hnumber]
    rfl

/-- Is an asterisk the first character of the line that is not blank? -/
def isStarred (line : List Char) : Bool :=
  (strip line).head? == some '*'

theorem isCommentLine_eq_isStarred (line : List Char) : isCommentLine line = isStarred line := by
  unfold isCommentLine isStarred
  cases strip line with
  | nil => rfl
  | cons => simp

theorem filter_isComment_of_codeToken {ts : List Token} (h : ∀ t ∈ ts, CodeToken t) :
    ts.filter Token.isComment = [] ∧ (ts.filter fun t => !t.isComment) = ts := by
  refine ⟨filter_eq_nil_iff.mpr fun t ht => ?_, filter_eq_self.mpr fun t ht => ?_⟩
  · rw [(h t ht).isComment]
    exact Bool.false_ne_true
  · rw [(h t ht).isComment]
    rfl

/-- The comments are the starred lines. -/
theorem comments_linesFrom (number : Int) (mode : Mode) (ls : List (List Char)) :
    ((linesFrom number mode ls).filter Token.isComment).map (·.text) =
      (ls.filter isStarred).map fun l => some (String.ofList l) := by
  induction ls generalizing number mode with
  | nil => rfl
  | cons l ls ih =>
    rw [linesFrom_cons, filter_append, map_append, ih, filter_cons, ← isCommentLine_eq_isStarred]
    cases hl : isCommentLine l with
    | true =>
      rw [line_of_comment hl, filter_cons, isComment_commentToken, if_pos rfl, if_pos rfl]
      rfl
    | false =>
      rw [(filter_isComment_of_codeToken (codeToken_line hl)).1, if_neg Bool.false_ne_true]
      rfl

/-- The other tokens and what is open at the end have the ink of all other lines and of what was
open before. -/
theorem ink_linesFrom (number : Int) (mode : Mode) (ls : List (List Char)) :
    ink (textOf ((linesFrom number mode ls).filter fun t => !t.isComment) ++
      (modeAfter number mode ls).openText) =
      ink (mode.openText ++ (ls.filter fun l => !isStarred l).flatMap unsigned) := by
  induction ls generalizing number mode with
  | nil => exact congrArg ink (append_nil _).symm
  | cons l ls ih =>
    have hrest := ih (number + 1) (line number l mode).2
    rw [linesFrom_cons, filter_append, textOf_append, append_assoc, ink_append]
    change _ ++ ink (_ ++ (modeAfter (number + 1) (line number l mode).2 ls).openText) = _
    rw [hrest, filter_cons, ← isCommentLine_eq_isStarred]
    cases hl : isCommentLine l with
    | true =>
      -- a comment leaves what is open as it is
      rw [line_of_comment hl, filter_cons, isComment_commentToken]
      rfl
    | false =>
      have hline : Reads (mode.openText ++ unsigned l) (line number l mode) :=
        ink_line number mode hl
      unfold Reads at hline
      rw [(filter_isComment_of_codeToken (codeToken_line hl)).2, ink_append, ← append_assoc,
        ← ink_append, hline]
      simp [ink_append]

/-! ### What is held and what is open -/

namespace Holding

variable {s : Holding} {mode : Mode}

/-- What is held is what is open: the mark of the one that is open is set, and all of it is
there. -/
def Shows (s : Holding) : Mode → Prop
  | .code => s.inQuery = false ∧ s.inString = false
  | .query text line column => s.inQuery = true ∧ s.inString = false ∧ s.queryText = some text ∧
      s.queryLine = some line ∧ s.queryColumn = some column
  | .quote text line column => s.inQuery = false ∧ s.inString = true ∧ s.stringText = some text ∧
      s.stringLine = some line ∧ s.stringColumn = some column

/-- A run has not stopped: it has given the tokens of a result, and holds what is open then. -/
def Gives (run : Except Fault (List Token × Holding)) (result : List Token × Mode) : Prop :=
  ∃ s, run = .ok (result.1, s) ∧ s.Shows result.2

theorem gives_piece (h : s.Shows mode) (number column : Int) (p : List Char) :
    Gives (s.piece number column p) (Lexer.piece number column mode p) := by
  obtain ⟨inQuery, queryText, queryLine, queryColumn, inString, stringText, stringLine,
    stringColumn⟩ := s
  cases mode with
  | code =>
    -- nothing is open, and a piece may open a string or a query
    obtain ⟨rfl, rfl⟩ := h
    unfold piece Lexer.piece
    rw [if_neg Bool.false_ne_true, if_neg Bool.false_ne_true]
    by_cases hquote : p = ['\'']
    · rw [if_pos hquote, if_pos hquote]
      exact ⟨_, rfl, rfl, rfl, rfl, rfl, rfl⟩
    · rw [if_neg hquote, if_neg hquote]
      split
      · exact ⟨_, rfl, rfl, rfl, rfl, rfl, rfl⟩
      · exact ⟨_, rfl, rfl, rfl⟩
  | query =>
    obtain ⟨rfl, rfl, rfl, rfl, rfl⟩ := h
    exact ⟨_, rfl, rfl, rfl, rfl, rfl, rfl⟩
  | quote =>
    obtain ⟨rfl, rfl, rfl, rfl, rfl⟩ := h
    unfold Lexer.piece
    dsimp only
    by_cases hquote : p = ['\'']
    · rw [if_pos hquote]
      exact ⟨_, if_pos hquote, rfl, rfl⟩
    · rw [if_neg hquote]
      exact ⟨_, if_neg hquote, rfl, rfl, rfl, rfl, rfl⟩

theorem gives_pieces (number : Int) (ps : List (List Char)) (column : Int) (h : s.Shows mode) :
    Gives (s.pieces number column ps) (Lexer.pieces number column mode ps) := by
  induction ps generalizing s mode column with
  | nil => exact ⟨s, rfl, h⟩
  | cons p ps ih =>
    obtain ⟨s₁, hfirst, h₁⟩ := gives_piece h number column p
    obtain ⟨s₂, hrest, h₂⟩ := ih (column + p.length) h₁
    refine ⟨s₂, ?_, h₂⟩
    rw [pieces, hfirst]
    change (s₁.pieces number (column + p.length) ps >>= _) = _
    rw [hrest]
    rfl

theorem gives_endLine (h : s.Shows mode) (number : Int) (continued : Bool) :
    Gives (s.endLine number continued) (endOfLine number continued mode) := by
  obtain ⟨inQuery, queryText, queryLine, queryColumn, inString, stringText, stringLine,
    stringColumn⟩ := s
  cases mode with
  | code =>
    obtain ⟨rfl, rfl⟩ := h
    exact ⟨_, rfl, rfl, rfl⟩
  | query =>
    obtain ⟨rfl, rfl, rfl, rfl, rfl⟩ := h
    cases continued with
    | true => exact ⟨_, rfl, rfl, rfl, rfl, rfl, rfl⟩
    | false => exact ⟨_, rfl, rfl, rfl⟩
  | quote =>
    obtain ⟨rfl, rfl, rfl, rfl, rfl⟩ := h
    exact ⟨_, rfl, rfl, rfl, rfl, rfl, rfl⟩

theorem gives_continueQuery {text : List Char} {beginLine column : Int}
    (h : s.Shows (.query text beginLine column)) (number : Int) (line : List Char) :
    Gives (s.continueQuery number line) (Lexer.queryLine number line text beginLine column) := by
  obtain ⟨inQuery, queryText, queryLine, queryColumn, inString, stringText, stringLine,
    stringColumn⟩ := s
  obtain ⟨rfl, rfl, rfl, rfl, rfl⟩ := h
  unfold continueQuery Lexer.queryLine
  dsimp only
  cases continued? (stripRight line) with
  | some =>
    refine ⟨_, rfl, rfl, rfl, ?_, rfl, rfl⟩
    rw [← append_assoc]
  | none => exact ⟨_, rfl, rfl, rfl⟩

/-- Behind blanks, the word of a query is found where the blanks end. -/
theorem find_queryWord {line : List Char} (h : isQueryLine line = true) :
    find queryWord line = line.length - (stripLeft line).length ∧
      line.drop (find queryWord line + 3).toNat = (stripLeft line).drop 3 := by
  induction line with
  | nil => cases h
  | cons c cs ih =>
    unfold isQueryLine at h ih
    by_cases hc : isBlank c = true
    · have hstrip : stripLeft (c :: cs) = stripLeft cs := dropWhile_cons_of_pos hc
      -- the first letter of the word is not blank
      have hword : queryWord.isPrefixOf (c :: cs) = false := by
        refine Bool.eq_false_iff.mpr fun hstart => ?_
        obtain ⟨rfl, -⟩ := cons_prefix_cons.mp (List.isPrefixOf_iff_prefix.mp hstart)
        exact absurd hc (by decide)
      rw [hstrip] at h ⊢
      obtain ⟨hfind, hdrop⟩ := ih h
      have hle : (stripLeft cs).length ≤ cs.length := (dropWhile_sublist _).length_le
      have hlater : find queryWord (c :: cs) = find queryWord cs + 1 := by
        rw [find, hword, if_neg Bool.false_ne_true]
        exact if_neg (by omega)
      have hnat : (find queryWord cs + 1 + 3).toNat = (find queryWord cs + 3).toNat + 1 := by omega
      rw [hlater, hnat, drop_succ_cons, hdrop, length_cons]
      exact ⟨by omega, rfl⟩
    · have hstrip : stripLeft (c :: cs) = c :: cs := dropWhile_cons_of_neg hc
      rw [hstrip] at h ⊢
      rw [find, if_pos h]
      exact ⟨(Int.sub_self _).symm, rfl⟩

theorem gives_startQuery (h : s.Shows .code) (number : Int) {line : List Char}
    (hline : isQueryLine line = true) :
    Gives (.ok (s.startQuery number line)) (firstQueryLine number line) := by
  obtain ⟨hfind, hdrop⟩ := find_queryWord hline
  unfold startQuery firstQueryLine
  dsimp only
  rw [hdrop, hfind]
  cases continued? (stripRight ((stripLeft line).drop 3)) with
  | some => exact ⟨_, rfl, rfl, h.2, rfl, rfl, rfl⟩
  | none => exact ⟨_, rfl, rfl, h.2⟩

theorem gives_pieceLine (h : s.Shows mode) (number : Int) (line : List Char) :
    Gives (s.pieceLine number line) (Lexer.pieceLine number line mode) := by
  unfold pieceLine Lexer.pieceLine
  dsimp only
  rw [split_eq_cut]
  obtain ⟨s₁, hpieces, h₁⟩ :=
    gives_pieces number (cut separators ((continued? (stripRight line)).getD line)) 1 h
  obtain ⟨s₂, hend, h₂⟩ := gives_endLine h₁ number (continued? (stripRight line)).isSome
  refine ⟨s₂, ?_, h₂⟩
  change (s.pieces number 1 _ >>= _) = _
  rw [hpieces]
  change (s₁.endLine number _ >>= _) = _
  rw [hend]
  rfl

/-- **A line is read without a stop**, and what is held then is what is open. -/
theorem gives_line (h : s.Shows mode) (number : Int) (text : List Char) :
    Gives (s.line number text) (Lexer.line number text mode) := by
  unfold line Lexer.line
  cases isCommentLine text with
  | true => exact ⟨s, rfl, h⟩
  | false =>
    rw [if_neg Bool.false_ne_true, if_neg Bool.false_ne_true]
    cases mode with
    | query =>
      rw [h.1, if_pos rfl]
      exact gives_continueQuery h number text
    | quote =>
      rw [h.1, h.2.1, Bool.not_true, Bool.and_false, if_neg Bool.false_ne_true,
        if_neg Bool.false_ne_true]
      exact gives_pieceLine h number text
    | code =>
      rw [h.1, h.2, Bool.not_false, Bool.and_true, if_neg Bool.false_ne_true]
      split
      next hquery => exact gives_startQuery h number hquery
      next => exact gives_pieceLine h number text

theorem linesFrom_eq (h : s.Shows mode) (number : Int) (ls : List (List Char)) :
    s.linesFrom number ls = .ok (Lexer.linesFrom number mode ls) := by
  induction ls generalizing s mode number with
  | nil => rfl
  | cons l ls ih =>
    obtain ⟨s₁, hline, h₁⟩ := gives_line h number l
    rw [linesFrom, hline]
    change (s₁.linesFrom (number + 1) ls >>= _) = _
    rw [ih h₁]
    rfl

end Holding

/-- **The lexer never stops**: no text that it goes on with and no place that it measures from is
missing, whatever the lines are. -/
theorem scanLines_eq_lexLines (lines : List String) : scanLines lines = .ok (lexLines lines) :=
  Holding.linesFrom_eq (show Holding.Shows {} .code from ⟨rfl, rfl⟩) 1 _

theorem scan_eq_lex (source : String) : scan source = .ok (lex source) :=
  Holding.linesFrom_eq (show Holding.Shows {} .code from ⟨rfl, rfl⟩) 1 _

/-! ### Every character -/

/-- **The lexer loses nothing.** Its comments are the starred lines as they are, in order. The other
tokens, together with the text that is open at the end, are all other lines without their signs of
continuation, if blanks do not count. -/
theorem lex_lossless (source : String) :
    ((lex source).filter Token.isComment).map (·.text) =
        ((lines source.toList).filter isStarred).map (fun l => some (String.ofList l)) ∧
      ink (textOf ((lex source).filter fun t => !t.isComment) ++
        (modeAfter 1 .code (lines source.toList)).openText) =
        ink (((lines source.toList).filter fun l => !isStarred l).flatMap unsigned) :=
  ⟨comments_linesFrom _ _ _, ink_linesFrom _ _ _⟩

-- a string that is not closed gives no token
example :
    textOf (lex "MOVE 'AB") = "MOVE ".toList ∧
      (modeAfter 1 .code (lines "MOVE 'AB".toList)).openText = "'AB".toList := by
  decide +kernel

end Lexer

end EztScan
