import EztScan.Token.Lexer
import EztScan.Tree.Basic
import EztScan.Proofs.Words
import Mathlib.Data.List.DropRight

/-!
# What the lexer gives

A comment line gives one token, which holds the line as it is. All other tokens are code
(`CodeToken`): they have a text, and none of them is a comment.
-/

namespace EztScan.Lexer

open List

variable {number : Int} {text : List Char} {mode : Mode} {t : Token}

/-- The kinds of the tokens that are no comments. -/
def codeKinds : List Kind :=
  [.keyword, .generic, .string, .sqlText]

/-- A token with a text that is no comment. Case does not count in it. -/
structure CodeToken (t : Token) : Prop where
  text : ∃ text, t.text = some text
  kind : ∃ k ∈ codeKinds, t.kind = some k
  caseless : t.caseSensitive = false

/-- A token of code that ends on a line. If it is a keyword, it begins there too. -/
structure LineToken (number : Int) (t : Token) : Prop extends CodeToken t where
  keyword : t.kind = some .keyword → t.span.beginLine = some number

/-! ### Lines give code or a comment -/

section Line

variable {kind : Kind} {line column endLine endColumn : Int}

theorem lineToken_here (h : kind ∈ codeKinds) :
    LineToken number (token kind text number column endLine endColumn) :=
  ⟨⟨⟨_, rfl⟩, ⟨kind, h, rfl⟩, rfl⟩, fun _ => rfl⟩

theorem lineToken_before (h : kind = .string ∨ kind = .sqlText) :
    LineToken number (token kind text line column endLine endColumn) := by
  have hmem : kind ∈ codeKinds := by rcases h with rfl | rfl <;> simp [codeKinds]
  have hne : kind ≠ .keyword := by rcases h with rfl | rfl <;> decide
  exact ⟨⟨⟨_, rfl⟩, ⟨kind, hmem, rfl⟩, rfl⟩, fun hkind => absurd (Option.some.inj hkind) hne⟩

end Line

theorem lineToken_piece (number column : Int) (mode : Mode) (p : List Char) :
    ∀ t ∈ (piece number column mode p).1, LineToken number t := by
  unfold piece
  split
  next =>
    split
    · exact forall_mem_singleton.mpr (lineToken_before (.inl rfl))
    · exact forall_mem_nil _
  next => exact forall_mem_nil _
  next =>
    split
    · exact forall_mem_nil _
    · split
      · exact forall_mem_singleton.mpr (lineToken_here (by simp [codeKinds]))
      · exact forall_mem_singleton.mpr (lineToken_here (by simp [codeKinds]))

theorem lineToken_pieces (number column : Int) (mode : Mode) (ps : List (List Char)) :
    ∀ t ∈ (pieces number column mode ps).1, LineToken number t := by
  induction ps generalizing column mode with
  | nil => exact forall_mem_nil _
  | cons p ps ih => exact forall_mem_append.mpr ⟨lineToken_piece number column mode p, ih _ _⟩

theorem lineToken_endOfLine (number : Int) (continued : Bool) (mode : Mode) :
    ∀ t ∈ (endOfLine number continued mode).1, LineToken number t := by
  unfold endOfLine
  split
  next =>
    split
    · exact forall_mem_nil _
    · exact forall_mem_singleton.mpr (lineToken_before (.inr rfl))
  next => exact forall_mem_nil _

theorem lineToken_pieceLine (number : Int) (text : List Char) (mode : Mode) :
    ∀ t ∈ (pieceLine number text mode).1, LineToken number t :=
  forall_mem_append.mpr ⟨lineToken_pieces _ _ _ _, lineToken_endOfLine _ _ _⟩

theorem lineToken_queryLine (number : Int) (line text : List Char) (beginLine column : Int) :
    ∀ t ∈ (queryLine number line text beginLine column).1, LineToken number t := by
  unfold queryLine
  dsimp only
  split
  next => exact forall_mem_nil _
  next => exact forall_mem_singleton.mpr (lineToken_before (.inr rfl))

theorem lineToken_firstQueryLine (number : Int) (line : List Char) :
    ∀ t ∈ (firstQueryLine number line).1, LineToken number t := by
  unfold firstQueryLine
  dsimp only
  split
  next => exact forall_mem_singleton.mpr (lineToken_here (by simp [codeKinds]))
  next =>
    refine forall_mem_cons.mpr ⟨lineToken_here (by simp [codeKinds]), ?_⟩
    exact forall_mem_singleton.mpr (lineToken_before (.inr rfl))

/-- **A line that is no comment gives code**, and keywords that begin on it. -/
theorem lineToken_line (h : isCommentLine text = false) :
    ∀ t ∈ (line number text mode).1, LineToken number t := by
  unfold line
  rw [h, if_neg Bool.false_ne_true]
  -- inside of a query, where one may begin, and inside of a text
  split
  next => exact lineToken_queryLine _ _ _ _ _
  next =>
    split
    · exact lineToken_firstQueryLine _ _
    · exact lineToken_pieceLine _ _ _
  next => exact lineToken_pieceLine _ _ _

theorem codeToken_line (h : isCommentLine text = false) :
    ∀ t ∈ (line number text mode).1, CodeToken t :=
  fun t ht => (lineToken_line h t ht).toCodeToken

theorem line_of_comment (h : isCommentLine text = true) :
    line number text mode = ([commentToken number text], mode) := by
  unfold line
  rw [h, if_pos rfl]

/-! ### What tokens of a source are -/

/-- A token of a source: code, or a comment line as it is. -/
def Lexed (t : Token) : Prop :=
  CodeToken t ∨ ∃ number text, isCommentLine text = true ∧ t = commentToken number text

theorem linesFrom_cons (number : Int) (mode : Mode) (l : List Char) (ls : List (List Char)) :
    linesFrom number mode (l :: ls) =
      (line number l mode).1 ++ linesFrom (number + 1) (line number l mode).2 ls :=
  rfl

theorem lexed_linesFrom (number : Int) (mode : Mode) (ls : List (List Char)) :
    ∀ t ∈ linesFrom number mode ls, Lexed t := by
  induction ls generalizing number mode with
  | nil => exact forall_mem_nil _
  | cons l ls ih =>
    rw [linesFrom_cons]
    refine forall_mem_append.mpr ⟨?_, ih _ _⟩
    cases hl : isCommentLine l with
    | false => exact fun t ht => .inl (codeToken_line hl t ht)
    | true =>
      rw [line_of_comment hl]
      exact fun t ht => .inr ⟨number, l, hl, mem_singleton.mp ht⟩

theorem lexed_lex (source : String) : ∀ t ∈ lex source, Lexed t :=
  lexed_linesFrom _ _ _

theorem Lexed.caseless (h : Lexed t) : t.caseSensitive = false := by
  rcases h with hcode | ⟨number, text, -, rfl⟩
  · exact hcode.caseless
  · rfl

theorem CodeToken.isComment (h : CodeToken t) : t.isComment = false := by
  obtain ⟨k, hk, hkind⟩ := h.kind
  unfold Token.isComment Token.isA
  rw [hkind]
  simp only [codeKinds, mem_cons, not_mem_nil, or_false] at hk
  rcases hk with rfl | rfl | rfl | rfl <;> decide

theorem isComment_commentToken (number : Int) (text : List Char) :
    (commentToken number text).isComment = true :=
  Kind.isA_self .comment

/-- A token of code without text is blank: no mark comes from a source. -/
theorem CodeToken.isBlank (h : CodeToken t) {text : String} (ht : t.text = some text) :
    t.isBlank = (text.isEmpty || Text.isBlankText text) := by
  obtain ⟨k, hk, hkind⟩ := h.kind
  unfold Token.isBlank
  rw [hkind, ht]
  simp only [codeKinds, mem_cons, not_mem_nil, or_false] at hk
  rcases hk with rfl | rfl | rfl | rfl <;>
    simp [Kind.keyword, Kind.generic, Kind.string, Kind.sqlText, Kind.whitespace,
      Kind.increaseIndent, Kind.decreaseIndent]

theorem mem_strip {c : Char} {cs : List Char} (h : c ∈ Text.strip cs) : c ∈ cs := by
  unfold Text.strip Text.stripRight Text.stripLeft at h
  have h₁ := mem_reverse.mp h
  have h₂ := mem_reverse.mp ((dropWhile_sublist _).mem h₁)
  exact (dropWhile_sublist _).mem h₂

theorem mem_of_isCommentLine (h : isCommentLine text = true) : '*' ∈ text := by
  unfold isCommentLine at h
  split at h
  next c rest hs =>
    obtain rfl := beq_iff_eq.mp h
    exact mem_strip (hs ▸ mem_cons_self)
  next => exact nomatch h

end EztScan.Lexer
