import EztScan.Symbol.Metric
import EztScan.Proofs.Positions
import Mathlib.Data.Finset.Card

/-!
# Where the line changes

How often the line changes along the tokens of a source (`SyntaxTree.lineChanges`), said by what
stands in the source. A comment has its line for itself, whatever is open around it
(`apart_linesFrom`), so that the line changes once for each comment. Along the other tokens it
changes once for each line on which one of them begins, since they begin in order
(`lineChanges_of_ascending`). What remains are the changes back: text that is open when comments
come makes a token behind them that begins on a line in front of them. If this line has been counted
already, it is counted once more (`resumptions`).

`lineChanges_of_ordered` adds these numbers up, and `resumptions_eq_zero_iff` tells when there are
no changes back.
-/

namespace EztScan

open List

variable {ts : List Token} {t : Token} {number : Int} {ls : List (List Char)} {last : Option Int}
  {behind : Bool}

/-! ### Tokens and lines -/

/-- The first line is known, and the second one is the same or a later one. -/
def NoLater (a b : Option Int) : Prop :=
  ∃ m n, a = some m ∧ b = some n ∧ m ≤ n

theorem NoLater.antisymm {a b : Option Int} (hab : NoLater a b) (hba : NoLater b a) : a = b := by
  obtain ⟨m, n, rfl, rfl, hmn⟩ := hab
  obtain ⟨n', m', hn, hm, hnm⟩ := hba
  obtain rfl := Option.some.inj hn
  obtain rfl := Option.some.inj hm
  rw [le_antisymm hmn hnm]

namespace Token

/-- The tokens begin on different lines if one of them is a comment. -/
def Apart (s t : Token) : Prop :=
  s.isComment = true ∨ t.isComment = true → s.span.beginLine ≠ t.span.beginLine

/-- The first token begins on the line of the second one or before. -/
def BeginsNoLater (s t : Token) : Prop :=
  NoLater s.span.beginLine t.span.beginLine

/-- Tokens as they come in a source: comments have lines for themselves, and all else begins in
order. -/
structure Ordered (ts : List Token) : Prop where
  apart : ts.Pairwise Apart
  ascending : (ts.filter fun t => !t.isComment).Pairwise BeginsNoLater
  positive : ∀ t ∈ ts, NoLater (some 1) t.span.beginLine

theorem Ordered.sublist {us : List Token} (h : Ordered us) (hts : ts.Sublist us) : Ordered ts where
  apart := h.apart.sublist hts
  ascending := h.ascending.sublist (hts.filter _)
  positive t ht := h.positive t (hts.subset ht)

/-- The line that counting starts from comes before all others. -/
theorem Ordered.far (h : Ordered ts) (ht : t ∈ ts) :
    NoLater (some (-1)) t.span.beginLine ∧ t.span.beginLine ≠ some (-1) := by
  obtain ⟨m, n, hm, hn, hle⟩ := h.positive t ht
  obtain rfl := Option.some.inj hm
  refine ⟨⟨-1, n, rfl, hn, by omega⟩, fun hline => ?_⟩
  obtain rfl := Option.some.inj (hn.symm.trans hline)
  omega

/-- The lines on which tokens begin, comments apart. -/
def startLines (ts : List Token) : Finset (Option Int) :=
  ((ts.filter fun t => !t.isComment).map (·.span.beginLine)).toFinset

end Token

namespace Lexer

open Text
variable {mode : Mode}

/-! ### Comments have lines for themselves -/

/-- Comments begin on the lines that they are read from. -/
theorem le_of_mem_linesFrom (ht : t ∈ linesFrom number mode ls) (hcomment : t.isComment = true) :
    NoLater (some number) t.span.beginLine := by
  obtain ⟨k, l, mode', -, hmem, -⟩ := exists_line_of_mem ht
  cases hl : isCommentLine l with
  | true =>
    rw [line_of_comment hl] at hmem
    obtain rfl := mem_singleton.mp hmem
    exact ⟨number, number + k, rfl, rfl, by omega⟩
  | false =>
    -- any other line has no comments at all
    rw [(codeToken_line hl t hmem).isComment] at hcomment
    cases hcomment

/-- A token begins on a line that has been read, or where text was open before. -/
theorem begins_of_mem_linesFrom (ht : t ∈ linesFrom number mode ls) :
    NoLater (some number) t.span.beginLine ∨ t.start ∈ mode.starts := by
  cases hcomment : t.isComment with
  | true => exact .inl (le_of_mem_linesFrom ht hcomment)
  | false =>
    obtain ⟨new, -, hnew, hstarts⟩ := starts_linesFrom number mode ls
    have hmem : t.start ∈ mode.starts ++ new := by
      rw [← hstarts]
      refine mem_append_left _ (mem_map_of_mem (mem_filter.mpr ⟨ht, ?_⟩))
      rw [hcomment]
      rfl
    refine (mem_append.mp hmem).symm.imp_left fun hstart => ?_
    obtain ⟨n, c, hn, hle⟩ := hnew _ hstart
    exact ⟨number, n, rfl, (Prod.mk.inj hn).1, hle⟩

theorem Mode.OpenBefore.lt_of_mem (h : mode.OpenBefore number) {p : Start} (hp : p ∈ mode.starts) :
    ∃ n, p.1 = some n ∧ n < number := by
  cases mode with
  | code => exact absurd hp not_mem_nil
  | query text n | quote text n =>
    obtain rfl := mem_singleton.mp hp
    exact ⟨n, rfl, h⟩

/-- What is read behind a comment does not begin on its line. -/
theorem ne_of_mem_linesFrom (hmode : mode.OpenBefore number)
    (ht : t ∈ linesFrom (number + 1) mode ls) : some number ≠ t.span.beginLine := by
  intro hline
  rcases begins_of_mem_linesFrom ht with ⟨m, n, hm, hn, hle⟩ | hstart
  · obtain rfl := Option.some.inj hm
    rw [← hline] at hn
    obtain rfl := Option.some.inj hn
    omega
  · -- text that was open in front of the comment began there
    obtain ⟨n, hn, hlt⟩ := hmode.lt_of_mem hstart
    obtain rfl := Option.some.inj (hline.trans hn)
    exact absurd hlt (lt_irrefl number)

/-- **A comment has its line for itself.** -/
theorem apart_linesFrom (hmode : mode.OpenBefore number) (ls : List (List Char)) :
    (linesFrom number mode ls).Pairwise Token.Apart := by
  induction ls generalizing number mode with
  | nil => exact Pairwise.nil
  | cons l ls ih =>
    obtain ⟨hends, hopen⟩ := endsOn_line l hmode
    have hrest := ih hopen
    rw [linesFrom_cons]
    cases hl : isCommentLine l with
    | true =>
      rw [line_of_comment hl] at hrest ⊢
      refine pairwise_append.mpr ⟨pairwise_singleton _ _, hrest, ?_⟩
      intro s hs t ht _
      obtain rfl := mem_singleton.mp hs
      exact ne_of_mem_linesFrom hmode ht
    | false =>
      have hcode : ∀ t ∈ (line number l mode).1, CodeToken t := codeToken_line hl
      refine pairwise_append.mpr ⟨?_, hrest, ?_⟩
      · refine pairwise_of_forall_mem_list fun s hs t ht hcomment => ?_
        rw [(hcode s hs).isComment, (hcode t ht).isComment] at hcomment
        simp at hcomment
      · -- the line ends its tokens, and comments behind it begin further down
        intro s hs t ht hcomment hline
        rw [(hcode s hs).isComment] at hcomment
        have hbelow := le_of_mem_linesFrom ht (hcomment.resolve_left Bool.false_ne_true)
        obtain ⟨m, n, hm, hn, hle⟩ := hbelow
        obtain rfl := Option.some.inj hm
        obtain ⟨first, hfirst, hs', -⟩ := (hends s hs).first
        obtain rfl := Option.some.inj (hs'.symm.trans (hline.trans hn))
        omega

/-- **The tokens of a source come in order.** -/
theorem ordered_lex (source : String) : Token.Ordered (lex source) where
  apart := by
    have hcode : Mode.code.OpenBefore 1 := trivial
    exact apart_linesFrom hcode _
  ascending := by
    obtain ⟨new, hordered, -, hstarts⟩ := starts_linesFrom 1 .code (lines source.toList)
    rw [starts, Mode.starts, nil_append] at hstarts
    rw [← hstarts] at hordered
    refine (pairwise_map.mp (pairwise_append.mp hordered).1).imp ?_
    rintro s t ⟨line, column, line', column', hs, ht, hbefore⟩
    exact ⟨line, line', (Prod.mk.inj hs).1, (Prod.mk.inj ht).1, by omega⟩
  positive := by
    intro t ht
    refine (begins_of_mem_linesFrom ht).resolve_right ?_
    exact not_mem_nil

end Lexer

namespace SyntaxTree

open Token
variable {before line : Option Int}

/-! ### Counting lines -/

theorem lineChanges_cons (before : Option Int) (t : Token) (ts : List Token) :
    lineChanges before (t :: ts) =
      (if t.span.beginLine = before then 0 else 1) + lineChanges t.span.beginLine ts :=
  rfl

/-- **In ascending order the line changes once for each line**, the one apart on which the tokens in
front began. -/
theorem lineChanges_of_ascending (hbefore : ∀ t ∈ ts, NoLater before t.span.beginLine)
    (hts : ts.Pairwise BeginsNoLater) :
    lineChanges before ts = (((ts.map (·.span.beginLine)).toFinset.erase before).card : Int) := by
  induction ts generalizing before with
  | nil => rfl
  | cons t ts ih =>
    obtain ⟨ht, hlater⟩ := forall_mem_cons.mp hbefore
    obtain ⟨hfirst, hrest⟩ := pairwise_cons.mp hts
    rw [lineChanges_cons, ih hfirst hrest, map_cons, toFinset_cons]
    by_cases hsame : t.span.beginLine = before
    · rw [if_pos hsame, hsame, Finset.erase_insert_eq_erase, zero_add]
    · -- the line before does not come again, since all lines behind it are later
      have hgone : before ∉ insert t.span.beginLine (ts.map (·.span.beginLine)).toFinset := by
        intro hmem
        rcases Finset.mem_insert.mp hmem with hmem | hmem
        · exact hsame hmem.symm
        · obtain ⟨u, hu, hline⟩ := mem_map.mp (mem_toFinset.mp hmem)
          exact hsame (NoLater.antisymm (hline ▸ hfirst u hu) ht)
      rw [if_neg hsame, Finset.erase_eq_of_notMem hgone,
        ← Finset.card_erase_add_one (Finset.mem_insert_self _ _),
        Finset.erase_insert_eq_erase, Nat.cast_succ, add_comm]

/-- How often, behind comments, a token begins on the line on which the last token in front of them
began. `last` is the line of the last token that is no comment, and `behind` tells whether comments
have come since. -/
def resumptions (last : Option Int) (behind : Bool) : List Token → Nat
  | [] => 0
  | t :: ts =>
    if t.isComment then resumptions last true ts
    else (if behind ∧ t.span.beginLine = last then 1 else 0) + resumptions t.span.beginLine false ts

theorem resumptions_comment (ht : t.isComment = true) (ts : List Token) :
    resumptions last behind (t :: ts) = resumptions last true ts := by
  rw [resumptions, if_pos ht]

theorem resumptions_other (ht : t.isComment = false) (ts : List Token) :
    resumptions last behind (t :: ts) =
      (if behind ∧ t.span.beginLine = last then 1 else 0) +
        resumptions t.span.beginLine false ts := by
  rw [resumptions, if_neg (Bool.eq_false_iff.mp ht)]

/-- Comments and changes back on top of the changes among the other tokens. Behind a comment,
`before` is a line on which nothing else begins; otherwise it is the line of the last token that was
no comment. -/
theorem lineChanges_of_apart (hts : ts.Pairwise Apart)
    (hcomment : behind = true → ∀ t ∈ ts, t.span.beginLine ≠ before)
    (hother : behind = false → before = last ∧ ∀ t ∈ ts, t.isComment = true →
      t.span.beginLine ≠ before) :
    lineChanges before ts = lineChanges last (ts.filter fun t => !t.isComment) +
      (ts.filter isComment).length +
      resumptions last behind ts := by
  induction ts generalizing before last behind with
  | nil => rfl
  | cons t ts ih =>
    obtain ⟨hfirst, hrest⟩ := pairwise_cons.mp hts
    rw [lineChanges_cons]
    cases ht : t.isComment with
    | true =>
      have hne : t.span.beginLine ≠ before := by
        cases behind with
        | true => exact hcomment rfl t mem_cons_self
        | false => exact (hother rfl).2 t mem_cons_self ht
      have hcount := @ih last true t.span.beginLine hrest
        (fun _ u hu => (hfirst u hu (.inl ht)).symm) fun h => by cases h
      rw [if_neg hne, hcount, resumptions_comment ht, filter_cons_of_neg (by rw [ht]; decide),
        filter_cons_of_pos ht, length_cons, Nat.cast_succ]
      omega
    | false =>
      have hcount := @ih t.span.beginLine false t.span.beginLine hrest
        (fun h => by cases h) fun _ => ⟨rfl, fun u hu hu' => (hfirst u hu (.inr hu')).symm⟩
      rw [hcount, resumptions_other ht, filter_cons_of_pos (by rw [ht]; rfl),
        filter_cons_of_neg (Bool.eq_false_iff.mp ht), lineChanges_cons, Nat.cast_add]
      -- the token is counted by the change to its line, or else by the change back to it
      cases behind with
      | true =>
        rw [if_neg (hcomment rfl t mem_cons_self)]
        by_cases hsame : t.span.beginLine = last
        · rw [if_pos hsame, if_pos ⟨rfl, hsame⟩]
          omega
        · rw [if_neg hsame, if_neg fun h => hsame h.2]
          omega
      | false =>
        rw [(hother rfl).1, if_neg fun h : false = true ∧ _ => Bool.false_ne_true h.1]
        omega

/-- **How often the line changes in a source**: once for each line on which code begins, once for
each comment, and once for each line that is gone back to behind comments. -/
theorem lineChanges_of_ordered (h : Ordered ts) : lineChanges (some (-1)) ts =
      (startLines ts).card + (ts.filter isComment).length + resumptions (some (-1)) false ts := by
  have hall : lineChanges (some (-1)) (ts.filter fun t => !t.isComment) =
      ((startLines ts).card : Int) := by
    rw [lineChanges_of_ascending (fun t ht => (h.far (mem_of_mem_filter ht)).1) h.ascending]
    -- no token begins on the line that the count starts from
    refine congrArg (fun s : Finset (Option Int) => (s.card : Int))
      (Finset.erase_eq_of_notMem fun hmem => ?_)
    obtain ⟨t, ht, hline⟩ := mem_map.mp (mem_toFinset.mp hmem)
    exact (h.far (mem_of_mem_filter ht)).2 hline
  rw [← hall]
  refine lineChanges_of_apart h.apart (fun hfalse => ?_) fun _ => ⟨rfl, fun t ht _ => (h.far ht).2⟩
  cases hfalse

/-! ### No change back -/

/-- No comment comes between tokens that begin on one line. -/
def Unbroken (ts : List Token) : Prop :=
  ∀ before s between t after, ts = before ++ s :: (between ++ t :: after) → s.isComment = false →
    t.isComment = false →
    s.span.beginLine = t.span.beginLine → ∀ c ∈ between, c.isComment = false

/-- If a token begins on the line, no comment has come before it. -/
def Clear (line : Option Int) (behind : Bool) (ts : List Token) : Prop :=
  ∀ before t after, ts = before ++ t :: after → t.isComment = false → t.span.beginLine = line →
    behind = false ∧ ∀ c ∈ before, c.isComment = false

theorem unbroken_cons :
    Unbroken (t :: ts) ↔ (t.isComment = false → Clear t.span.beginLine false ts) ∧ Unbroken ts := by
  constructor
  · intro h
    refine ⟨fun ht before u after hsplit hu hline => ⟨rfl, ?_⟩,
      fun before s between u after hsplit => ?_⟩
    · exact h [] t before u after (by rw [hsplit]; rfl) ht hu hline.symm
    · exact h (t :: before) s between u after (by rw [hsplit]; rfl)
  · rintro ⟨hclear, hrest⟩ before s between u after hsplit hs hu hline
    cases before with
    | nil =>
      obtain ⟨rfl, rfl⟩ := List.cons.inj hsplit
      exact (hclear hs between u after rfl hu hline.symm).2
    | cons b before => exact hrest before s between u after (List.cons.inj hsplit).2 hs hu hline

theorem clear_comment (ht : t.isComment = true) :
    Clear line behind (t :: ts) ↔ Clear line true ts := by
  constructor
  · intro h before u after hsplit hu hline
    obtain ⟨-, hcomments⟩ := h (t :: before) u after (by rw [hsplit]; rfl) hu hline
    rw [hcomments t mem_cons_self] at ht
    cases ht
  · intro h before u after hsplit hu hline
    cases before with
    | nil =>
      obtain ⟨rfl, -⟩ := List.cons.inj hsplit
      rw [hu] at ht
      cases ht
    | cons b before =>
      obtain ⟨hfalse, -⟩ := h before u after (List.cons.inj hsplit).2 hu hline
      cases hfalse

theorem clear_other (ht : t.isComment = false) :
    Clear line behind (t :: ts) ↔ (t.span.beginLine = line → behind = false) ∧
      Clear line behind ts := by
  constructor
  · intro h
    refine ⟨fun hline => (h [] t ts rfl ht hline).1, fun before u after hsplit hu hline => ?_⟩
    obtain ⟨hbehind, hcomments⟩ := h (t :: before) u after (by rw [hsplit]; rfl) hu hline
    exact ⟨hbehind, fun c hc => hcomments c (mem_cons_of_mem t hc)⟩
  · rintro ⟨hfirst, hrest⟩ before u after hsplit hu hline
    cases before with
    | nil =>
      obtain ⟨rfl, -⟩ := List.cons.inj hsplit
      exact ⟨hfirst hline, forall_mem_nil _⟩
    | cons b before =>
      obtain ⟨rfl, hsplit'⟩ := List.cons.inj hsplit
      obtain ⟨hbehind, hcomments⟩ := hrest before u after hsplit' hu hline
      exact ⟨hbehind, forall_mem_cons.mpr ⟨ht, hcomments⟩⟩

/-- **When no line is gone back to.** -/
theorem resumptions_eq_zero_iff
    (hlast : ∀ t ∈ ts, t.isComment = false → NoLater last t.span.beginLine)
    (hts : (ts.filter fun t => !t.isComment).Pairwise BeginsNoLater) :
    resumptions last behind ts = 0 ↔ Unbroken ts ∧ Clear last behind ts := by
  induction ts generalizing last behind with
  | nil =>
    refine iff_of_true rfl ⟨fun before s between t after hsplit => ?_,
      fun before t after hsplit => ?_⟩
    · simp at hsplit
    · simp at hsplit
  | cons t ts ih =>
    obtain ⟨hfirst, hlater⟩ := forall_mem_cons.mp hlast
    cases ht : t.isComment with
    | true =>
      rw [filter_cons_of_neg (by rw [ht]; decide)] at hts
      have hvacuous : t.isComment = false → Clear t.span.beginLine false ts := by
        intro hfalse
        rw [ht] at hfalse
        cases hfalse
      rw [resumptions_comment ht, ih hlater hts, unbroken_cons, clear_comment ht,
        and_iff_right hvacuous]
    | false =>
      rw [filter_cons_of_pos (by rw [ht]; rfl)] at hts
      obtain ⟨hnext, hrest⟩ := pairwise_cons.mp hts
      have hnext' : ∀ u ∈ ts, u.isComment = false → NoLater t.span.beginLine u.span.beginLine := by
        intro u hu hu'
        exact hnext u (mem_filter.mpr ⟨hu, by rw [hu']; rfl⟩)
      -- a token further on can begin on the last line only if this one does
      have hclear : (t.span.beginLine = last → behind = false) → Clear t.span.beginLine false ts →
          Clear last behind ts := by
        intro hhere hclear before u after hsplit hu hline
        have hmem : u ∈ ts := by
          rw [hsplit]
          exact mem_append_right _ mem_cons_self
        have hsame : t.span.beginLine = last :=
          NoLater.antisymm (hline ▸ hnext' u hmem hu) (hfirst ht)
        exact ⟨hhere hsame, (hclear before u after hsplit hu (hline.trans hsame.symm)).2⟩
      have hone : (if behind = true ∧ t.span.beginLine = last then 1 else 0) = 0 ↔
          (t.span.beginLine = last → behind = false) := by
        cases behind with
        | true => by_cases hline : t.span.beginLine = last <;> simp [hline]
        | false => simp
      rw [resumptions_other ht, Nat.add_eq_zero_iff, hone, ih hnext' hrest, unbroken_cons,
        clear_other ht]
      constructor
      · rintro ⟨hhere, hunbroken, hown⟩
        exact ⟨⟨fun _ => hown, hunbroken⟩, hhere, hclear hhere hown⟩
      · rintro ⟨⟨hown, hunbroken⟩, hhere, -⟩
        exact ⟨hhere, hunbroken, hown ht⟩

theorem resumptions_of_ordered (h : Ordered ts) :
    resumptions (some (-1)) false ts = 0 ↔ Unbroken ts := by
  rw [resumptions_eq_zero_iff (fun t ht _ => (h.far ht).1) h.ascending]
  refine and_iff_left fun before t after hsplit _ hline => ?_
  exact absurd hline (h.far (by rw [hsplit]; exact mem_append_right _ mem_cons_self)).2

end SyntaxTree

end EztScan
