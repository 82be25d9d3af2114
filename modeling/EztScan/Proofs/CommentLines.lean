import EztScan.Proofs.Lossless
import EztScan.Proofs.Outline

/-!
# Comment lines

A comment line gives one token more, and leaves all other tokens what they are, apart from their
places (`lex_insert_comment`). The token is no code, so that it is passed over almost everywhere.
There are two exceptions.

* A program takes its first token in, whatever it is, and does not look at it again. A comment line
on top takes the place of a word that begins something: `FILE A` alone is read as a program without
a file.
* A field or a procedure may begin with any token. If a letter for the place of a field, or `PROC`,
is the first word of a line, the comment in front of it is the beginning of a section that is not
there without it.

Apart from these, comment lines do not change what is recognised (`outlines_insert_comment`). In the
second case, a blank in front of that word is such a beginning, too, so that the comment makes no
difference.
-/

namespace EztScan

open Element List Lexer

variable {ts : List Token} {e : Element} {es : List Element} {n : Node} {t : Token}
variable {ts' : List Token} {source source' : String} {before after : List (List Char)}
  {text : List Char} {state : Option (Section × Nat)} {u t' : Token}

/-! ### Tokens of a source with one more line -/

namespace Lexer

/-- Modes that differ in the places where their texts began. -/
inductive Mode.Alike : Mode → Mode → Prop
  | code : Alike .code .code
  | query (text : List Char) (line column line' column' : Int) :
      Alike (.query text line column) (.query text line' column')
  | quote (text : List Char) (line column line' column' : Int) :
      Alike (.quote text line column) (.quote text line' column')

/-- Tokens that differ in their places, and the modes behind them. -/
structure ReadAlike (r r' : List Token × Mode) : Prop where
  tokens : Forall₂ Element.Alike (r.1.map .token) (r'.1.map .token)
  mode : r.2.Alike r'.2

theorem alike_token (kind : Kind) (text : List Char)
    (line column endLine endColumn line' column' endLine' endColumn' : Int) :
    Element.Alike (.token (token kind text line column endLine endColumn))
      (.token (token kind text line' column' endLine' endColumn')) :=
  .token rfl rfl rfl

variable {mode mode' : Mode} (number number' column column' : Int)

theorem readAlike_piece (h : mode.Alike mode') (p : List Char) :
    ReadAlike (piece number column mode p) (piece number' column' mode' p) := by
  cases h with
  | code =>
    unfold piece
    by_cases hquote : p = ['\'']
    · rw [if_pos hquote, if_pos hquote]
      exact ⟨.nil, .quote ..⟩
    rw [if_neg hquote, if_neg hquote]
    by_cases hquery : p = queryWord
    · rw [if_pos hquery, if_pos hquery]
      exact ⟨.cons (alike_token ..) .nil, .query ..⟩
    · rw [if_neg hquery, if_neg hquery]
      exact ⟨.cons (alike_token ..) .nil, .code⟩
  | query => exact ⟨.nil, .query ..⟩
  | quote =>
    unfold piece
    dsimp only
    by_cases hquote : p = ['\'']
    · rw [if_pos hquote, if_pos hquote]
      exact ⟨.cons (alike_token ..) .nil, .code⟩
    · rw [if_neg hquote, if_neg hquote]
      exact ⟨.nil, .quote ..⟩

theorem ReadAlike.append {r r' : List Token × Mode}
    (hts : Forall₂ Element.Alike (ts.map .token) (ts'.map .token)) (h : ReadAlike r r') :
    ReadAlike (ts ++ r.1, r.2) (ts' ++ r'.1, r'.2) := by
  refine ⟨?_, h.mode⟩
  rw [map_append, map_append]
  exact rel_append hts h.tokens

theorem readAlike_pieces (h : mode.Alike mode') (ps : List (List Char)) :
    ReadAlike (pieces number column mode ps) (pieces number' column' mode' ps) := by
  induction ps generalizing mode mode' column column' with
  | nil => exact ⟨.nil, h⟩
  | cons p ps ih =>
    have hpiece := readAlike_piece number number' column column' h p
    exact .append hpiece.tokens (ih _ _ hpiece.mode)

theorem readAlike_endOfLine (h : mode.Alike mode') (continued : Bool) :
    ReadAlike (endOfLine number continued mode) (endOfLine number' continued mode') := by
  cases h with
  | code => exact ⟨.nil, .code⟩
  | quote => exact ⟨.nil, .quote ..⟩
  | query =>
    unfold endOfLine
    cases continued with
    | true => exact ⟨.nil, .query ..⟩
    | false => exact ⟨.cons (alike_token ..) .nil, .code⟩

theorem readAlike_pieceLine (h : mode.Alike mode') (text : List Char) :
    ReadAlike (pieceLine number text mode) (pieceLine number' text mode') := by
  have hpieces := readAlike_pieces number number' 1 1 h
    (Text.cut separators ((continued? (Text.stripRight text)).getD text))
  exact .append hpieces.tokens (readAlike_endOfLine number number' hpieces.mode _)

theorem readAlike_queryLine (text opened : List Char) (beginLine beginLine' : Int) :
    ReadAlike (queryLine number text opened beginLine column)
      (queryLine number' text opened beginLine' column') := by
  unfold queryLine
  dsimp only
  cases continued? (Text.stripRight text) with
  | some => exact ⟨.nil, .query ..⟩
  | none => exact ⟨.cons (alike_token ..) .nil, .code⟩

theorem readAlike_firstQueryLine (text : List Char) :
    ReadAlike (firstQueryLine number text) (firstQueryLine number' text) := by
  unfold firstQueryLine
  dsimp only
  cases continued? (Text.stripRight ((Text.stripLeft text).drop 3)) with
  | some => exact ⟨.cons (alike_token ..) .nil, .query ..⟩
  | none => exact ⟨.cons (alike_token ..) (.cons (alike_token ..) .nil), .code⟩

/-- What a line gives does not depend on its number, apart from places. -/
theorem readAlike_line (h : mode.Alike mode') (text : List Char) :
    ReadAlike (line number text mode) (line number' text mode') := by
  unfold line
  cases hcomment : isCommentLine text with
  | true => exact ⟨.cons (alike_token ..) .nil, h⟩
  | false =>
    rw [if_neg Bool.false_ne_true, if_neg Bool.false_ne_true]
    cases h with
    | query => exact readAlike_queryLine ..
    | quote => exact readAlike_pieceLine _ _ (.quote ..) text
    | code =>
      cases hquery : isQueryLine text with
      | true => exact readAlike_firstQueryLine ..
      | false => exact readAlike_pieceLine _ _ .code text

theorem alike_linesFrom (h : mode.Alike mode') (ls : List (List Char)) :
    Forall₂ Element.Alike ((linesFrom number mode ls).map .token)
      ((linesFrom number' mode' ls).map .token) := by
  induction ls generalizing number number' mode mode' with
  | nil => exact .nil
  | cons l ls ih =>
    have hline := readAlike_line number number' h l
    rw [linesFrom_cons, linesFrom_cons, map_append, map_append]
    exact rel_append hline.tokens (ih _ _ hline.mode)

theorem Mode.Alike.refl (mode : Mode) : mode.Alike mode := by
  cases mode with
  | code => exact .code
  | query => exact .query ..
  | quote => exact .quote ..

/-- **A comment line gives one token more.** -/
theorem lex_insert_comment (hlines : Text.lines source.toList = before ++ after)
    (hlines' : Text.lines source'.toList = before ++ text :: after)
    (hcomment : isCommentLine text = true) :
    ∃ front back back', lex source = front ++ back ∧
      lex source' = front ++ commentToken (1 + before.length) text :: back' ∧
      Forall₂ Element.Alike (back.map .token) (back'.map .token) := by
  -- what is open behind the lines in front is still open behind the comment
  obtain ⟨mode, hmode⟩ : ∃ mode, mode = modeAfter 1 .code before := ⟨_, rfl⟩
  refine ⟨linesFrom 1 .code before, linesFrom (1 + before.length) mode after,
    linesFrom (1 + before.length + 1) mode after,
    ?_, ?_, alike_linesFrom _ _ (.refl mode) after⟩
  · unfold lex
    rw [hlines, linesFrom_append, hmode]
  · unfold lex
    rw [hlines', linesFrom_append, linesFrom_cons, line_of_comment hcomment, hmode]
    rfl

end Lexer

/-! ### Sections of a source with one more comment -/

namespace Language

/-- An open section is given out first, and it still begins with what it began with. -/
theorem divide_eq_part (s : Section) (k : Nat) (es : List Element) :
    ∃ s' rest, divide (some (s, k)) es = .part s' :: rest ∧ s'.first = s.first := by
  induction es generalizing s k with
  | nil => exact ⟨s, [], rfl, rfl⟩
  | cons e es ih =>
    cases k with
    | succ => exact ih (s.unfold [e]) _
    | zero =>
      cases hclose : closes s.rule e with
      | true => exact ⟨_, _, divide_close hclose, rfl⟩
      | false =>
        cases hsection : sectionAt e (code es) with
        | some => exact ⟨_, _, divide_interrupt hclose hsection, rfl⟩
        | none =>
          rw [divide_extend hclose hsection]
          exact ih (s.extend [e]) 0

/-- The section that is open in a state. -/
def openPieces (state : Option (Section × Nat)) : List Piece :=
  state.toList.map fun p => .part p.1

/-- A section begins, and the open one, if any, is given out. -/
theorem divide_start (hready : ∀ s k, state = some (s, k) → k = 0)
    (hopen : ∀ s k, state = some (s, k) → closes s.rule e = false) {r : Rule} {k : Nat}
    (h : sectionAt e (code es) = some (r, k)) :
    divide state (e :: es) = openPieces state ++ divide (some (.start r e, k)) es := by
  cases state with
  | none => exact divide_begin h
  | some p =>
    obtain ⟨s, k₀⟩ := p
    obtain rfl := hready s k₀ rfl
    exact divide_interrupt (hopen s 0 rfl) h

theorem Idle.of_alike {e' : Element} (h : Alike e e') (he : Idle e) : Idle e' := by
  obtain ⟨hcode, hword⟩ := he
  refine ⟨h.isCode ▸ hcode, ?_⟩
  rintro ⟨text, htext, hchars⟩
  exact hword ⟨text, h.lowerText.trans htext, hchars⟩

/-- Any blank or comment begins what another one would begin there. -/
theorem sectionAt_of_idle (h : Idle e) (es : List Element) : sectionAt e es = openerAt es := by
  rw [sectionAt_eq, keywordRule_of_not_isWord h.2, Option.none_or]

/-- **A comment more does not change the pieces**, unless it is the beginning of a section with code
right behind it. -/
theorem divide_insert {state' : Option (Section × Nat)}
    (hstate : StateLike Alike (fun _ _ => True) state state') {c : Element} (hc : Idle c)
    {es' : List Element} (hes : Forall₂ Alike es es')
    (hidle : ∀ x ∈ es, x.isCode = false → ¬ x.IsWord)
    (hblank : ∀ s, .part s ∈ divide state' (c :: es') → s.first = c → ∀ x, es'.head? = some x →
      x.isCode = false) :
    Forall₂ (Piece.Like Alike fun _ _ => True) (divide state es) (divide state' (c :: es')) := by
  have hlawful : ∀ s k, state' = some (s, k) → s.rule ∈ sectionRules := by
    rintro s k rfl
    cases hstate with
    | busy h => exact h.rule ▸ h.mem
  have hcongr : ∀ {next next' es es'}, StateLike Alike (fun _ _ => True) next next' →
      Forall₂ Alike es es' →
      Forall₂ (Piece.Like Alike fun _ _ => True) (divide next es) (divide next' es') :=
    divide_congr (fun _ _ h => h) fun _ _ _ => trivial
  by_cases hskip : (∃ s k, state' = some (s, k + 1)) ∨ sectionAt c (code es') = none
  · rw [divide_skip hlawful hc hskip]
    exact hcongr hstate hes
  obtain ⟨hready, hsome⟩ := not_or.mp hskip
  obtain ⟨⟨r, k⟩, hsection⟩ := Option.ne_none_iff_exists'.mp hsome
  have hready' : ∀ s k, state' = some (s, k) → k = 0 := by
    rintro s k hk
    cases k with
    | zero => rfl
    | succ k => exact absurd ⟨s, k, hk⟩ hready
  -- the comment begins a section, which is given out
  have hdivide' := divide_start hready' (fun s k hk => closes_of_not_isWord (hlawful s k hk) hc.2)
    hsection
  obtain ⟨s', rest, hpart, hfirst⟩ := divide_eq_part (.start r c) k es'
  have hmem : .part s' ∈ divide state' (c :: es') := by
    rw [hdivide', hpart]
    exact mem_append_right _ mem_cons_self
  rw [sectionAt_of_idle hc] at hsection
  cases hes with
  | nil => cases hsection
  | @cons x x' es es' hx hes =>
    -- what comes next is a blank or a comment, which begins the same section without the comment
    have hx'code : x'.isCode = false := hblank s' hmem hfirst x' rfl
    have hxidle : Idle x :=
      ⟨hx.isCode.trans hx'code, hidle x mem_cons_self (hx.isCode.trans hx'code)⟩
    have hx'idle : Idle x' := hxidle.of_alike hx
    rw [code_cons_of_not_isCode hx'code] at hsection
    have hsection' : sectionAt x (code es) = some (r, k) := by
      rw [sectionAt_congr hx (forall₂_code (fun _ _ h => h) hes), sectionAt_of_idle hx'idle,
        hsection]
    have hr := mem_of_sectionAt hsection'
    obtain ⟨k, rfl⟩ : ∃ j, k = j + 1 := by
      rcases openerAt_cases hsection with ⟨-, rfl, -⟩ | ⟨-, rfl, -⟩ | ⟨-, rfl, -⟩
      · exact ⟨0, rfl⟩
      · exact ⟨1, rfl⟩
      · exact ⟨0, rfl⟩
    have hlaw : ∀ s j, some (Section.start r c, k + 1) = some (s, j) → s.rule ∈ sectionRules := by
      rintro s j ⟨⟩
      exact hr
    rw [hdivide', divide_skip hlaw hx'idle (.inl ⟨_, k, rfl⟩)]
    -- the two sections have the same code so far, which is none
    have hstart : (Section.start r x).Like Alike (fun _ _ => True) (.start r c) := by
      refine ⟨hr, rfl, trivial, ?_, .nil, .nil⟩
      change Forall₂ Alike (code [x]) (code [c])
      rw [code_cons_of_not_isCode hxidle.1, code_cons_of_not_isCode hc.1]
      exact .nil
    cases hstate with
    | idle =>
      rw [divide_begin hsection']
      exact hcongr (.busy hstart) hes
    | @busy s s₀ j h =>
      obtain rfl := hready' s₀ j rfl
      rw [divide_interrupt (closes_of_not_isWord h.mem hxidle.2) hsection']
      exact .cons (.part h) (hcongr (.busy hstart) hes)

/-! ### Where nodes begin -/

/-- The first token of a node, behind the comments in front of it. -/
def begin? (n : Node) : Option Token :=
  (leavesOfList (n.children.drop n.head.sections.comments.toNat)).head?

/-- The tokens that nodes begin with, the program apart. -/
def beginnings (es : List Element) : List Token :=
  ((allNodes es).filter fun n => n.head.kind.name != "Program").filterMap begin?

theorem begin_of_laid {comments opening body closing : List Element}
    (h : n.Laid comments opening body closing) (hopening : opening.head? = some (.token t)) :
    begin? n = some t := by
  obtain ⟨rest, rfl⟩ := head?_eq_some_iff.mp hopening
  unfold begin?
  rw [h.sections, Int.toNat_natCast, h.children, append_assoc, append_assoc, drop_left, cons_append,
    leavesOfList_cons, leaves_token]
  rfl

theorem mem_allNodes (h : n.toElement ∈ es) :
    n ∈ allNodes es ∧ allNodes n.children ⊆ allNodes es := by
  obtain ⟨before, after, rfl⟩ := append_of_mem h
  rw [allNodes_append, allNodes_cons, allNodes_node]
  refine ⟨mem_append_right _ mem_cons_self, fun m hm => ?_⟩
  exact mem_append_right _ (mem_append_left _ (mem_cons_of_mem n hm))

/-- The element that a part of a program begins with, if it is a node. -/
def Item.begin? : Item Piece → Option Element
  | .word p => p.part?.map Section.first
  | .term _ ps => ps.head?.map Piece.face

/-- What the parts of a program begin with are beginnings of nodes. -/
theorem mem_beginnings (hread : ProgramRead t ts n) (hn : n.toElement ∈ es) {item : Item Piece}
    (hitem : item ∈ programItems ts) (hbegin : item.begin? = some (.token u)) :
    u ∈ beginnings es := by
  have hkinds : (sectionRules ++ termRules).all (fun r => r.kind.name != "Program") = true := by
    decide
  obtain ⟨body, hlaid, hbody⟩ := hread.parts
  obtain ⟨x, hx, hshown⟩ := exists_mem_of_forall₂ hbody hitem
  have hchild : x ∈ n.children := by
    rw [hlaid.children, append_nil]
    exact mem_append_right _ (mem_of_mem_filter hx)
  -- no rule for sections or terms makes a program
  have hmem : ∀ {m : Node} {r : Rule}, m.toElement ∈ n.children → m.head.kind = r.kind →
      r ∈ sectionRules ++ termRules → begin? m = some u → u ∈ beginnings es := by
    intro m r hm hkind hr hu
    have hall : m ∈ allNodes es := (mem_allNodes hn).2 (mem_allNodes hm).1
    refine mem_filterMap.mpr ⟨m, mem_filter.mpr ⟨hall, ?_⟩, hu⟩
    rw [hkind]
    exact all_eq_true.mp hkinds r hr
  cases hshown with
  | word => cases hbegin
  | part hs =>
    obtain ⟨comments, opening, inner, closing, hl, -, hfirst, -⟩ := hs.parts
    have hu : opening.head? = some (.token u) := hfirst.trans hbegin
    exact hmem hchild hs.kind (mem_append_left _ hs.rule) (begin_of_laid hl hu)
  | @term r words m hterm =>
    obtain ⟨comments, opening, hl, -, hfirst⟩ := hterm.parts
    have hwords : words.head? = some (.token u) := by
      change ((words.map Piece.loose).head?).map Piece.face = _ at hbegin
      rw [head?_map, Option.map_map] at hbegin
      exact Option.map_id'.symm.trans hbegin
    exact hmem hchild hterm.kind (mem_append_right _ hterm.rule)
      (begin_of_laid hl (hfirst.trans hwords))

/-- A section that is found is a beginning of a node. -/
theorem mem_beginnings_of_divide (hread : ProgramRead t ts n) (hn : n.toElement ∈ es) {s : Section}
    (hs : .part s ∈ divide none (ts.map .token)) (hfirst : s.first = .token u) :
    u ∈ beginnings es := by
  have hparts : s ∈ (programItems ts).filterMap Item.part? := by
    unfold programItems
    rw [parts_itemsFrom, drop_zero]
    exact mem_filterMap.mpr ⟨.part s, hs, rfl⟩
  obtain ⟨item, hitem, hpart⟩ := mem_filterMap.mp hparts
  refine mem_beginnings hread hn hitem ?_
  cases item with
  | word p =>
    change p.part?.map Section.first = _
    rw [show p.part? = some s from hpart, Option.map_some, hfirst]
  | term => cases hpart

/-- What is recognised of a program are its parts. -/
theorem outlinesOf_program
    (helements : (parse source).elements = n.toElement :: (trailingComments ts).map .token)
    (hread : ProgramRead t ts n) :
    outlinesOf (parse source).elements =
      [.node "Program" (.error .operandMissing) [] (outlinesOf n.children)] := by
  have hkind : n.head.kind.name = "Program" := by
    rw [hread.kind]
    rfl
  have hname : declaredName n = .error .operandMissing := by
    unfold declaredName
    rw [hkind]
    rfl
  have hend : outlinesOf ((trailingComments ts).map .token) = [] :=
    outlinesOf_of_tokens fun _ => exists_token_of_mem_map
  rw [helements, outlinesOf, hend, append_nil]
  unfold Node.toElement
  rw [outlines, hkind, hread.operands]
  exact congrArg (fun name => [Outline.node _ name _ _]) hname

/-! ### A comment line more -/

theorem alike_refl_list (es : List Element) : Forall₂ Alike es es :=
  forall₂_same.mpr fun e _ => .refl e

theorem alike_face {F : Element → Element → Prop} {p q : Piece} (h : p.Like Alike F q) :
    Alike p.face q.face := by
  cases h with
  | loose h => exact h
  | part => exact .node ..

theorem outlinesOf_children (h : ProgramRead t ts n) :
    ∃ es, outlinesOf n.children = outlinesOf es ∧ Forall₂ PartShown es (programItems ts) := by
  obtain ⟨body, hlaid, hbody⟩ := h.parts
  have hopening : outlinesOf [.token t] = [] :=
    outlinesOf_of_tokens fun x hx => ⟨t, mem_singleton.mp hx⟩
  refine ⟨code body, ?_, hbody⟩
  rw [hlaid.children, append_nil, nil_append, outlinesOf_append, hopening, outlinesOf_code,
    nil_append]

/-- Programs that are divided alike have the same outline. -/
theorem outlinesOf_children_congr {n' : Node} (h : ProgramRead t ts n) (h' : ProgramRead t' ts' n')
    (hpieces : Forall₂ (Piece.Like Alike fun _ _ => True) (divide none (ts.map .token))
      (divide none (ts'.map .token))) :
    outlinesOf n.children = outlinesOf n'.children := by
  obtain ⟨es, hes, hshown⟩ := outlinesOf_children h
  obtain ⟨es', hes', hshown'⟩ := outlinesOf_children h'
  rw [hes, hes']
  exact outlinesOf_parts_congr (itemsFrom_congr (fun _ _ h => alike_face h) hpieces 0)
    hshown hshown'

section Insert

variable {a c : Token} {front back back' : List Token} {n n' : Node} {elements : List Element}

/-- A comment behind the first token. -/
theorem outlinesOf_insert_inside (hread : ProgramRead a (front ++ back) n)
    (hread' : ProgramRead a (front ++ c :: back') n') (hn' : n'.toElement ∈ elements)
    (hc : Idle (.token c)) (hback : Forall₂ Alike (back.map .token) (back'.map .token))
    (hidle : ∀ x ∈ back.map Element.token, x.isCode = false → ¬ x.IsWord)
    (hblank : c ∈ beginnings elements → ∀ x, back'.head? = some x → x.isCode = false) :
    outlinesOf n.children = outlinesOf n'.children := by
  refine outlinesOf_children_congr hread hread' ?_
  have hcode : Forall₂ Alike (code (back.map .token)) (code ((c :: back').map .token)) := by
    rw [map_cons, code_cons_of_not_isCode hc.1]
    exact forall₂_code (fun _ _ h => h) hback
  -- up to the comment, both sources are divided in the same way
  obtain ⟨pieces, pieces', next, next', hpieces, hnext, hdivide, hdivide'⟩ :=
    divide_append (fun _ _ h => h) (fun _ _ _ => trivial) .idle
      (alike_refl_list (front.map .token)) hcode
  rw [map_append, map_append, hdivide, hdivide']
  refine rel_append hpieces (divide_insert hnext hc hback hidle ?_)
  intro s hs hfirst x hx
  rw [head?_map] at hx
  obtain ⟨t, ht, rfl⟩ := Option.map_eq_some_iff.mp hx
  refine hblank (mem_beginnings_of_divide hread' hn' ?_ hfirst) t ht
  rw [map_append, hdivide']
  exact mem_append_right _ hs

/-- A comment in front of the first token. -/
theorem outlinesOf_insert_first (hread : ProgramRead t back n)
    (hread' : ProgramRead c (t' :: back') n') (hn' : n'.toElement ∈ elements)
    (hback : Forall₂ Alike (back.map .token) (back'.map .token)) (ht' : t' ∉ beginnings elements) :
    outlinesOf n.children = outlinesOf n'.children := by
  have hpieces : Forall₂ (Piece.Like Alike fun _ _ => True) (divide none (back.map .token))
      (divide none (back'.map .token)) :=
    divide_congr (fun _ _ h => h) (fun _ _ _ => trivial) .idle hback
  cases hsection : sectionAt (.token t') (code (back'.map .token)) with
  | some found =>
    -- the token begins a section
    obtain ⟨r, k⟩ := found
    obtain ⟨s, rest, hpart, hfirst⟩ := divide_eq_part (.start r (.token t')) k (back'.map .token)
    refine absurd (mem_beginnings_of_divide hread' hn' ?_ hfirst) ht'
    rw [map_cons, divide_begin hsection, hpart]
    exact mem_cons_self
  | none =>
    have hdivide := divide_loose hsection
    cases hcode : (Element.token t').isCode with
    | false =>
      refine outlinesOf_children_congr hread hread' ?_
      rw [map_cons, hdivide, code_cons_of_not_isCode hcode]
      exact hpieces
    | true =>
      obtain ⟨es, hes, hshown⟩ := outlinesOf_children hread
      obtain ⟨es', hes', hshown'⟩ := outlinesOf_children hread'
      rw [code_cons_of_isCode hcode] at hdivide
      have hitems' : programItems (t' :: back') =
          itemsFrom Piece.face 0 (.loose (.token t') :: divide none (back'.map .token)) :=
            congrArg _ hdivide
      cases hterm : termAt (.token t') ((divide none (back'.map .token)).map Piece.face) with
      | some found =>
        -- the token begins a term
        obtain ⟨r, k⟩ := found
        have hitem : .term r (.loose (.token t') ::
            (divide none (back'.map .token)).take k) ∈ programItems (t' :: back') := by
          rw [hitems', itemsFrom_term hterm]
          exact mem_cons_self
        exact absurd (mem_beginnings hread' hn' hitem rfl) ht'
      | none =>
        rw [hitems', itemsFrom_word hterm] at hshown'
        obtain ⟨e, rest, he, hrest, rfl⟩ := forall₂_cons_right_iff.mp hshown'
        cases he with
        | word =>
          rw [hes, hes', outlinesOf, outlines_token, nil_append]
          exact outlinesOf_parts_congr (itemsFrom_congr (fun _ _ h => alike_face h) hpieces 0)
            hshown hrest

end Insert

theorem idle_commentToken (number : Int) (h : isCommentLine text = true) :
    Idle (.token (commentToken number text)) := by
  have hcode : (commentToken number text).isCode = false := by
    unfold Token.isCode
    rw [isComment_commentToken, Bool.not_true, Bool.and_false]
  exact ⟨hcode, Lexer.Lexed.not_isWord (.inr ⟨number, text, h, rfl⟩) hcode⟩

theorem mem_zip_tail {α : Type} (front back : List α) (a b : α) :
    (a, b) ∈ (front ++ a :: b :: back).zip (front ++ a :: b :: back).tail := by
  induction front with
  | nil => exact mem_cons_self
  | cons x front ih =>
    cases front with
    | nil | cons => exact mem_cons_of_mem _ ih

/-- **Comment lines do not change what is recognised**, with two exceptions: a comment that becomes
the beginning of a section has to have a blank or a comment behind it, and one at the very beginning
has to have a token behind it that is not the beginning of anything. -/
theorem outlines_insert_comment {source source' : String} {before after : List (List Char)}
    {text : List Char} (hlines : Text.lines source.toList = before ++ after)
    (hlines' : Text.lines source'.toList = before ++ text :: after)
    (hcomment : Lexer.isStarred text = true) (hfirst : ¬ "MACRO".toList <+: source.toList)
    (hmark : ¬ "BEGIN_PROGRAM(".toList <+: source.toList) (hfault : (parse source).fault = none)
    (hfirst' : ¬ "MACRO".toList <+: source'.toList)
    (hmark' : ¬ "BEGIN_PROGRAM(".toList <+: source'.toList) (hfault' : (parse source').fault = none)
    (hblank : Lexer.commentToken (1 + before.length) text ∈ beginnings (parse source').elements →
      ∀ p ∈ (Lexer.lex source').zip (Lexer.lex source').tail,
      p.1 = Lexer.commentToken (1 + before.length) text → p.2.isCode = false)
    (htop : (Lexer.lex source').head? = some (Lexer.commentToken (1 + before.length) text) →
      ∃ t, (Lexer.lex source').tail.head? = some t ∧ t ∉ beginnings (parse source').elements) :
    outlinesOf (parse source').elements = outlinesOf (parse source).elements := by
  rw [← isCommentLine_eq_isStarred] at hcomment
  obtain ⟨front, back, back', hlex, hlex', hback⟩ := lex_insert_comment hlines hlines' hcomment
  have hc := idle_commentToken (1 + before.length) hcomment
  generalize commentToken (1 + before.length) text = c at hblank htop hlex' hc
  cases front with
  | nil =>
    -- the comment takes the place of the first token
    obtain ⟨t', ht', hbegins⟩ := htop (by rw [hlex']; rfl)
    obtain ⟨back', rfl⟩ : ∃ rest, back' = t' :: rest := by
      rw [hlex'] at ht'
      exact head?_eq_some_iff.mp ht'
    rw [map_cons] at hback
    obtain ⟨e, es, -, hes, hmap⟩ := forall₂_cons_right_iff.mp hback
    obtain ⟨t, back, rfl, rfl, rfl⟩ := map_eq_cons_iff.mp hmap
    obtain ⟨n, helements, hread⟩ := program_of_parse hfirst hmark hfault hlex
    obtain ⟨n', helements', hread'⟩ := program_of_parse hfirst' hmark' hfault' hlex'
    rw [outlinesOf_program helements hread, outlinesOf_program helements' hread']
    rw [outlinesOf_insert_first hread hread' (helements' ▸ mem_cons_self) hes hbegins]
  | cons a front =>
    obtain ⟨n, helements, hread⟩ := program_of_parse hfirst hmark hfault hlex
    obtain ⟨n', helements', hread'⟩ := program_of_parse hfirst' hmark' hfault' hlex'
    have hidle : ∀ x ∈ back.map Element.token, x.isCode = false → ¬ x.IsWord := by
      intro x hx
      obtain ⟨t, ht, rfl⟩ := mem_map.mp hx
      have hmem : t ∈ lex source := hlex ▸ mem_append_right (a :: front) ht
      exact (lexed_linesFrom _ _ _ t hmem).not_isWord
    rw [outlinesOf_program helements hread, outlinesOf_program helements' hread']
    rw [outlinesOf_insert_inside hread hread' (helements' ▸ mem_cons_self) hc hback hidle ?_]
    intro hbegins x hx
    obtain ⟨back', rfl⟩ := head?_eq_some_iff.mp hx
    exact hblank hbegins (c, x) (hlex' ▸ mem_zip_tail (a :: front) back' c x) rfl

/-- A field that begins with a blank begins with the comment if there is one in front of the blank,
and is the same field. -/
theorem outlines_insert_comment_before_blank :
    ((parse "A\n W").fault = none ∧ (parse "A\n*\n W").fault = none ∧
        beginnings (parse "A\n*\n W").elements = [Lexer.commentToken 2 ['*']]) ∧
      outlinesOf (parse "A\n*\n W").elements = outlinesOf (parse "A\n W").elements := by
  have hfault : (parse "A\n W").fault = none := by decide +kernel
  have hfault' : (parse "A\n*\n W").fault = none := by decide +kernel
  have hlines : Text.lines "A\n W".toList = [['A']] ++ [[' ', 'W']] := by decide
  have hlines' : Text.lines "A\n*\n W".toList = [['A']] ++ ['*'] :: [[' ', 'W']] := by decide
  have htop : (lex "A\n*\n W").head? ≠ some (commentToken 2 ['*']) := by decide +kernel
  refine ⟨⟨hfault, hfault', by decide +kernel⟩, ?_⟩
  exact outlines_insert_comment hlines hlines' (by decide) (by decide)
    (by decide) hfault (by decide) (by decide) hfault'
    (fun _ => by decide +kernel) fun h => absurd h htop

/-- A comment on top of a source makes its first statement visible, and one in front of a letter for
the place of a field makes a field of it. -/
theorem outlines_ne_of_comment :
    (Text.lines "FILE A".toList = [] ++ ["FILE A".toList] ∧
        Text.lines "*\nFILE A".toList = [] ++ "*".toList :: ["FILE A".toList] ∧
        (parse "FILE A").fault = none ∧ (parse "*\nFILE A").fault = none ∧
        outlinesOf (parse "*\nFILE A").elements ≠ outlinesOf (parse "FILE A").elements) ∧
      (Text.lines "A\nW".toList = ["A".toList] ++ ["W".toList] ∧
        Text.lines "A\n*\nW".toList = ["A".toList] ++ "*".toList :: ["W".toList] ∧
        (parse "A\nW").fault = none ∧ (parse "A\n*\nW").fault = none ∧
        outlinesOf (parse "A\n*\nW").elements ≠ outlinesOf (parse "A\nW").elements) := by
  -- the outlines differ in the number of parts of the program
  have hcount : ∀ {source source' : String},
      (outlinesOf (parse source).elements).map (·.parts.length) ≠
        (outlinesOf (parse source').elements).map (·.parts.length) →
      outlinesOf (parse source).elements ≠ outlinesOf (parse source').elements :=
    fun hne h => hne (congrArg (List.map (·.parts.length)) h)
  exact ⟨⟨by decide, by decide, by decide +kernel, by decide +kernel, hcount (by decide +kernel)⟩,
    by decide, by decide, by decide +kernel, by decide +kernel, hcount (by decide +kernel)⟩

end Language

end EztScan
