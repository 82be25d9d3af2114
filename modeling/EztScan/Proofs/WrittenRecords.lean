import EztScan.Proofs.TermReadings

/-!
# What records are written from

`PUT` and `WRITE` name a file, and maybe what the record is written from, behind the word `FROM`.
Both statements have one form with `FROM` and one without (`fromForm`, `plainForm`), and each
statement that is found in a source is covered by one of them. The file is the second word in both
forms. What the record is written from is the word behind `FROM` for `PUT`; for `WRITE` it is noted
to be the file itself, whatever stands there (`operands_of_written`).
-/

namespace EztScan

open List Element

variable {text : String} {manner : List Pattern} {x : Element}
variable {r : Rule} {word : String} {xs : List Element}

/-! ### Operands that are noted -/

namespace Completion

open Lookahead

variable {n : Node} {first file : Element} {rest : List Element}

theorem noteSecond_of_code (role : Role) (hcode : n.code = first :: file :: rest) :
    noteSecond role n = (n.setOperand role file.toOperand, none) := by
  unfold noteSecond
  rw [hcode]

theorem operand?_of_operands_nil (hops : n.head.operands = []) (role : Role) :
    n.operand? role = none := by
  unfold Node.operand?
  rw [hops]
  rfl

/-- With the file alone noted, there is nothing that the record is written from. -/
theorem operands_of_setFile (hops : n.head.operands = []) :
    (n.setOperand .file file.toOperand).operand? .file = some file.toOperand ∧
      (n.setOperand .file file.toOperand).operand? .source = none := by
  rw [Node.operand?_setOperand, if_pos rfl, Node.operand?_setOperand, if_neg (by decide),
    operand?_of_operands_nil hops]
  exact ⟨rfl, rfl⟩

/-- With both noted, none is in the way of the other. -/
theorem operands_of_setSource (source : Element) :
    ((n.setOperand .file file.toOperand).setOperand .source source.toOperand).operand? .file =
      some file.toOperand ∧
      ((n.setOperand .file file.toOperand).setOperand .source source.toOperand).operand? .source =
        some source.toOperand := by
  rw [Node.operand?_setOperand, if_neg (by decide), Node.operand?_setOperand, if_pos rfl,
    Node.operand?_setOperand, if_pos rfl]
  exact ⟨rfl, rfl⟩

/-- A statement of which the fourth word is what the record is written from. -/
theorem operands_of_fileAndFourth (hops : n.head.operands = [])
    (hcode : n.code = first :: file :: rest) :
    (Completion.fileAndFourth.note n).1.operand? .file = some file.toOperand ∧
      (Completion.fileAndFourth.note n).1.operand? .source = rest[1]?.map toOperand := by
  have hcode' : (n.setOperand .file file.toOperand).code = first :: file :: rest := hcode
  unfold note
  rw [noteSecond_of_code .file hcode]
  dsimp only
  unfold noteFourth
  rw [hcode']
  -- the fourth word is the second one behind the file
  rcases rest with _ | ⟨keyword, _ | ⟨operand, rest⟩⟩
  · exact operands_of_setFile hops
  · exact operands_of_setFile hops
  · exact operands_of_setSource operand

/-- A statement of which the file is also what the record is written from, if there is a word behind
`FROM`. -/
theorem operands_of_fileAndFrom (hops : n.head.operands = [])
    (hcode : n.code = first :: file :: rest) :
    (Completion.fileAndFrom.note n).1.operand? .file = some file.toOperand ∧
      (Completion.fileAndFrom.note n).1.operand? .source =
        if (afterTarget [.word "FROM"] rest).isEmpty then none else some file.toOperand := by
  have hcode' : (n.setOperand .file file.toOperand).code = first :: file :: rest := hcode
  unfold note
  rw [noteSecond_of_code .file hcode]
  dsimp only
  unfold noteFrom
  rw [hcode']
  dsimp only
  rw [moveTo_ofList]
  cases afterTarget [.word "FROM"] rest with
  | nil => exact operands_of_setFile hops
  | cons => exact operands_of_setSource file

end Completion

/-! ### Looking for a word -/

namespace Lookahead

/-- A word of a source is looked for by its letters. -/
theorem isTarget_of_spells {t : Token} (ht : t.caseSensitive = false)
    (h : (token t).spells text = true) (word : String) :
    (token t).isTarget [.word word] = .ok (text == Text.lower word) := by
  have hlower := lowerText_of_spells h
  change t.lowerText = some text at hlower
  unfold Token.lowerText at hlower
  cases htext : t.text with
  | none =>
    rw [htext] at hlower
    cases hlower
  | some own =>
    rw [htext] at hlower
    dsimp only at hlower
    have hown : Text.lower own = text := by
      split at hlower
      · cases hlower
      · exact Option.some.inj hlower
    have hequals : t.equalsText word = .ok (text == Text.lower word) := by
      unfold Token.equalsText
      rw [ht, htext, ← hown]
      rfl
    unfold isTarget Token.hasTargetText
    dsimp only
    rw [hequals]
    cases text == Text.lower word <;> rfl

end Lookahead

/-! ### The two forms -/

namespace Language

open Element Pattern

/-- A statement that says what a record is written from. -/
def fromForm (word : String) (manner : List Pattern) : Pattern :=
  .seq (.word word :: .kind .generic :: (manner ++ [.word "FROM", .kind .generic]))

/-- A statement that does not. -/
def plainForm (word : String) : Pattern :=
  .seq [.word word, .kind .generic]

/-- The words for how a record is written. -/
def manners : Pattern :=
  .oneOf [.word "UPDATE", .word "ADD"]

/-- The statements that write records: their rules, the words that they begin with, and what may
stand before `FROM`. -/
def recordForms : List (Rule × String × List Pattern) :=
  [(put, "PUT", []), (write, "WRITE", [.maybe manners])]

theorem shape_of_mem_recordForms (h : (r, word, manner) ∈ recordForms) :
    r.shape = some (.oneOf [fromForm word manner, plainForm word]) := by
  rcases mem_cons.mp h with h | h
  · cases h
    rfl
  · cases mem_singleton.mp h
    rfl

variable {word : String} {e : Element} {es : List Element} {k : Nat}

theorem eq_of_spells {text' : String} (h : x.spells text = true) (h' : x.spells text' = true) :
    text = text' :=
  Option.some.inj ((lowerText_of_spells h).symm.trans (lowerText_of_spells h'))

theorem isSome_reads_word (h : Text.lower word = text) :
    ((Pattern.word word).reads x []).isSome = true ↔ x.spells text = true := by
  rw [reads_word h]
  cases x.spells text <;> simp

theorem isSome_reads_manners :
    (manners.reads x []).isSome = true ↔ x.spells "update" = true ∨ x.spells "add" = true := by
  unfold manners
  rw [reads_oneOf, readsOneOf, readsOneOf, readsOneOf,
    reads_word (show Text.lower "UPDATE" = "update" by decide),
    reads_word (show Text.lower "ADD" = "add" by decide)]
  cases x.spells "update" <;> cases x.spells "add" <;> simp

theorem isSome_reads_kind {k : Kind} :
    ((Pattern.kind k).reads x []).isSome = true ↔ x.isA k = true := by
  change (if x.isA k then some 0 else none).isSome = true ↔ _
  cases x.isA k <;> simp

theorem reads_plainForm : (plainForm word).reads e es = some k ↔
    ∃ file rest, es = file :: rest ∧ k = 1 ∧ ((Pattern.word word).reads e []).isSome = true ∧
      file.isA .generic = true := by
  change readsSeq _ e es = some k ↔ _
  rw [readsSeq_cons_eq_some rfl (cons_ne_nil _ _)]
  simp only [readsSeq_singleton_eq_some (p := .kind .generic) rfl, isSome_reads_kind]
  constructor
  · rintro ⟨he, file, rest, m, rfl, ⟨hfile, rfl⟩, rfl⟩
    exact ⟨file, rest, rfl, rfl, he, hfile⟩
  · rintro ⟨file, rest, rfl, rfl, he, hfile⟩
    exact ⟨he, file, rest, 0, rfl, ⟨hfile, rfl⟩, rfl⟩

/-- The word `FROM` and what is behind it. -/
theorem readsSeq_from : readsSeq [.word "FROM", .kind .generic] x xs = some k ↔
    ∃ operand rest, xs = operand :: rest ∧ k = 1 ∧ x.spells "from" = true ∧
      operand.isA .generic = true := by
  rw [← isSome_reads_word (show Text.lower "FROM" = "from" by decide)]
  exact reads_plainForm

/-- What may stand between the file and `FROM`. -/
def IsManner (manner : List Pattern) (between : List Element) : Prop :=
  between = [] ∨ manner ≠ [] ∧ ∃ x, between = [x] ∧
    (x.spells "update" = true ∨ x.spells "add" = true)

/-- Maybe a word for how the record is written, and then `FROM` and what is behind it. -/
theorem readsSeq_manner (hmanner : manner = [] ∨ manner = [.maybe manners]) :
    readsSeq (manner ++ [.word "FROM", .kind .generic]) x xs = some k ↔
      ∃ between keyword operand rest, x :: xs = between ++ keyword :: operand :: rest ∧
        k = between.length + 1 ∧
        IsManner manner between ∧ keyword.spells "from" = true ∧ operand.isA .generic = true := by
  rcases hmanner with rfl | rfl
  · rw [nil_append, readsSeq_from]
    constructor
    · rintro ⟨operand, rest, rfl, rfl, hx, hoperand⟩
      exact ⟨[], x, operand, rest, rfl, rfl, .inl rfl, hx, hoperand⟩
    · rintro ⟨between, keyword, operand, rest, hsplit, rfl, rfl | ⟨hne, -⟩, hkeyword, hoperand⟩
      · obtain ⟨rfl, rfl⟩ := List.cons.inj hsplit
        exact ⟨operand, rest, rfl, rfl, hkeyword, hoperand⟩
      · exact absurd rfl hne
  · rw [singleton_append, readsSeq_maybe_eq_some rfl (cons_ne_nil _ _), isSome_reads_manners]
    simp only [readsSeq_from]
    constructor
    · rintro (⟨hx, keyword, _, m, rfl, ⟨operand, rest, rfl, rfl, hkeyword, hoperand⟩, rfl⟩ |
        ⟨-, operand, rest, rfl, rfl, hx, hoperand⟩)
      · exact ⟨[x], keyword, operand, rest, rfl, rfl, .inr ⟨cons_ne_nil _ _, x, rfl, hx⟩, hkeyword,
          hoperand⟩
      · exact ⟨[], x, operand, rest, rfl, rfl, .inl rfl, hx, hoperand⟩
    · rintro ⟨between, keyword, operand, rest, hsplit, rfl, rfl | ⟨-, w, rfl, hw⟩, hkeyword,
        hoperand⟩
      · obtain ⟨rfl, rfl⟩ := List.cons.inj hsplit
        refine .inr ⟨?_, operand, rest, rfl, rfl, hkeyword, hoperand⟩
        -- `FROM` is no word for how a record is written
        refine Bool.eq_false_iff.mpr fun hmanner => ?_
        rcases isSome_reads_manners.mp hmanner with hx | hx
        · exact absurd (eq_of_spells hx hkeyword) (by decide)
        · exact absurd (eq_of_spells hx hkeyword) (by decide)
      · obtain ⟨rfl, rfl⟩ := List.cons.inj hsplit
        exact .inl ⟨hw, keyword, operand :: rest, 1, rfl,
          ⟨operand, rest, rfl, rfl, hkeyword, hoperand⟩, rfl⟩

theorem reads_fromForm (hmanner : manner = [] ∨ manner = [.maybe manners]) :
    (fromForm word manner).reads e es = some k ↔
      ∃ file between keyword operand rest, es = file :: (between ++ keyword :: operand :: rest) ∧
        k = between.length + 3 ∧
        ((Pattern.word word).reads e []).isSome = true ∧ file.isA .generic = true ∧
          IsManner manner between ∧
        keyword.spells "from" = true ∧ operand.isA .generic = true := by
  have hrest : manner ++ [.word "FROM", .kind .generic] ≠ [] :=
    append_ne_nil_of_right_ne_nil _ (cons_ne_nil _ _)
  change readsSeq _ e es = some k ↔ _
  rw [readsSeq_cons_eq_some rfl (cons_ne_nil _ _)]
  simp only [readsSeq_cons_eq_some (p := .kind .generic) rfl hrest, readsSeq_manner hmanner,
    isSome_reads_kind]
  constructor
  · rintro ⟨he, file, _, m, rfl,
      ⟨hfile, x, xs, m', rfl, ⟨between, keyword, operand, rest, hsplit, rfl, hrest⟩, rfl⟩, rfl⟩
    exact ⟨file, between, keyword, operand, rest, by rw [hsplit], rfl, he, hfile, hrest⟩
  · rintro ⟨file, between, keyword, operand, rest, rfl, rfl, he, hfile, hrest⟩
    have hne : between ++ keyword :: operand :: rest ≠ [] :=
      append_ne_nil_of_right_ne_nil _ (cons_ne_nil _ _)
    obtain ⟨x, xs, hsplit⟩ := exists_cons_of_ne_nil hne
    rw [hsplit]
    exact ⟨he, file, x :: xs, _, rfl,
      ⟨hfile, x, xs, _, rfl, ⟨between, keyword, operand, rest, hsplit.symm, rfl, hrest⟩, rfl⟩,
      rfl⟩

/-! ### What records are written from -/

section Written

variable {r : Rule} {word : String} {manner : List Pattern} {n : Node}

/-- The words behind `FROM`: no word for how a record is written stands for `FROM` itself. -/
theorem afterTarget_from {between : List Element} (hmanner : IsManner manner between)
    {keyword : Token} {operand : Element} (hkeyword : (token keyword).spells "from" = true)
    (hcaseless : keyword.caseSensitive = false)
    (htokens : ∀ x ∈ between, ∃ t, x = .token t ∧ t.caseSensitive = false) :
    Lookahead.afterTarget [.word "FROM"] (between ++ [.token keyword, operand]) = [operand] := by
  have hfound : Lookahead.afterTarget [.word "FROM"] [.token keyword, operand] = [operand] := by
    unfold Lookahead.afterTarget
    rw [Lookahead.isTarget_of_spells hcaseless hkeyword]
    rfl
  rcases hmanner with rfl | ⟨-, x, rfl, hx⟩
  · exact hfound
  · obtain ⟨t, rfl, ht⟩ := htokens x (mem_singleton_self x)
    have hpassed : (token t).isTarget [.word "FROM"] = .ok false := by
      rcases hx with hx | hx
      · exact (Lookahead.isTarget_of_spells ht hx "FROM").trans rfl
      · exact (Lookahead.isTarget_of_spells ht hx "FROM").trans rfl
    rw [singleton_append, Lookahead.afterTarget, hpassed]
    exact hfound

variable (hform : (r, word, manner) ∈ recordForms)

include hform

/-- The kinds of the statements that write records have one rule each. -/
theorem eq_of_mem_recordForms {r' : Rule} (hr' : r' ∈ termRules)
    (hname : r'.kind.name = r.kind.name) : r' = r := by
  have hmem : r' ∈ termRules.filter (·.kind.name == r.kind.name) :=
    mem_filter.mpr ⟨hr', beq_iff_eq.mpr hname⟩
  -- either rule is filed twice, once for each of its forms
  have htwice : termRules.filter (·.kind.name == r.kind.name) = [r, r] := by
    rcases mem_cons.mp hform with h | h
    · cases h
      rfl
    · cases mem_singleton.mp h
      rfl
  rw [htwice] at hmem
  rcases mem_cons.mp hmem with h | h
  · exact h
  · exact mem_singleton.mp h

theorem manner_of_mem_recordForms : manner = [] ∨ manner = [.maybe manners] := by
  rcases mem_cons.mp hform with h | h
  · cases h
    exact .inl rfl
  · cases mem_singleton.mp h
    exact .inr rfl

/-- A statement that was read is covered by the form that it was read by: the words behind it have
no part in it. -/
theorem isCoveredBy_of_reading (h : TermRead r n) :
    isCoveredBy n (fromForm word manner) = true ∨ isCoveredBy n (plainForm word) = true := by
  obtain ⟨e, es, k, hterm, hcode⟩ := h.reading
  obtain ⟨-, p, hp, hreads⟩ := Grouping.mem_of_firstReads hterm
  obtain rfl := Option.some.inj ((shape_of_mem_recordForms hform).symm.trans hp)
  rw [reads_oneOf, readsOneOf, readsOneOf, readsOneOf, Option.or_none] at hreads
  rw [isCoveredBy_iff, isCoveredBy_iff]
  rcases Option.or_eq_some_iff.mp hreads with hfrom | ⟨-, hplain⟩
  · obtain ⟨file, between, keyword, operand, rest, rfl, rfl, hwords⟩ :=
      (reads_fromForm (manner_of_mem_recordForms hform)).mp hfrom
    have htake : (file :: (between ++ keyword :: operand :: rest)).take (between.length + 3) =
        file :: (between ++ [keyword, operand]) := by
      rw [take_succ_cons, take_length_add_append]
      rfl
    rw [htake] at hcode
    refine .inl ⟨e, _, hcode, (reads_fromForm (manner_of_mem_recordForms hform)).mpr ?_⟩
    exact ⟨file, between, keyword, operand, [], rfl, by simp, hwords⟩
  · obtain ⟨file, rest, rfl, rfl, hwords⟩ := reads_plainForm.mp hplain
    exact .inr ⟨e, _, hcode, reads_plainForm.mpr ⟨file, [], rfl, rfl, hwords⟩⟩

/-- What is noted of a statement with a form, by the words that come behind the file. -/
theorem operands_of_recordForms (h : TermRead r n) {command file : Element} {rest : List Element}
    (hcode : n.code = command :: file :: rest) : n.operand? .file = some file.toOperand ∧
      n.operand? .source = if r.kind.name = "Put" then rest[1]?.map toOperand
        else if (Lookahead.afterTarget [.word "FROM"] rest).isEmpty then none
          else some file.toOperand := by
  have hcode' : Node.code ⟨{ kind := r.kind }, n.code⟩ = command :: file :: rest :=
    (Rule.code_code n.children).trans hcode
  rw [operand?_of_shown h.shown, operand?_of_shown h.shown]
  rcases mem_cons.mp hform with hr | hr
  · cases hr
    rw [if_pos (show put.kind.name = "Put" from rfl)]
    exact Completion.operands_of_fileAndFourth rfl hcode'
  · cases mem_singleton.mp hr
    rw [if_neg (show write.kind.name ≠ "Put" by decide)]
    exact Completion.operands_of_fileAndFrom rfl hcode'

/-- A statement with `FROM`. -/
theorem operands_of_fromForm (h : TermRead r n)
    (hlexed : ∀ t ∈ leavesOfList n.children, Lexer.Lexed t)
    (hcovered : isCoveredBy n (fromForm word manner) = true) :
    ∃ command file between keyword operand,
      n.code = .token command :: .token file :: (between ++ [.token keyword, .token operand]) ∧
        IsManner manner between ∧ (token keyword).spells "from" = true ∧
          n.operand? .file = some (.word file) ∧
        n.operand? .source = some (.word (if r.kind.name = "Put" then operand else file)) := by
  obtain ⟨command, es, hcode, hreads⟩ := isCoveredBy_iff.mp hcovered
  obtain ⟨file, between, keyword, operand, rest, rfl, hlength, -, -, hbetween, hkeyword, -⟩ :=
    (reads_fromForm (manner_of_mem_recordForms hform)).mp hreads
  obtain rfl : rest = [] := by
    simp only [length_cons, length_append] at hlength
    exact length_eq_zero_iff.mp (by omega)
  have htokens : ∀ x ∈ command :: file :: (between ++ [keyword, operand]), ∃ t,
      x = .token t ∧ t.caseSensitive = false := by
    intro x hx
    have hmem : x ∈ n.children := mem_of_mem_filter (hcode ▸ hx : x ∈ n.code)
    obtain ⟨t, rfl⟩ := h.shown.tokens x hmem
    exact ⟨t, rfl, (hlexed t (mem_leavesOfList_of_token hmem)).caseless⟩
  obtain ⟨hfile, hsource⟩ := operands_of_recordForms hform h hcode
  -- all of its words are tokens, so that each operand is a single word
  simp only [forall_mem_cons, forall_mem_append] at htokens
  obtain ⟨⟨command, rfl, -⟩, ⟨file, rfl, -⟩, hwords, ⟨keyword, rfl, hcaseless⟩, ⟨operand, rfl, -⟩,
    -⟩ := htokens
  refine ⟨command, file, between, keyword, operand, hcode, hbetween, hkeyword, hfile, ?_⟩
  rw [hsource]
  rcases mem_cons.mp hform with hr | hr
  · -- nothing stands before `FROM`, so that the fourth word is the one behind it
    cases hr
    rcases hbetween with rfl | ⟨hne, -⟩
    · rfl
    · exact absurd rfl hne
  · -- there is a word behind `FROM`, but it is the file that is noted
    cases mem_singleton.mp hr
    rw [afterTarget_from hbetween hkeyword hcaseless hwords]
    rfl

/-- A statement without `FROM`. -/
theorem operands_of_plainForm (h : TermRead r n)
    (hcovered : isCoveredBy n (plainForm word) = true) :
    ∃ command file, n.code = [.token command, .token file] ∧ n.operand? .file = some (.word file) ∧
      n.operand? .source = none := by
  obtain ⟨command, es, hcode, hreads⟩ := isCoveredBy_iff.mp hcovered
  obtain ⟨file, rest, rfl, hlength, -⟩ := reads_plainForm.mp hreads
  obtain rfl : rest = [] := length_eq_zero_iff.mp (Nat.succ.inj hlength)
  have htokens : ∀ x ∈ [command, file], ∃ t, x = .token t :=
    fun x hx => h.shown.tokens x (mem_of_mem_filter (hcode ▸ hx : x ∈ n.code))
  obtain ⟨hfile, hsource⟩ := operands_of_recordForms hform h hcode
  simp only [forall_mem_cons] at htokens
  obtain ⟨⟨command, rfl⟩, ⟨file, rfl⟩, -⟩ := htokens
  refine ⟨command, file, hcode, hfile, hsource.trans ?_⟩
  split <;> rfl

end Written

/-- **What records are written from.** Every `PUT` and every `WRITE` in what is read of a source has
one of its two forms. The file is its second word. With `FROM`, what is noted as the source of the
record is the word behind `FROM` for a `PUT`, but the file again for a `WRITE`, so that its name is
the right one only if the two have the same name. Without `FROM`, nothing is noted. -/
theorem operands_of_written {source : String} (hfault : (parse source).fault = none) {n : Node}
    (hn : n ∈ allNodes (parse source).elements) {r : Rule} {word : String} {manner : List Pattern}
    (hform : (r, word, manner) ∈ recordForms) (hkind : n.head.kind = r.kind) :
    (isCoveredBy n (fromForm word manner) = true ∨ isCoveredBy n (plainForm word) = true) ∧
      (isCoveredBy n (fromForm word manner) = true → ∃ command file between keyword operand,
        n.code = .token command :: .token file :: (between ++ [.token keyword, .token operand]) ∧
          IsManner manner between ∧ (Element.token keyword).spells "from" = true ∧
          n.operand? .file = some (.word file) ∧
          n.operand? .source = some (.word (if r.kind.name = "Put" then operand else file)) ∧
          ((n.operand? .source).bind Operand.name = operand.text ↔
            r.kind.name = "Put" ∨ file.text = operand.text)) ∧
      (isCoveredBy n (plainForm word) = true → ∃ command file,
        n.code = [.token command, .token file] ∧ n.operand? .file = some (.word file) ∧
          n.operand? .source = none) := by
  have hterm : n.head.kind.family = .term := by
    have hfamilies : ∀ f ∈ recordForms, f.1.kind.family = .term := by decide
    rw [hkind]
    exact hfamilies _ hform
  obtain ⟨⟨r', hread⟩, hlexed⟩ := termRead_of_parse hfault hn hterm
  obtain rfl := eq_of_mem_recordForms hform hread.shown.rule (by rw [← hread.shown.kind, hkind])
  refine ⟨isCoveredBy_of_reading hform hread, fun hcovered => ?_, operands_of_plainForm hform hread⟩
  obtain ⟨command, file, between, keyword, operand, hcode, hbetween, hkeyword, hfile, hsource⟩ :=
    operands_of_fromForm hform hread hlexed hcovered
  refine ⟨command, file, between, keyword, operand, hcode, hbetween, hkeyword, hfile, hsource, ?_⟩
  rw [hsource]
  change Token.text (if _ then operand else file) = operand.text ↔ _
  by_cases hput : r'.kind.name = "Put"
  · simp [hput]
  · simp [hput]

/-- A record that is put into a file with the name `FROM`, and a comment between its words. -/
def putSource : String :=
  "PARM\nput FROM\n* c\nFrom UPDATE\n"

theorem operands_of_written_putSource :
    (parse putSource).fault = none ∧ (put, "PUT", []) ∈ recordForms ∧
      ∃ n ∈ allNodes (parse putSource).elements, n.head.kind = put.kind ∧
        isCoveredBy n (fromForm "PUT" []) = true ∧
        (n.operand? .file).bind Operand.name = some "FROM" ∧
          (n.operand? .source).bind Operand.name = some "UPDATE" := by
  have hfault : (parse putSource).fault = none := by decide +kernel
  have hnode : ∃ n ∈ allNodes (parse putSource).elements, n.head.kind = put.kind ∧
    isCoveredBy n (fromForm "PUT" []) = true ∧
      n.code.map text = [some "put", some "FROM", some "From", some "UPDATE"] := by decide +kernel
  obtain ⟨n, hn, hkind, hcovered, htexts⟩ := hnode
  obtain ⟨command, file, between, keyword, operand, hcode, hbetween, -, hfile, -, hsource⟩ :=
    (operands_of_written hfault hn mem_cons_self hkind).2.1 hcovered
  refine ⟨hfault, mem_cons_self, n, hn, hkind, hcovered, ?_⟩
  -- nothing may stand between the file and the second `From`
  rcases hbetween with rfl | ⟨hne, -⟩
  · rw [hcode] at htexts
    simp only [nil_append, map_cons, List.cons.injEq] at htexts
    obtain ⟨-, hfileText, -, hoperandText, -⟩ := htexts
    rw [hfile, hsource.mpr (.inl rfl)]
    exact ⟨hfileText, hoperandText⟩
  · exact absurd rfl hne

/-- A record that is written to a file from something else. -/
def writeSource : String :=
  "PARM\nWRITE A FROM B\n"

/-- Of a `WRITE` with `FROM`, the file is noted in place of what stands behind `FROM`. -/
theorem source_ne_of_writeSource :
    (parse writeSource).fault = none ∧
      ∃ n ∈ allNodes (parse writeSource).elements, n.head.kind = write.kind ∧
        isCoveredBy n (fromForm "WRITE" [.maybe manners]) = true ∧
        n.code.map Element.text = [some "WRITE", some "A", some "FROM", some "B"] ∧
        (n.operand? .source).bind Operand.name = some "A" := by
  decide +kernel

end Language

end EztScan
