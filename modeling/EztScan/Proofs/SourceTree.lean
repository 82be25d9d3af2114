import EztScan.Proofs.Conservation
import EztScan.Proofs.Outline
import EztScan.Proofs.Positions
import EztScan.Proofs.ReadingFaults
import EztScan.Proofs.Scanning
import Mathlib.Data.List.Infix
import Mathlib.Data.List.Nodup

/-!
# The tree of a source

What the later work on a program has to know about its tree, whatever the source was. Be it a
program or a macro, be there a mark of a preprocessor in front of it or not: the root holds words,
terms and sections, sections hold words and terms, and terms hold words only (`Node.IsSource`). No
two nodes have the same number. A statement has the operands that its kind cannot do without, and
each operand is a word that is there to be read (`Node.IsApt`).

`isSource_of_treeOf` gets this from the way in which a source is read. Nothing behind it looks at
the stages again.
-/

namespace EztScan

open Element Grouping List

variable {e : Element} {role : Role} {n : Node} {t : Token} {es : List Element}
  {tokens ts : List Token} {scopes : List Scope}
variable {r : Rule} {words : List Element} {s : Section} {m : Node} {source : String}

instance Role.lawfulBEq : LawfulBEq Role where
  eq_of_beq {a b} h := by cases a <;> cases b <;> first | rfl | cases h
  rfl {a} := by cases a <;> rfl

/-! ### Operands -/

/-- What is left when a key is taken out. -/
theorem lookup_filter_ne {κ α : Type} [BEq κ] [LawfulBEq κ] [DecidableEq κ] (entries : List (κ × α))
    (key other : κ) :
    (entries.filter fun p => p.1 != key).lookup other = if other = key then none
      else entries.lookup other := by
  induction entries with
  | nil => simp
  | cons p entries ih =>
    obtain ⟨k, a⟩ := p
    by_cases hk : k = key
    · rw [filter_cons_of_neg (by simp [hk]), ih]
      by_cases ho : other = key
      · rw [if_pos ho, if_pos ho]
      · have hne : (other == k) = false := beq_eq_false_iff_ne.mpr fun h => ho (h.trans hk)
        rw [if_neg ho, if_neg ho, lookup_cons, hne]
    · rw [filter_cons_of_pos (by simp [hk]), lookup_cons, lookup_cons, ih]
      by_cases ho : other = key
      · have hne : (other == k) = false := beq_eq_false_iff_ne.mpr fun h => hk (h.symm.trans ho)
        rw [if_pos ho, if_pos ho, hne]
      · rw [if_neg ho, if_neg ho]

namespace Node

variable {n : Node}

/-- Setting an operand changes that operand and no other. -/
theorem operand?_setOperand (n : Node) (role other : Role) (o : Operand) :
    (n.setOperand role o).operand? other = if other = role then some o else n.operand? other := by
  change ((n.head.operands.filter fun p => p.1 != role) ++ [(role, o)]).lookup other = _
  rw [lookup_append, lookup_filter_ne]
  by_cases ho : other = role
  · rw [if_pos ho, if_pos ho, ho, lookup_cons, beq_self_eq_true]
    rfl
  · have hne : (other == role) = false := beq_eq_false_iff_ne.mpr ho
    rw [if_neg ho, if_neg ho, lookup_cons, hne, lookup_nil, Option.or_none]
    rfl

/-- Every operand of the node is one of its words. -/
def Drawn (n : Node) : Prop :=
  ∀ p ∈ n.head.operands, ∃ e ∈ n.code, p.2 = e.toOperand

theorem Drawn.set (h : n.Drawn) (he : e ∈ n.code) (role : Role) :
    (n.setOperand role e.toOperand).Drawn :=
  forall_mem_append.mpr
    ⟨fun p hp => h p (mem_of_mem_filter hp), forall_mem_singleton.mpr ⟨e, he, rfl⟩⟩

end Node

namespace Lookahead

theorem afterTarget_subset (targets : List Target) (es : List Element) :
    afterTarget targets es ⊆ es := by
  induction es with
  | nil => exact Subset.refl _
  | cons e es ih =>
    unfold afterTarget
    split
    · exact subset_cons_of_subset e ih
    · exact subset_cons_self e es

end Lookahead

namespace Completion

open Lookahead

/-- The operands that a completion notes in any case. -/
def required : Completion → List Role
  | .nothing | .input => []
  | .second role => [role]
  | .fileAndFourth | .fileAndFrom => [.file]
  | .sort => [.sorted, .target]

variable {n : Node}

theorem drawn_noteSecond (role : Role) (h : n.Drawn) : (noteSecond role n).1.Drawn := by
  unfold noteSecond
  split
  next first e rest hcode => exact h.set (by rw [hcode]; simp) role
  next => exact h

theorem drawn_noteFourth (h : n.Drawn) : (noteFourth n).Drawn := by
  unfold noteFourth
  split
  next first second third e rest hcode => exact h.set (by rw [hcode]; simp) .source
  next => exact h

theorem drawn_noteFrom (h : n.Drawn) : (noteFrom n).Drawn := by
  unfold noteFrom
  split
  next first e rest hcode =>
    have hset : (n.setOperand .source e.toOperand).Drawn := h.set (by rw [hcode]; simp) .source
    split
    · exact hset
    · exact h
  next => exact h

theorem drawn_noteInput (h : n.Drawn) : (noteInput n).Drawn := by
  unfold noteInput
  rw [moveTo_ofList]
  have hsubset := afterTarget_subset [.word "INPUT"] n.code
  generalize afterTarget [.word "INPUT"] n.code = behind at hsubset
  cases behind with
  | nil => exact h
  | cons => exact h.set (hsubset mem_cons_self) .input

theorem drawn_noteSort (h : n.Drawn) : (noteSort n).1.Drawn := by
  unfold noteSort
  split
  next first e third f rest hcode =>
    have hset : (n.setOperand .sorted e.toOperand).Drawn := h.set (by rw [hcode]; simp) .sorted
    apply hset.set
    change f ∈ n.code
    rw [hcode]
    simp
  next first e rest _ hcode => exact h.set (by rw [hcode]; simp) .sorted
  next => exact h

/-- What is noted are words of the node. -/
theorem drawn_note (c : Completion) (h : n.Drawn) : (c.note n).1.Drawn := by
  have hsecond := drawn_noteSecond .file h
  cases c with
  | nothing => exact h
  | second role => exact drawn_noteSecond role h
  | fileAndFourth | fileAndFrom =>
    unfold note
    generalize noteSecond .file n = stopped at hsecond
    obtain ⟨m, fault⟩ := stopped
    cases fault with
    | none => first | exact drawn_noteFourth hsecond | exact drawn_noteFrom hsecond
    | some => exact hsecond
  | input => exact drawn_noteInput h
  | sort => exact drawn_noteSort h

/-- What is noted of a node without operands is one of its words. -/
theorem exists_word_of_note (c : Completion) (hoperands : n.head.operands = []) {o : Operand}
    (h : (c.note n).1.operand? role = some o) : ∃ e ∈ n.code, o = e.toOperand := by
  have hdrawn : n.Drawn := by
    intro p hp
    rw [hoperands] at hp
    exact absurd hp not_mem_nil
  obtain ⟨role', hmem⟩ := Program.exists_mem_of_lookup h
  obtain ⟨e, he, heq⟩ := c.drawn_note hdrawn _ hmem
  obtain ⟨operands, hnote⟩ := c.note_eq n
  rw [hnote] at he
  exact ⟨e, he, heq⟩

/-- An operand that is there stays when others are set. -/
theorem isSome_setOperand (h : (n.operand? role).isSome = true) (other : Role) (o : Operand) :
    ((n.setOperand other o).operand? role).isSome = true := by
  rw [Node.operand?_setOperand]
  split
  · rfl
  · exact h

theorem isSome_noteSecond (h : (noteSecond role n).2 = none) :
    ((noteSecond role n).1.operand? role).isSome = true := by
  unfold noteSecond at h ⊢
  split
  next first e rest hcode =>
    rw [Node.operand?_setOperand, if_pos rfl]
    rfl
  next hcode =>
    rcases hn : n.code with _ | ⟨first, _ | ⟨e, rest⟩⟩
    · rw [hn] at h
      cases h
    · rw [hn] at h
      cases h
    · exact absurd hn (hcode first e rest)

theorem isSome_noteFourth (h : (n.operand? role).isSome = true) :
    ((noteFourth n).operand? role).isSome = true := by
  unfold noteFourth
  split
  · exact isSome_setOperand h _ _
  · exact h

theorem isSome_noteFrom (h : (n.operand? role).isSome = true) :
    ((noteFrom n).operand? role).isSome = true := by
  unfold noteFrom
  split
  · split
    · exact isSome_setOperand h _ _
    · exact h
  · exact h

/-- What a completion notes in any case is there if it does not stop. -/
theorem isSome_note (c : Completion) (h : (c.note n).2 = none) (hrole : role ∈ c.required) :
    ((c.note n).1.operand? role).isSome = true := by
  have hfile : (noteSecond .file n).2 = none → _ := isSome_noteSecond
  cases c with
  | nothing | input => exact absurd hrole not_mem_nil
  | second =>
    rw [mem_singleton.mp hrole]
    exact isSome_noteSecond h
  | fileAndFourth | fileAndFrom =>
    -- first the file, and then what may come from the rest
    rw [mem_singleton.mp hrole]
    unfold note at h ⊢
    generalize noteSecond .file n = stopped at h hfile ⊢
    obtain ⟨m, fault⟩ := stopped
    cases fault with
    | none => first | exact isSome_noteFourth (hfile rfl) | exact isSome_noteFrom (hfile rfl)
    | some => cases h
  | sort =>
    -- the two operands of a sort are its second and its fourth word
    unfold note noteSort at h ⊢
    rcases hn : n.code with _ | ⟨first, _ | ⟨e, _ | ⟨third, _ | ⟨f, rest⟩⟩⟩⟩
    -- fewer than four words are too few
    iterate 4
      · rw [hn] at h
        cases h
    · dsimp only
      rw [Node.operand?_setOperand, Node.operand?_setOperand]
      rcases mem_cons.mp hrole with rfl | hrole
      · rfl
      · rw [mem_singleton.mp hrole]
        rfl

end Completion

/-! ### Statements that can be resolved -/

/-- The statement has what the references ask for: the operands that it cannot do without, and those
in front of others. All of its operands are words with a text. -/
structure Node.Offers (n : Node) (rs : List Reference) : Prop where
  roles : ∀ r ∈ rs, (Language.rolesOf n.head.kind.name).contains r.role = true
  needed : ∀ r ∈ rs, r.optional = false → (n.operand? r.role).isSome = true
  leading : ∀ r ∈ rs.dropLast, (n.operand? r.role).isSome = true
  words : ∀ r ∈ rs, ∀ o, n.operand? r.role = some o → ∃ t text, o = .word t ∧ t.text = some text ∧
    text ≠ ""

/-- The node is a statement that has what its references ask for, or it has no references. -/
def Node.IsApt (n : Node) : Prop :=
  ∀ rs, Reference.ofStatement? n.head.kind.name = some rs → n.Offers rs

/-- Does the rule note what the references of its kind of statement ask for? -/
def Rule.isApt (r : Rule) : Bool :=
  match Reference.ofStatement? r.kind.name with
  | none => true
  | some rs =>
    rs.all (fun ref => (Language.rolesOf r.kind.name).contains ref.role &&
      (ref.optional || r.completion.required.contains ref.role)) &&
    rs.dropLast.all fun ref => r.completion.required.contains ref.role

/-- An element that is there to be read: a token with a text. -/
def Element.IsLegible (e : Element) : Prop :=
  ∃ t text, e = .token t ∧ t.text = some text ∧ text ≠ ""

theorem Node.operand?_of_rule (h : n.head.operands = r.operandsOf words) (role : Role) :
    n.operand? role = (r.completion.note ⟨{ kind := r.kind }, words⟩).1.operand? role := by
  unfold Node.operand?
  rw [h]
  rfl

/-- A node of such a rule can be resolved, if its words can be read and none of them is missing. -/
theorem Node.isApt_of_rule (hr : r.isApt = true) (hkind : n.head.kind = r.kind)
    (hoperands : n.head.operands = r.operandsOf words) (hfault : r.faultOf words = none)
    (hwords : ∀ e ∈ Element.code words, e.IsLegible) : n.IsApt := by
  intro rs hrs
  unfold Rule.isApt at hr
  rw [hkind] at hrs
  rw [hrs] at hr
  rw [Bool.and_eq_true, all_eq_true, all_eq_true] at hr
  -- what the rule says of the references holds of its nodes
  obtain ⟨hroles, hleading⟩ := hr
  have hoperand := Node.operand?_of_rule hoperands
  have hrequired : ∀ role, r.completion.required.contains role = true →
      (n.operand? role).isSome = true := by
    intro role hrole
    rw [hoperand]
    exact r.completion.isSome_note hfault (contains_iff_mem.mp hrole)
  refine ⟨fun ref href => ?_, fun ref href hneeded => ?_,
    fun ref href => hrequired _ (hleading ref href), fun ref href o ho => ?_⟩
  · rw [hkind]
    exact (Bool.and_eq_true_iff.mp (hroles ref href)).1
  · have hor := (Bool.and_eq_true_iff.mp (hroles ref href)).2
    rw [hneeded, Bool.false_or] at hor
    exact hrequired _ hor
  · rw [hoperand] at ho
    obtain ⟨e, he, heq⟩ := r.completion.exists_word_of_note rfl ho
    obtain ⟨t, text, rfl, htext, hne⟩ := hwords e he
    exact ⟨t, text, heq, htext, hne⟩

/-- A word of a source has a text. -/
theorem Lexer.Lexed.isLegible (h : Lexer.Lexed t) (hcode : t.isCode = true) :
    (Element.token t).IsLegible := by
  rcases h with hct | ⟨number, line, -, rfl⟩
  · obtain ⟨text, ht⟩ := hct.text
    refine ⟨t, text, rfl, ht, ?_⟩
    rintro rfl
    unfold Token.isCode at hcode
    rw [hct.isBlank ht] at hcode
    cases hcode
  · unfold Token.isCode at hcode
    rw [isComment_commentToken, Bool.not_true, Bool.and_false] at hcode
    cases hcode

/-! ### Terms and sections -/

namespace Language

theorem isApt_rules : (termRules ++ sectionRules).all Rule.isApt = true := by
  decide

end Language

open EztScan.Language

/-- The node is a term: words only, which have all that it refers to. Its operands are among them. A
query has a name. -/
structure Node.IsTerm (n : Node) : Prop where
  kind : ∃ r ∈ termRules, n.head.kind = r.kind
  filled : n.children ≠ []
  tokens : ∀ e ∈ n.children, ∃ t, e = .token t
  apt : n.IsApt
  words : ∀ role o, n.operand? role = some o → ∃ t, o = .word t ∧ Element.token t ∈ n.children
  query : n.head.kind.name = "SQL" → ∃ name, declaredName n = .ok (some name)

/-- The node is a section of words and terms, which has all that it refers to. Its name is not
empty, and a procedure has one. -/
structure Node.IsSection (n : Node) : Prop where
  kind : ∃ r ∈ sectionRules, n.head.kind = r.kind
  filled : n.children ≠ []
  parts : ∀ e ∈ n.children, (∃ t, e = .token t) ∨ ∃ m : Node, e = m.toElement ∧ m.IsTerm
  apt : n.IsApt
  named : ∀ name, declaredName n = .ok (some name) → name ≠ ""
  procedure : n.head.kind.name = "Procedure" → ∃ name, declaredName n = .ok (some name)

/-- The lines are known on which the token begins and ends. -/
def Token.HasLines (t : Token) : Prop :=
  t.span.beginLine.isSome = true ∧ t.span.endLine.isSome = true

/-- The node is the root of a source: words, terms and sections. -/
structure Node.IsSource (n : Node) : Prop where
  kind : n.head.kind = program.kind ∨ n.head.kind = macroForm.kind
  filled : n.children ≠ []
  lines : ∀ t ∈ leavesOfList n.children, t.HasLines
  parts : ∀ e ∈ n.children, (∃ t, e = .token t) ∨
    ∃ m : Node, e = m.toElement ∧ (m.IsTerm ∨ m.IsSection)
  numbers : ((allNodes [n.toElement]).map (·.head.number)).Nodup

/-- What is not blank in a source can be read. -/
theorem isLegible_of_lexed (hlexed : ∀ t ∈ leavesOfList es, Lexer.Lexed t) (he : e ∈ es)
    (htoken : ∃ t, e = .token t) (hcode : e.isCode = true) : e.IsLegible := by
  obtain ⟨t, rfl⟩ := htoken
  exact (hlexed t (mem_leavesOfList_of_token he)).isLegible hcode

theorem lexed_of_mem (hlexed : ∀ t ∈ leavesOfList es, Lexer.Lexed t) (hm : m.toElement ∈ es) :
    ∀ t ∈ leavesOfList m.children, Lexer.Lexed t :=
  fun t ht => hlexed t (leavesOfList_subset_of_mem hm ht)

/-- **What is shown as a term is one**, if its words come from a source. -/
theorem isTerm_of_shown (h : TermShown r words n)
    (hlexed : ∀ t ∈ leavesOfList n.children, Lexer.Lexed t) : n.IsTerm := by
  have hmem : ∀ e ∈ Element.code words, e ∈ n.code := fun e he => h.code_eq ▸ mem_of_mem_filter he
  have hlegible : ∀ e ∈ Element.code words, e.IsLegible := by
    intro e he
    have hwords := mem_of_mem_filter (hmem e he)
    exact isLegible_of_lexed hlexed hwords (h.tokens e hwords) (of_mem_filter (hmem e he))
  have hoperand := Node.operand?_of_rule h.operands
  have hrequired : ∀ role ∈ r.completion.required, ∃ o, n.operand? role = some o := by
    intro role hrole
    rw [hoperand]
    exact Option.isSome_iff_exists.mp (r.completion.isSome_note h.complete hrole)
  have hword : ∀ role o, n.operand? role = some o →
      ∃ t text, o = .word t ∧ Element.token t ∈ n.children ∧ t.text = some text := by
    intro role o ho
    rw [hoperand] at ho
    obtain ⟨e, he, heq⟩ := r.completion.exists_word_of_note rfl ho
    obtain ⟨t, text, rfl, htext, -⟩ := hlegible e he
    exact ⟨t, text, heq, mem_of_mem_filter (hmem _ he), htext⟩
  have hrule := all_eq_true.mp isApt_rules r (mem_append_left _ h.rule)
  refine ⟨⟨r, h.rule, h.kind⟩, ?_, h.tokens,
    Node.isApt_of_rule hrule h.kind h.operands h.complete hlegible,
    fun role o ho => ?_, fun hname => ?_⟩
  · -- there is no term without an operand
    have hsome : ∀ r ∈ termRules, r.completion.required ≠ [] := by decide
    obtain ⟨role, roles, hroles⟩ := exists_cons_of_ne_nil (hsome r h.rule)
    obtain ⟨o, ho⟩ := hrequired role (hroles ▸ mem_cons_self)
    obtain ⟨t, -, -, ht, -⟩ := hword role o ho
    exact ne_nil_of_mem ht
  · obtain ⟨t, -, heq, ht, -⟩ := hword role o ho
    exact ⟨t, heq, ht⟩
  -- the query is a word of the statement
  have hqueries : ∀ r ∈ termRules, r.kind.name = "SQL" → r.completion = .second .query := by decide
  have hcompletion := hqueries r h.rule (h.kind ▸ hname)
  obtain ⟨o, ho⟩ := hrequired .query (by rw [hcompletion]; exact mem_singleton_self _)
  obtain ⟨t, text, rfl, -, htext⟩ := hword .query o ho
  refine ⟨queryName text, ?_⟩
  unfold declaredName queryText
  rw [hname, ho]
  simp only [Operand.name, htext]
  rfl

/-- The words of a section are among the elements that are divided. -/
theorem mem_words_of_mem_divide (hs : .part s ∈ divide none es) :
    ∀ e ∈ s.words, e ∈ es ∧ e.isCode = true := by
  have hcode : ∀ {e : Element}, e ∈ es → ∀ x ∈ code [e], x ∈ es ∧ x.isCode = true := by
    intro e he x hx
    rw [mem_singleton.mp (mem_of_mem_filter hx)] at *
    exact ⟨he, of_mem_filter hx⟩
  refine of_mem_divide (I := fun s _ rest => rest ⊆ es ∧ ∀ e ∈ s.words, e ∈ es ∧ e.isCode = true)
    (F := fun s => ∀ e ∈ s.words, e ∈ es ∧ e.isCode = true) ?_ ?_ ?_ ?_ ?_ (suffix_refl es) ?_ hs
  · -- a new section has at most the element that it begins with
    rintro e rest r k hsuffix -
    refine ⟨fun x hx => hsuffix.subset (mem_cons_of_mem e hx), fun x hx => ?_⟩
    simp only [Section.words, Section.start, append_nil] at hx
    exact hcode (hsuffix.subset mem_cons_self) x hx
  · -- then it takes up one element after the other, until it is closed
    rintro s k e rest ⟨hrest, hwords⟩
    obtain ⟨he, hrest⟩ := cons_subset.mp hrest
    refine ⟨hrest, fun x hx => ?_⟩
    simp only [Section.words, Section.unfold, mem_append] at hx hwords
    grind
  · rintro s e rest ⟨hrest, hwords⟩
    obtain ⟨he, hrest⟩ := cons_subset.mp hrest
    refine ⟨hrest, fun x hx => ?_⟩
    simp only [Section.words, Section.extend, mem_append] at hx hwords
    grind
  · rintro s e rest - ⟨hrest, hwords⟩ x hx
    simp only [Section.words, Section.close, mem_append] at hx hwords
    have he := hrest mem_cons_self
    grind
  · exact fun _ h => h.2
  · rintro s₀ k ⟨⟩

/-- The names of the sections that begin with a word of their own. -/
def keywordKinds : List String :=
  keywords.map (·.2.kind.name)

/-- The opening of a section that begins with a word of its own is that word, and no opening is
empty. -/
theorem opening_of_mem_divide (hts : ∀ t ∈ ts, Lexer.Lexed t)
    (hs : .part s ∈ divide none (ts.map .token)) :
    s.opening.length = 1 ∨ s.rule.kind.name ∉ keywordKinds ∧ s.opening ≠ [] := by
  -- as long as nothing of the opening is there, some of it is still to come
  refine of_mem_divide
    (I := fun s k rest => s.opening.length = 1 ∧ k = 0 ∨
      s.rule.kind.name ∉ keywordKinds ∧ (s.opening ≠ [] ∨ 0 < k ∧ code rest ≠ []))
    (F := fun s => s.opening.length = 1 ∨ s.rule.kind.name ∉ keywordKinds ∧ s.opening ≠ [])
    ?_ ?_ ?_ ?_ ?_ (suffix_refl _) ?_ hs
  · rintro e rest r k hsuffix hat
    rw [sectionAt_eq] at hat
    rcases Option.or_eq_some_iff.mp hat with hat | ⟨-, hat⟩
    · left
      -- a word of its own is there at once
      have hwords : keywords.all (fun p => p.1.toList.all Text.isWordChar) = true := by decide
      obtain ⟨p, hp, heq⟩ := Option.map_eq_some_iff.mp hat
      obtain ⟨-, rfl⟩ := Prod.mk.inj heq
      have hspells : e.spells p.1 = true := by simpa using find?_some hp
      have hword := isWord_of_spells (all_eq_true.mp hwords p (mem_of_find?_eq_some hp)) hspells
      obtain ⟨t, ht, rfl⟩ := mem_map.mp (hsuffix.subset mem_cons_self)
      have hcode : (Element.token t).isCode = true := by
        by_contra hidle
        exact (hts t ht).not_isWord (Bool.not_eq_true _ ▸ hidle) hword
      refine ⟨?_, rfl⟩
      change (code [Element.token t]).length = 1
      rw [code_cons_of_isCode hcode]
      rfl
    · right
      -- otherwise there is at least one word more to come
      have hkinds : data.kind.name ∉ keywordKinds ∧ procedure.kind.name ∉ keywordKinds := by decide
      rcases openerAt_cases hat with
        ⟨rfl, rfl, x, xs, hrest, -⟩ | ⟨rfl, rfl, x, y, ys, hrest, -⟩ | ⟨rfl, rfl, x, xs, hrest, -⟩
      · exact ⟨hkinds.1, .inr ⟨Nat.one_pos, by rw [hrest]; exact cons_ne_nil _ _⟩⟩
      · exact ⟨hkinds.2, .inr ⟨Nat.two_pos, by rw [hrest]; exact cons_ne_nil _ _⟩⟩
      · exact ⟨hkinds.2, .inr ⟨Nat.one_pos, by rw [hrest]; exact cons_ne_nil _ _⟩⟩
  · rintro s k e rest (⟨-, hzero⟩ | ⟨hkind, hI⟩)
    · exact absurd hzero (Nat.succ_ne_zero k)
    refine .inr ⟨hkind, ?_⟩
    change s.opening ++ code [e] ≠ [] ∨ _
    rcases hI with hopening | ⟨-, hrest⟩
    · exact .inl (append_ne_nil_of_left_ne_nil hopening _)
    · cases he : e.isCode with
      | true =>
        left
        rw [code_cons_of_isCode he]
        exact append_ne_nil_of_right_ne_nil _ (cons_ne_nil _ _)
      | false =>
        rw [code_cons_of_not_isCode he] at hrest
        exact .inr ⟨Nat.succ_pos k, hrest⟩
  · rintro s e rest (hI | ⟨hkind, hI⟩)
    · exact .inl hI
    · exact .inr ⟨hkind, .inl (hI.resolve_right fun h => absurd h.1 (Nat.lt_irrefl 0))⟩
  · rintro s e rest - (hI | ⟨hkind, hI⟩)
    · exact .inl hI.1
    · exact .inr ⟨hkind, hI.resolve_right fun h => absurd h.1 (Nat.lt_irrefl 0)⟩
  · rintro s k rest hend (hI | ⟨hkind, hI⟩)
    · exact .inl hI.1
    refine .inr ⟨hkind, hI.resolve_right ?_⟩
    rintro ⟨hpos, hrest⟩
    rcases hend with rfl | rfl
    · exact absurd hpos (Nat.lt_irrefl 0)
    · exact absurd rfl hrest
  · rintro s₀ k ⟨⟩

theorem opening_ne_nil_of_mem_divide (hts : ∀ t ∈ ts, Lexer.Lexed t)
    (hs : .part s ∈ divide none (ts.map .token)) : s.opening ≠ [] := by
  rcases opening_of_mem_divide hts hs with hone | ⟨-, hne⟩
  · intro hnil
    rw [hnil] at hone
    cases hone
  · exact hne

/-- What is read off a word of a source is not empty. -/
theorem ne_empty_of_wordText (hlexed : ∀ t ∈ leavesOfList n.children, Lexer.Lexed t) {i : Nat}
    {name : String} (hname : wordText n i = .ok (some name)) : name ≠ "" := by
  unfold wordText at hname
  cases he : n.code[i]? with
  | none =>
    rw [he] at hname
    cases hname
  | some e =>
    rw [he] at hname
    have hmem := mem_of_getElem? he
    have htext : e.text = some name := Except.ok.inj hname
    have htoken : ∃ t, e = .token t := by
      cases e with
      | token t => exact ⟨t, rfl⟩
      | node => cases htext
    obtain ⟨t, text, rfl, ht, hne⟩ :=
      isLegible_of_lexed hlexed (mem_of_mem_filter hmem) htoken (of_mem_filter hmem)
    rw [← Option.some.inj (ht.symm.trans htext)]
    exact hne

/-- A section that has been read holds tokens and terms. -/
theorem token_or_isTerm_of_read (h : s.Read n)
    (hlexed : ∀ t ∈ leavesOfList n.children, Lexer.Lexed t) {e : Element} (he : e ∈ n.children) :
    (∃ t, e = .token t) ∨ ∃ m : Node, e = m.toElement ∧ m.IsTerm := by
  obtain ⟨comments, opening, body, closing, hlaid, htokens, -, -, hbody, -⟩ := h.parts
  have hleaves : ∀ {m : Node}, e = m.toElement → ∀ t ∈ leavesOfList m.children, Lexer.Lexed t :=
    fun hm => lexed_of_mem hlexed (hm ▸ he)
  simp only [hlaid.children, mem_append] at he htokens
  by_cases hmem : e ∈ body
  · cases hcode : e.isCode with
    | false => exact .inl (isPlain_of_not_isCode hcode).1
    | true =>
      obtain ⟨item, -, hitem⟩ := exists_mem_of_forall₂ hbody.flip (mem_filter.mpr ⟨hmem, hcode⟩)
      cases hitem with
      | word t => exact .inl ⟨t, rfl⟩
      | @term r words m hm => exact .inr ⟨m, rfl, isTerm_of_shown hm (hleaves rfl)⟩
  · -- terms are in the body only
    exact .inl (htokens e (by tauto))

/-- **A section that has been read** holds words and terms, and has the name that it needs. -/
theorem isSection_of_read (h : s.Read n) (hs : .part s ∈ divide none (ts.map .token))
    (hts : ∀ t ∈ ts, Lexer.Lexed t) (hlexed : ∀ t ∈ leavesOfList n.children, Lexer.Lexed t) :
    n.IsSection := by
  obtain ⟨comments, opening, body, closing, hlaid, htokens, -, hopening, -⟩ := h.parts
  have hlegible : ∀ e ∈ code s.words, e.IsLegible := by
    intro e he
    obtain ⟨hmem, hcode⟩ := mem_words_of_mem_divide hs e (mem_of_mem_filter he)
    obtain ⟨t, ht, rfl⟩ := mem_map.mp hmem
    exact (hts t ht).isLegible hcode
  have hrule := all_eq_true.mp isApt_rules s.rule (mem_append_right _ h.rule)
  -- the first word of the opening is in the section
  have hne := opening_ne_nil_of_mem_divide hts hs
  rw [← hopening] at hne
  obtain ⟨e, rest, hcode⟩ := exists_cons_of_ne_nil hne
  have hmem : e ∈ code opening := hcode ▸ mem_cons_self
  have hchild : e ∈ n.children := by
    rw [hlaid.children]
    simp [mem_of_mem_filter hmem]
  refine ⟨⟨s.rule, h.rule, h.kind⟩, ne_nil_of_mem hchild,
    fun e he => token_or_isTerm_of_read h hlexed he,
    Node.isApt_of_rule hrule h.kind h.operands h.complete hlegible,
    fun name hname => ?_, fun hkind => ?_⟩
  · have hkinds : ∀ r ∈ sectionRules, r.kind.name ≠ "SQL" := by decide
    unfold declaredName at hname
    split at hname
    iterate 3
      · exact ne_empty_of_wordText hlexed hname
    · next hsql => exact absurd (h.kind ▸ hsql) (hkinds s.rule h.rule)
    · cases hname
  · -- it is the name of a procedure, whatever it is
    have htoken := htokens e (by simp [mem_of_mem_filter hmem])
    obtain ⟨t, text, rfl, ht, -⟩ := isLegible_of_lexed hlexed hchild htoken (of_mem_filter hmem)
    refine ⟨text, ?_⟩
    unfold declaredName wordText
    rw [hkind, hlaid.code, hcode]
    exact congrArg Except.ok ht

/-! ### The root of a source -/

/-- The nodes in an element that stages hand on have different numbers. -/
theorem nodup_numbers_of_mem (hfault : (Scope.parseAll scopes tokens).fault = none)
    (hn : n.toElement ∈ (Scope.parseAll scopes tokens).elements) :
    ((allNodes [n.toElement]).map (·.head.number)).Nodup := by
  obtain ⟨before, after, hsplit⟩ := append_of_mem hn
  have hall := nodup_numbers_parseAll hfault
  rw [hsplit, allNodes_append, allNodes_cons, map_append, map_append] at hall
  exact (nodup_append.mp (nodup_append.mp hall).2.1).1

/-- The sections among the items of a program are those that its tokens are divided into. -/
theorem mem_programItems_iff :
    .word (.part s) ∈ programItems ts ↔ .part s ∈ divide none (ts.map .token) := by
  -- terms are made of loose words, so that the sections stay
  have hparts : s ∈ (programItems ts).filterMap Item.part? ↔
      s ∈ (divide none (ts.map .token)).filterMap Piece.part? := by
    unfold programItems
    rw [parts_itemsFrom, drop_zero]
  have hitems : s ∈ (programItems ts).filterMap Item.part? ↔ .word (.part s) ∈ programItems ts := by
    rw [mem_filterMap]
    constructor
    · rintro ⟨item, hitem, hsome⟩
      rcases item with (e | s') | ⟨r, words⟩
      · cases hsome
      · rw [← Option.some.inj hsome]
        exact hitem
      · cases hsome
    · exact fun h => ⟨_, h, rfl⟩
  have hpieces : s ∈ (divide none (ts.map .token)).filterMap Piece.part? ↔
      .part s ∈ divide none (ts.map .token) := by
    rw [mem_filterMap]
    constructor
    · rintro ⟨p, hp, hsome⟩
      cases p with
      | loose => cases hsome
      | part =>
        rw [← Option.some.inj hsome]
        exact hp
    · exact fun h => ⟨_, h, rfl⟩
  rw [← hitems, hparts, hpieces]

/-- What stands in a program is a word, a term, or one of the sections that its tokens are divided
into. -/
theorem Language.ProgramRead.cases_of_mem (hread : ProgramRead t ts n) (he : e ∈ n.children) :
    (∃ t, e = .token t) ∨ ∃ m : Node, e = m.toElement ∧
      ((∃ r words, TermShown r words m) ∨ ∃ s, .part s ∈ divide none (ts.map .token) ∧
        s.Read m) := by
  obtain ⟨body, hlaid, hbody⟩ := hread.parts
  rw [hlaid.children, append_nil, nil_append, singleton_append] at he
  rcases mem_cons.mp he with rfl | he
  · exact .inl ⟨t, rfl⟩
  cases hcode : e.isCode with
  | false => exact .inl (isPlain_of_not_isCode hcode).1
  | true =>
    obtain ⟨item, hitem, hshown⟩ := exists_mem_of_forall₂ hbody.flip (mem_filter.mpr ⟨he, hcode⟩)
    cases hshown with
    | word t => exact .inl ⟨t, rfl⟩
    | part hs => exact .inr ⟨_, rfl, .inr ⟨_, mem_programItems_iff.mp hitem, hs⟩⟩
    | term hm => exact .inr ⟨_, rfl, .inl ⟨_, _, hm⟩⟩

/-- A program that was read has terms and sections in it. -/
theorem parts_of_programRead (hread : ProgramRead t ts n) (hts : ∀ u ∈ ts, Lexer.Lexed u)
    (hlexed : ∀ u ∈ leavesOfList n.children, Lexer.Lexed u) :
    ∀ e ∈ n.children, (∃ t, e = .token t) ∨
      ∃ m : Node, e = m.toElement ∧ (m.IsTerm ∨ m.IsSection) := by
  intro e he
  rcases hread.cases_of_mem he with htoken | ⟨m, rfl, ⟨r, words, hm⟩ | ⟨s, hs, hm⟩⟩
  · exact .inl htoken
  · exact .inr ⟨m, rfl, .inl (isTerm_of_shown hm (lexed_of_mem hlexed he))⟩
  · exact .inr ⟨m, rfl, .inr (isSection_of_read hm hs hts (lexed_of_mem hlexed he))⟩

theorem Node.eq_of_toElement_eq (h : n.toElement = m.toElement) : n = m := by
  obtain ⟨hd, cs⟩ := n
  obtain ⟨hd', cs'⟩ := m
  obtain ⟨rfl, rfl⟩ := Element.node.inj h
  rfl

/-- All words that stages read are words of the source. -/
theorem leaves_subset_tokens (hfault : (Scope.parseAll scopes tokens).fault = none) :
    leavesOfList (Scope.parseAll scopes tokens).elements ⊆ tokens :=
  (perm_of_runStages (desk_eq_of_mem_map scopes) rfl hfault).subset

/-- So are all words in one of the nodes that they hand on. -/
theorem mem_of_mem_leaves (hfault : (Scope.parseAll scopes tokens).fault = none)
    (hn : n.toElement ∈ (Scope.parseAll scopes tokens).elements)
    (ht : t ∈ leavesOfList n.children) : t ∈ tokens :=
  leaves_subset_tokens hfault (leavesOfList_subset_of_mem hn ht)

/-- All nodes that a macro is read into are macros of tokens. -/
theorem tokens_of_macro (hlexed : ∀ t ∈ tokens, Lexer.Lexed t)
    (hn : n.toElement ∈ (Scope.parseAll [.everywhere macroIndex] tokens).elements) :
    n.head.kind = macroForm.kind ∧ n.children ≠ [] ∧ ∀ e ∈ n.children, ∃ t, e = .token t := by
  have hpassed : Passed (tokens.length + 1) [.everywhere macroIndex] (tokens.map .token)
      (Scope.parseAll [.everywhere macroIndex] tokens).elements :=
    passed_of_runStages (by simp) (fault_parseAll_macroIndex tokens)
  generalize (Scope.parseAll [.everywhere macroIndex] tokens).elements = elements at hpassed hn
  rcases hpassed with _ | ⟨hgrouped, hdone⟩
  cases hdone with
  | nil =>
    have hplain : ∀ e ∈ tokens.map Element.token, e.IsPlain := by
      intro e he
      obtain ⟨t, ht, rfl⟩ := mem_map.mp he
      exact ⟨⟨t, rfl⟩, (hlexed t ht).overtakes⟩
    have hkinds : ∀ {e : Element} {r : Rule}, r ∈ macroIndex.statements.rulesFor e →
        r.kind = macroForm.kind := by
      intro e r hr
      have hrules : ∀ r ∈ macroIndex.statements.byWord.map (·.2) ++ macroIndex.statements.others,
          r.kind = macroForm.kind := by decide
      exact hrules r (mem_of_mem_rulesFor hr)
    -- what the only stage hands on are tokens and macros
    rcases hgrouped.flat_of_plain (K := (· = macroForm.kind)) rfl rfl hkinds hplain _ hn with
      hflat | ⟨m, hm, hkind, hchildren⟩
    · obtain ⟨⟨t, ht⟩, -⟩ := hflat
      cases ht
    · obtain ⟨hhead, hcs⟩ := Element.node.inj hm
      refine ⟨by rw [hhead]; exact hkind, by rw [hcs]; exact hchildren.1, fun e he => ?_⟩
      rw [hcs] at he
      exact (hchildren.2 e he).1

/-- What a macro is read into is the root of a source. -/
theorem isSource_of_macro (hlexed : ∀ t ∈ tokens, Lexer.Lexed t) (hlines : ∀ t ∈ tokens, t.HasLines)
    (hn : n.toElement ∈ (Scope.parseAll [.everywhere macroIndex] tokens).elements) :
    n.IsSource := by
  have hfault := fault_parseAll_macroIndex tokens
  obtain ⟨hkind, hne, htokens⟩ := tokens_of_macro hlexed hn
  exact ⟨.inr hkind, hne, fun t ht => hlines t (mem_of_mem_leaves hfault hn ht),
    fun e he => .inl (htokens e he), nodup_numbers_of_mem hfault hn⟩

/-- Behind a program there are comments only, so that it is the one node there. -/
theorem eq_of_mem_program {comments : List Token}
    (hn : n.toElement ∈ m.toElement :: comments.map Element.token) : n = m := by
  rcases mem_cons.mp hn with hn | hn
  · exact Node.eq_of_toElement_eq hn
  · obtain ⟨c, -, hc⟩ := mem_map.mp hn
    cases hc

/-- The one node that a program is read into is a program with terms and sections. -/
theorem isSource_of_program (hlexed : ∀ t ∈ tokens, Lexer.Lexed t)
    (hlines : ∀ t ∈ tokens, t.HasLines)
    (hfault : (Scope.parseAll programScopes tokens).fault = none)
    (hn : n.toElement ∈ (Scope.parseAll programScopes tokens).elements) : n.IsSource := by
  have hnumbers := nodup_numbers_of_mem hfault hn
  cases tokens with
  | nil => cases hn
  | cons t ts =>
    obtain ⟨m, helements, hread⟩ := program_of_parseAll hlexed hfault
    have hleaves : ∀ u ∈ leavesOfList n.children, u ∈ t :: ts :=
      fun u hu => mem_of_mem_leaves hfault hn hu
    rw [helements] at hn
    obtain rfl := eq_of_mem_program hn
    refine ⟨.inl hread.kind, ?_, fun u hu => hlines u (hleaves u hu), ?_, hnumbers⟩
    · obtain ⟨body, hlaid, -⟩ := hread.parts
      rw [hlaid.children, append_nil, nil_append]
      exact cons_ne_nil _ _
    · refine parts_of_programRead hread (fun u hu => hlexed u (mem_cons_of_mem t hu)) ?_
      exact fun u hu => hlexed u (hleaves u hu)

/-- The root of the tree of a source is a node that the source was read into, without a fault. -/
theorem mem_of_treeOf (h : Scan.treeOf source = .ok (.root n)) :
    (parse source).fault = none ∧ n.toElement ∈ (parse source).elements := by
  unfold Scan.treeOf at h
  dsimp only at h
  cases hfault : (parse source).fault with
  | some =>
    rw [hfault] at h
    cases h
  | none =>
  rw [hfault] at h
  cases hroot : (nodes (parse source).elements).find? isRoot with
  | none =>
    rw [hroot] at h
    cases h
  | some m =>
  rw [hroot] at h
  obtain rfl : m = n := SyntaxTree.root.inj (Except.ok.inj h)
  obtain ⟨e, he, hnode⟩ := mem_filterMap.mp (mem_of_find?_eq_some hroot)
  cases e with
  | token => cases hnode
  | node =>
    obtain rfl := Option.some.inj hnode
    exact ⟨rfl, he⟩

/-- **The tree of a source**, if it has a root, is one of words, terms and sections. -/
theorem isSource_of_treeOf (h : Scan.treeOf source = .ok (.root n)) : n.IsSource := by
  obtain ⟨hfault, hmem⟩ := mem_of_treeOf h
  obtain ⟨text, hparse⟩ := parse_cases source
  have hlexed := Lexer.lexed_lex text
  -- a token ends on a line of the source, and begins on one before
  have hlines : ∀ t ∈ Lexer.lex text, t.HasLines := by
    intro t ht
    have hcode : Lexer.Mode.code.OpenBefore 1 := trivial
    obtain ⟨k, l, -, hends⟩ := Lexer.endsOn_linesFrom hcode _ t ht
    obtain ⟨first, -, hfirst, -⟩ := hends.first
    exact ⟨by rw [hfirst]; rfl, by rw [hends.last]; rfl⟩
  rcases hparse with hparse | hparse
  · rw [hparse] at hmem
    exact isSource_of_macro hlexed hlines hmem
  · rw [hparse] at hmem hfault
    exact isSource_of_program hlexed hlines hfault hmem

/-! ### Lines -/

namespace Element

variable {get : Span → Option Int}

theorem isSome_of_isKnown {n : Option Int} (h : isKnown n = true) : n.isSome = true := by
  cases n with
  | none => cases h
  | some => rfl

theorem isSome_firstKnownOf (hes : es ≠ []) (h : ∀ e ∈ es, (e.firstKnown get).isSome = true) :
    (firstKnownOf get es).isSome = true := by
  induction es with
  | nil => exact absurd rfl hes
  | cons e es ih =>
    obtain ⟨he, hrest⟩ := forall_mem_cons.mp h
    cases es with
    | nil =>
      rw [firstKnownOf]
      exact he
    | cons =>
      rw [firstKnownOf]
      · split
        · exact he
        · exact ih (cons_ne_nil _ _) hrest
      · exact cons_ne_nil _ _

theorem isSome_lastKnownOf (hes : es ≠ []) (h : ∀ e ∈ es, (e.lastKnown get).isSome = true) :
    (lastKnownOf get es).isSome = true := by
  obtain ⟨e, es, rfl⟩ := exists_cons_of_ne_nil hes
  rw [lastKnownOf]
  split
  next hknown => exact isSome_of_isKnown hknown
  · exact h e mem_cons_self

/-- The lines are known on which the element begins and ends. -/
def HasLines (e : Element) : Prop :=
  e.span.beginLine.isSome = true ∧ e.span.endLine.isSome = true

theorem hasLines_token (h : t.HasLines) : (Element.token t).HasLines := by
  unfold HasLines span
  rw [firstKnown, lastKnown]
  exact h

/-- Where something is in a node and has lines, so has the node. -/
theorem hasLines_node (hne : n.children ≠ []) (h : ∀ e ∈ n.children, e.HasLines) :
    n.toElement.HasLines := by
  unfold HasLines span Node.toElement
  rw [firstKnown, lastKnown]
  exact ⟨isSome_firstKnownOf hne fun e he => (h e he).1,
    isSome_lastKnownOf hne fun e he => (h e he).2⟩

end Element

/-- So it is if tokens have lines, and the nodes in it have some where their tokens do. -/
theorem Node.hasLines_of_parts (hne : n.children ≠ [])
    (hlines : ∀ t ∈ leavesOfList n.children, t.HasLines)
    (hparts : ∀ e ∈ n.children, (∃ t, e = .token t) ∨ ∃ m : Node, e = m.toElement ∧
      ((∀ t ∈ leavesOfList m.children, t.HasLines) → m.toElement.HasLines)) :
    n.toElement.HasLines := by
  refine hasLines_node hne fun e he => ?_
  rcases hparts e he with ⟨t, rfl⟩ | ⟨m, rfl, hm⟩
  · exact hasLines_token (hlines t (mem_leavesOfList_of_token he))
  · exact hm fun t ht => hlines t (leavesOfList_subset_of_mem he ht)

theorem Node.IsTerm.hasLines (h : n.IsTerm) (hlines : ∀ t ∈ leavesOfList n.children, t.HasLines) :
    n.toElement.HasLines :=
  hasLines_of_parts h.filled hlines fun e he => .inl (h.tokens e he)

theorem Node.IsSection.hasLines (h : n.IsSection)
    (hlines : ∀ t ∈ leavesOfList n.children, t.HasLines) : n.toElement.HasLines :=
  hasLines_of_parts h.filled hlines fun e he =>
    (h.parts e he).imp_right fun ⟨m, hm, hterm⟩ => ⟨m, hm, hterm.hasLines⟩

theorem Node.IsSource.hasLines (h : n.IsSource) : n.toElement.HasLines :=
  hasLines_of_parts h.filled h.lines fun e he =>
    (h.parts e he).imp_right fun ⟨m, hm, hpart⟩ => ⟨m, hm, hpart.elim (·.hasLines) (·.hasLines)⟩

end EztScan
