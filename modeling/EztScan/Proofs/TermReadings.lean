import EztScan.Proofs.Declaring
import EztScan.Proofs.KeywordStatements

/-!
# What terms are read from

A term is a node whose words one pattern covers. In what is read of a source, every node is the
root, a section or a term (`termRead_of_parse`), and the code of a term is just what its rule has
read there (`TermRead`): the pattern of the rule fits its first word and uses all the others. For
patterns that are sequences of single words, with some that may be left out,
`Pattern.readsSeq_cons_eq_some` and `Pattern.readsSeq_maybe_eq_some` say what these words are.
-/

namespace EztScan

open List

/-! ### Words in a sequence -/

namespace Pattern

variable {p : Pattern} {ps : List Pattern} {e : Element} {es : List Element} {k : Nat}

theorem readsBehind_zero (goOn : Element → List Element → Option Nat) :
    readsBehind goOn 0 es = some k ↔ ∃ x xs m, es = x :: xs ∧ goOn x xs = some m ∧ k = m + 1 := by
  cases es with
  | nil => simp [readsBehind]
  | cons x xs =>
    change (goOn x xs).map (0 + 1 + ·) = some k ↔ _
    rw [Option.map_eq_some_iff]
    constructor
    · rintro ⟨m, hm, rfl⟩
      exact ⟨x, xs, m, rfl, hm, by omega⟩
    · rintro ⟨_, _, m, ⟨⟩, hm, rfl⟩
      exact ⟨m, hm, by omega⟩

theorem readsSeq_singleton_eq_some (hp : p.isElementary = true) :
    readsSeq [p] e es = some k ↔ (p.reads e []).isSome = true ∧ k = 0 := by
  rw [readsSeq_singleton, reads_of_isElementary hp]
  cases (p.reads e []).isSome <;> simp [eq_comm]

/-- A sequence that begins with an elementary pattern: that one fits the first word, and the rest
fits from the next one on. -/
theorem readsSeq_cons_eq_some (hp : p.isElementary = true) (hps : ps ≠ []) :
    readsSeq (p :: ps) e es = some k ↔
      (p.reads e []).isSome = true ∧ ∃ x xs m, es = x :: xs ∧ readsSeq ps x xs = some m ∧
        k = m + 1 := by
  rw [readsSeq, reads_of_isElementary hp, isMaybe_of_isOrdered (isOrdered_of_isElementary p hp)]
  cases (p.reads e []).isSome with
  | true => simpa [hps] using readsBehind_zero _
  | false => simp

/-- A sequence that begins with what may be left out. -/
theorem readsSeq_maybe_eq_some (hp : p.isElementary = true) (hps : ps ≠ []) :
    readsSeq (.maybe p :: ps) e es = some k ↔
      ((p.reads e []).isSome = true ∧ ∃ x xs m, es = x :: xs ∧ readsSeq ps x xs = some m ∧
        k = m + 1) ∨
        (p.reads e []).isSome = false ∧ readsSeq ps e es = some k := by
  rw [readsSeq, show (Pattern.maybe p).reads e es = p.reads e es from rfl, reads_of_isElementary hp]
  cases (p.reads e []).isSome with
  | true => simpa [hps] using readsBehind_zero _
  | false => simp [isMaybe]

end Pattern

namespace Language

open Element
variable {n m : Node} {r : Rule} {words : List Element}

/-! ### Nodes that were read as terms -/

/-- The pattern covers the node: it fits the first word and uses all the others. -/
def isCoveredBy (n : Node) (p : Pattern) : Bool :=
  match n.code with
  | [] => false
  | e :: es => p.reads e es == some es.length

theorem isCoveredBy_iff {p : Pattern} :
    isCoveredBy n p = true ↔ ∃ e es, n.code = e :: es ∧ p.reads e es = some es.length := by
  unfold isCoveredBy
  cases n.code with
  | nil | cons => simp

/-- The node is a term of the words that the rule has read. -/
structure TermRead (r : Rule) (n : Node) : Prop where
  shown : TermShown r n.code n
  reading : ∃ e es k, termAt e es = some (r, k) ∧ n.code = e :: es.take k

/-- The words of a term are what its rule has read. -/
theorem reading_of_mem_itemsFrom {α : Type} {face : α → Element} {words : List α} {k : Nat}
    {as : List α} (h : .term r words ∈ itemsFrom face k as) :
    ∃ e es m, termAt e es = some (r, m) ∧ words.map face = e :: es.take m := by
  induction as generalizing k with
  | nil => cases k <;> cases h
  | cons a as ih =>
    cases k with
    | succ => exact ih h
    | zero =>
      cases hterm : termAt (face a) (as.map face) with
      | none =>
        rw [itemsFrom_word hterm] at h
        rcases mem_cons.mp h with h | h
        · cases h
        · exact ih h
      | some found =>
        obtain ⟨q, m⟩ := found
        rw [itemsFrom_term hterm, ← itemsFrom_drop] at h
        rcases mem_cons.mp h with h | h
        · cases h
          exact ⟨_, _, m, hterm, by rw [map_cons, map_take]⟩
        · exact ih h

theorem termRead_of_mem_itemsFrom {α : Type} {face : α → Element}
    (hshown : TermShown r words n) {as : List α} {items : List α} (hwords : items.map face = words)
    (h : .term r items ∈ itemsFrom face 0 as) : TermRead r n := by
  obtain ⟨e, es, m, hterm, heq⟩ := reading_of_mem_itemsFrom h
  rw [hwords] at heq
  exact ⟨by rw [hshown.code_eq]; exact hshown, e, es, m, hterm, by rw [hshown.code_eq, heq]⟩

/-- All nodes in a section are terms. -/
theorem termRead_of_section {s : Section} (h : s.Read n) :
    ∀ m ∈ allNodes n.children, ∃ r, TermRead r m :=
  h.forall_mem_allNodes fun hitem hterm => ⟨_, termRead_of_mem_itemsFrom hterm (map_id _) hitem⟩

/-- All nodes in a program are sections and terms. -/
theorem termRead_of_program {t : Token} {ts : List Token} (h : ProgramRead t ts n) :
    ∀ m ∈ allNodes n.children, (∃ r ∈ sectionRules, m.head.kind = r.kind) ∨ ∃ r, TermRead r m := by
  refine h.forall_mem_allNodes (fun {r words m} hitem hterm => .inr ⟨r, ?_⟩) fun hs =>
    ⟨.inl ⟨_, hs.rule, hs.kind⟩, ?_⟩
  · have hwords : (words.map Piece.loose).map Piece.face = words := by
      rw [map_map]
      exact map_id words
    exact termRead_of_mem_itemsFrom hterm hwords hitem
  · exact fun m hm => .inr (termRead_of_section hs m hm)

/-- The words of a node are among those of the element that it is in. -/
theorem leaves_subset_of_mem (e : Element) :
    ∀ m ∈ allNodes [e], leavesOfList m.children ⊆ e.leaves := by
  induction e using Element.induction with
  | token =>
    rw [allNodes_token]
    exact forall_mem_nil _
  | node h cs ih =>
    rw [leaves_node, show Element.node h cs = Node.toElement ⟨h, cs⟩ from rfl, allNodes_node]
    refine forall_mem_cons.mpr ⟨Subset.refl _, fun m hm => ?_⟩
    obtain ⟨c, hc, hm⟩ := exists_of_mem_allNodes hm
    exact fun t ht => mem_leavesOfList hc (ih c hc m hm ht)

/-- **The terms of a source** are read by their rules, from words of the source. -/
theorem termRead_of_parse {source : String} (hfault : (parse source).fault = none)
    (hn : n ∈ allNodes (parse source).elements) (hterm : n.head.kind.family = .term) :
    (∃ r, TermRead r n) ∧ ∀ t ∈ leavesOfList n.children, Lexer.Lexed t := by
  obtain ⟨text, hparse⟩ := parse_cases source
  have hlexed := Lexer.lexed_lex text
  generalize Lexer.lex text = tokens at hparse hlexed
  rcases hparse with hparse | hparse
  · -- a macro has no terms
    rw [hparse, allNodes_eq_flatMap] at hn
    obtain ⟨x, hx, hn⟩ := mem_flatMap.mp hn
    obtain ⟨hkind, -, htokens⟩ := tokens_of_macro hlexed (mem_nodes.mp hx)
    rw [allNodes_of_tokens htokens] at hn
    obtain rfl := mem_singleton.mp hn
    rw [hkind] at hterm
    cases hterm
  · rw [hparse] at hn hfault
    obtain ⟨e, he, hne⟩ := exists_of_mem_allNodes hn
    refine ⟨?_, fun t ht => hlexed t
      (leaves_subset_tokens hfault (mem_leavesOfList he (leaves_subset_of_mem e n hne ht)))⟩
    cases tokens with
    | nil => cases hn
    | cons t ts =>
      obtain ⟨root, helements, hread⟩ := program_of_parseAll hlexed hfault
      have hcomments : allNodes ((trailingComments ts).map .token) = [] :=
        allNodes_of_tokens fun _ => exists_token_of_mem_map
      rw [helements, allNodes_cons, allNodes_node, hcomments, append_nil] at hn
      rcases mem_cons.mp hn with rfl | hn
      · rw [hread.kind] at hterm
        cases hterm
      · rcases termRead_of_program hread n hn with ⟨r, hr, hkind⟩ | hread
        · have hfamilies : ∀ r ∈ sectionRules, r.kind.family = .statement := by decide
          rw [hkind, hfamilies r hr] at hterm
          cases hterm
        · exact hread

/-- The operands of a term are what its rule notes of its words. -/
theorem operand?_of_shown (h : TermShown r words n) (role : Role) :
    n.operand? role = (r.completion.note ⟨{ kind := r.kind }, words⟩).1.operand? role := by
  unfold Node.operand?
  rw [h.operands]
  rfl

end Language

end EztScan
