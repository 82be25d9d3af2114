import EztScan.Proofs.Layout
import EztScan.Proofs.ProgramShape

/-!
# The sections of a program

The second stage reads the tokens of a program from left to right. Each one either begins a section,
together with what belongs to the opening, or ends the open one, or goes on with it, or stands
alone. `divide` does so on a plain list and keeps the code only: it gives the sections and the loose
words that a stage has to come to.

That the stage does come to them is shown move by move: what a move hands on are the pieces that
`divide` gives for the elements that were taken (`move_divides`). Hence the code of what the stage
hands on shows the pieces of its input (`grouped_divides`).
-/

namespace EztScan.Language

open Element Grouping List Pattern

variable {es rest taken : List Element} {r : Rule} {e : Element} {d : Desk}
variable {k : Nat} {state : Option (Section × Nat)} {e' : Element} {d' : Desk} {out : List Element}

/-! ### Sections by their code -/

/-- The code of a section. The opening may begin with a blank or a comment, so the element that it
begins with is kept, too. -/
structure Section where
  rule : Rule
  first : Element
  opening : List Element
  body : List Element := []
  closing : List Element := []

namespace Section

/-- The section that an element begins. -/
def start (r : Rule) (e : Element) : Section where
  rule := r
  first := e
  opening := code [e]

/-- The section with more elements in its opening. -/
def unfold (s : Section) (es : List Element) : Section :=
  { s with opening := s.opening ++ code es }

/-- The section with more elements in its inner part. -/
def extend (s : Section) (es : List Element) : Section :=
  { s with body := s.body ++ code es }

/-- The section with the elements that end it. -/
def close (s : Section) (es : List Element) : Section :=
  { s with closing := code es }

/-- All code of the section. -/
def words (s : Section) : List Element :=
  s.opening ++ s.body ++ s.closing

end Section

/-- A section, or a word that belongs to none. -/
inductive Piece where
  | loose (e : Element)
  | part (s : Section)

/-! ### Dividing a list of elements -/

/-- The rule of the section that an element begins in front of some code, and how much of that code
is in the opening. -/
def sectionAt (e : Element) (es : List Element) : Option (Rule × Nat) :=
  firstReads Rule.opening (sectionIndex.statements.rulesFor e) e es

/-- The rules of sections that begin with a word of their own. -/
def keywords : List (String × Rule) :=
  [("file", file), ("job", job), ("sort", sort), ("report", report)]

/-- The rule of the section that an element begins by its own text. -/
def keywordRule (e : Element) : Option (Rule × Nat) :=
  (keywords.find? fun k => e.spells k.1).map fun k => (k.2, 0)

/-- The rule of the section that any element begins in front of some code: a field if a letter for
its place comes next, and a procedure if it is `PROC`, maybe behind a dot. -/
def openerAt : List Element → Option (Rule × Nat)
  | [] => none
  | x :: xs =>
    if ["w", "f", "c", "s"].any x.spells then some (data, 1)
    else if x.spells "." then (if xs.head?.any (·.spells "proc") then some (procedure, 2) else none)
    else if x.spells "proc" then some (procedure, 1)
    else none

/-- The ways to tell a field or a procedure by the code that comes next. -/
theorem openerAt_cases (h : openerAt es = some (r, k)) :
    (r = data ∧ k = 1 ∧ ∃ x xs, es = x :: xs ∧ ["w", "f", "c", "s"].any x.spells = true) ∨
    (r = procedure ∧ k = 2 ∧ ∃ x y ys, es = x :: y :: ys ∧ x.spells "." = true ∧
      y.spells "proc" = true) ∨
    (r = procedure ∧ k = 1 ∧ ∃ x xs, es = x :: xs ∧ x.spells "proc" = true) := by
  cases es with
  | nil => cases h
  | cons x xs =>
    rw [openerAt] at h
    -- in the order in which the words are tried
    by_cases hletter : ["w", "f", "c", "s"].any x.spells = true
    · rw [if_pos hletter] at h
      obtain ⟨rfl, rfl⟩ := Prod.mk.inj (Option.some.inj h)
      exact .inl ⟨rfl, rfl, x, xs, rfl, hletter⟩
    rw [if_neg hletter] at h
    by_cases hdot : x.spells "." = true
    · rw [if_pos hdot] at h
      cases xs with
      | nil => cases h
      | cons y ys =>
        change (if y.spells "proc" then some (procedure, 2) else none) = some (r, k) at h
        by_cases hproc : y.spells "proc" = true
        · rw [if_pos hproc] at h
          obtain ⟨rfl, rfl⟩ := Prod.mk.inj (Option.some.inj h)
          exact .inr (.inl ⟨rfl, rfl, x, y, ys, rfl, hdot, hproc⟩)
        · rw [if_neg hproc] at h
          cases h
    rw [if_neg hdot] at h
    by_cases hproc : x.spells "proc" = true
    · rw [if_pos hproc] at h
      obtain ⟨rfl, rfl⟩ := Prod.mk.inj (Option.some.inj h)
      exact .inr (.inr ⟨rfl, rfl, x, xs, rfl, hproc⟩)
    · rw [if_neg hproc] at h
      cases h

/-- The rules without a word of their own look at the next code. -/
theorem firstReads_data_procedure (e : Element) (es : List Element) :
    firstReads Rule.opening [data, procedure] e es = openerAt es := by
  cases es with
  | nil => rfl
  | cons x xs =>
    -- the two rules are read one by one, and the first one goes before the second
    have hdata : readsRule Rule.opening e (x :: xs) data =
        if ["w", "f", "c", "s"].any x.spells then some (data, 1) else none := by
      have hletters : (oneOf [.word "W", .word "F", .word "C", .word "S"]).reads x xs =
          if ["w", "f", "c", "s"].any x.spells then some 0 else none := by
        have hw : Text.lower "W" = "w" := by decide
        have hf : Text.lower "F" = "f" := by decide
        have hc : Text.lower "C" = "c" := by decide
        have hs : Text.lower "S" = "s" := by decide
        simp only [reads_oneOf, readsOneOf, reads_word hw, reads_word hf, reads_word hc,
          reads_word hs, any_cons, any_nil]
        by_cases hw : x.spells "w" = true <;> by_cases hf : x.spells "f" = true <;>
          by_cases hc : x.spells "c" = true <;> simp [*]
      change (readsSeq [.any, .oneOf [.word "W", .word "F", .word "C", .word "S"]] e (x :: xs)).map
        (data, ·) = _
      rw [readsSeq_any, readsSeq_singleton, hletters]
      cases ["w", "f", "c", "s"].any x.spells <;> rfl
    have hprocedure : readsRule Rule.opening e (x :: xs) procedure =
        if x.spells "." then (if xs.head?.any (·.spells "proc") then some (procedure, 2) else none)
        else if x.spells "proc" then some (procedure, 1) else none := by
      have hdot : Text.lower "." = "." := by decide
      have hproc : Text.lower "PROC" = "proc" := by decide
      change (readsSeq [.any, .maybe (.word "."), .word "PROC"] e (x :: xs)).map (procedure, ·) = _
      have hmaybe : (maybe (.word ".")).reads x xs = if x.spells "." then some 0 else none :=
        reads_word hdot x xs
      rw [readsSeq_any, readsSeq, hmaybe]
      -- the dot in front of the word may be missing
      by_cases hx : x.spells "." = true
      · rw [if_pos hx, if_pos hx]
        cases xs with
        | nil => rfl
        | cons y ys =>
          change ((((readsSeq [.word "PROC"] y ys).map (0 + 1 + ·)).map (1 + ·)).map
            (procedure, ·)) =
            if y.spells "proc" then some (procedure, 2) else none
          rw [readsSeq_singleton, reads_word hproc]
          by_cases hy : y.spells "proc" = true <;> simp [hy]
      · rw [if_neg hx, if_neg hx]
        change ((readsSeq [.word "PROC"] x xs).map (1 + ·)).map (procedure, ·) = _
        rw [readsSeq_singleton, reads_word hproc]
        by_cases hy : x.spells "proc" = true <;> simp [hy]
    rw [firstReads_cons, firstReads_cons, hdata, hprocedure, openerAt]
    by_cases hx : ["w", "f", "c", "s"].any x.spells = true
    · rw [if_pos hx, if_pos hx]
      rfl
    · rw [if_neg hx, if_neg hx, Option.none_or]
      exact Option.or_none

/-- Under its text, an element finds the rule that begins with that word, unless it is a string. -/
theorem firstReads_keywords {ks : List (String × Rule)}
    (hks : ∀ k ∈ ks, ∃ word, k.2.opening = some (.word word) ∧ Text.lower word = k.1)
    {text : String} (htext : e.lowerText = some text) (es : List Element) :
    firstReads Rule.opening ((ks.filter (·.1 == text)).map (·.2)) e es =
      (ks.find? fun k => e.spells k.1).map fun k => (k.2, 0) := by
  induction ks with
  | nil => rfl
  | cons k ks ih =>
    obtain ⟨⟨word, hopening, hword⟩, hks⟩ := forall_mem_cons.mp hks
    have hreads : readsRule Rule.opening e es k.2 =
        (if e.spells k.1 then some 0 else none).map (k.2, ·) := by
      unfold readsRule
      rw [hopening, ← reads_word hword e es]
      rfl
    -- the first rule whose word the element spells is the one that is found
    by_cases hspells : e.spells k.1 = true
    · have hk : (k.1 == text) = true :=
        beq_iff_eq.mpr (Option.some.inj ((lowerText_of_spells hspells).symm.trans htext))
      have hfind : (k :: ks).find? (fun k => e.spells k.1) = some k :=
        find?_cons_of_pos hspells
      rw [filter_cons, if_pos hk, map_cons, firstReads_cons, hreads, if_pos hspells, hfind]
      rfl
    · rw [if_neg hspells] at hreads
      have hfind : (k :: ks).find? (fun k => e.spells k.1) = ks.find? fun k => e.spells k.1 :=
        find?_cons_of_neg hspells
      rw [hfind, ← ih hks]
      -- filed under the text or not, the rule does not fit
      by_cases hk : (k.1 == text) = true
      · rw [filter_cons, if_pos hk, map_cons, firstReads_cons, hreads, Option.map_none,
          Option.none_or]
      · rw [filter_cons, if_neg hk]

/-- **What begins a section**: a word of its own, or any element in front of the words that say
so. -/
theorem sectionAt_eq (e : Element) (es : List Element) :
    sectionAt e es = (keywordRule e).or (openerAt es) := by
  have hks : ∀ k ∈ keywords, ∃ word, k.2.opening = some (.word word) ∧ Text.lower word = k.1 := by
    have hfile : Text.lower "FILE" = "file" := by decide
    have hjob : Text.lower "JOB" = "job" := by decide
    have hsort : Text.lower "SORT" = "sort" := by decide
    have hreport : Text.lower "REPORT" = "report" := by decide
    simp only [keywords, forall_mem_cons]
    exact ⟨⟨_, rfl, hfile⟩, ⟨_, rfl, hjob⟩, ⟨_, rfl, hsort⟩, ⟨_, rfl, hreport⟩, forall_mem_nil _⟩
  unfold sectionAt Candidates.rulesFor
  -- without a text only the rules that look at the next code are tried
  cases htext : e.lowerText with
  | none =>
    have hnone : keywordRule e = none := by
      unfold keywordRule
      rw [find?_eq_none.mpr fun k _ hspells =>
        nomatch (lowerText_of_spells hspells).symm.trans htext]
      rfl
    rw [hnone, Option.none_or]
    exact firstReads_data_procedure e es
  | some =>
    unfold firstReads
    rw [findSome?_append]
    exact congrArg₂ Option.or (firstReads_keywords hks htext es) (firstReads_data_procedure e es)

/-- Does the element end a section with this rule? -/
def closes (r : Rule) (e : Element) : Bool :=
  (r.closing.bind fun p => p.reads e []).isSome

/-- The pieces that some elements make. The section that is open comes with the number of code
elements that its opening still has to take in. -/
def divide : Option (Section × Nat) → List Element → List Piece
  | none, [] => []
  | some (s, _), [] => [.part s]
  | none, e :: es =>
    match sectionAt e (code es) with
    | some (r, k) => divide (some (.start r e, k)) es
    | none => (code [e]).map .loose ++ divide none es
  | some (s, k + 1), e :: es => divide (some (s.unfold [e], if e.isCode then k else k + 1)) es
  | some (s, 0), e :: es =>
    if closes s.rule e then .part (s.close [e]) :: divide none es
    else
      match sectionAt e (code es) with
      | some (r, k) => .part s :: divide (some (.start r e, k)) es
      | none => divide (some (s.extend [e], 0)) es

section Divide

variable {s : Section} {e : Element} {es : List Element} {r : Rule} {k : Nat}

theorem divide_begin (h : sectionAt e (code es) = some (r, k)) :
    divide none (e :: es) = divide (some (.start r e, k)) es := by
  rw [divide, h]

theorem divide_loose (h : sectionAt e (code es) = none) :
    divide none (e :: es) = (code [e]).map .loose ++ divide none es := by
  rw [divide, h]

theorem divide_close (hclose : closes s.rule e = true) :
    divide (some (s, 0)) (e :: es) = .part (s.close [e]) :: divide none es := by
  rw [divide, if_pos hclose]

theorem divide_interrupt (hopen : closes s.rule e = false)
    (h : sectionAt e (code es) = some (r, k)) :
    divide (some (s, 0)) (e :: es) = .part s :: divide (some (.start r e, k)) es := by
  rw [divide, hopen, if_neg Bool.false_ne_true, h]

theorem divide_extend (hopen : closes s.rule e = false) (h : sectionAt e (code es) = none) :
    divide (some (s, 0)) (e :: es) = divide (some (s.extend [e], 0)) es := by
  rw [divide, hopen, if_neg Bool.false_ne_true, h]

end Divide

theorem Section.unfold_cons (s : Section) (e : Element) (es : List Element) :
    (s.unfold [e]).unfold es = s.unfold (e :: es) := by
  unfold Section.unfold
  rw [append_assoc, ← code_append]
  rfl

theorem Section.unfold_nil (s : Section) : s.unfold [] = s := by
  unfold Section.unfold
  rw [show code [] = [] from rfl, append_nil]

/-- The rest of an opening is taken in. -/
theorem divide_unfold (s : Section) (htaken : taken = upTo k (taken ++ rest))
    (hk : (code taken).length = k) :
    divide (some (s, k)) (taken ++ rest) = divide (some (s.unfold taken, 0)) rest := by
  induction taken generalizing s k with
  | nil =>
    obtain rfl : 0 = k := hk
    rw [s.unfold_nil]
    rfl
  | cons e taken ih =>
    cases k with
    | zero =>
      rw [upTo_zero] at htaken
      exact nomatch htaken
    | succ k =>
      rw [cons_append] at htaken ⊢
      have hrest := (List.cons.inj htaken).2
      -- an element that is no code does not count
      have hlength : (code taken).length = if e.isCode then k else k + 1 := by
        cases he : e.isCode with
        | true =>
          rw [code_cons_of_isCode he, length_cons] at hk
          exact Nat.succ.inj hk
        | false =>
          rw [code_cons_of_not_isCode he] at hk
          exact hk
      change divide (some (s.unfold [e], if e.isCode then k else k + 1)) (taken ++ rest) = _
      rw [ih (s.unfold [e]) hrest hlength, s.unfold_cons]

theorem Section.extend_of_not_isCode (s : Section) (h : e.isCode = false) : s.extend [e] = s := by
  unfold Section.extend
  rw [code_cons_of_not_isCode h, show code [] = [] from rfl, append_nil]

/-- **What holds of sections.** It holds of the sections that elements are divided into if it holds
where a section begins, and goes on to hold while the opening and the inner part of the section
grow. `I s k es` is said of a section that lacks `k` code elements of its opening, in front of `es`,
and `F s` of a section that is complete. -/
theorem of_mem_divide {I : Section → Nat → List Element → Prop} {F : Section → Prop}
    {all : List Element}
    (hstart : ∀ {e es r k}, e :: es <:+ all → sectionAt e (code es) = some (r, k) →
      I (.start r e) k es)
    (hunfold : ∀ {s k e es}, I s (k + 1) (e :: es) →
      I (s.unfold [e]) (if e.isCode then k else k + 1) es)
    (hextend : ∀ {s e es}, I s 0 (e :: es) → I (s.extend [e]) 0 es)
    (hclose : ∀ {s e es}, closes s.rule e = true → I s 0 (e :: es) → F (s.close [e]))
    (hend : ∀ {s k es}, k = 0 ∨ es = [] → I s k es → F s) {s : Section} (hes : es <:+ all)
    (hstate : ∀ s₀ k, state = some (s₀, k) → I s₀ k es) (h : .part s ∈ divide state es) : F s := by
  have hopen : ∀ {s₀ : Section} {k : Nat} {es : List Element}, I s₀ k es →
      ∀ s₁ j, some (s₀, k) = some (s₁, j) → I s₁ j es := by
    rintro s₀ k es hI s₁ j ⟨⟩
    exact hI
  -- over the elements, with the section that is open moving along in `state`
  induction es generalizing state with
  | nil =>
    cases state with
    | none => exact absurd h not_mem_nil
    | some p =>
      obtain ⟨s₀, k⟩ := p
      rw [Piece.part.inj (mem_singleton.mp h)]
      exact hend (.inr rfl) (hstate s₀ k rfl)
  | cons e es ih =>
    have hrest : es <:+ all := (suffix_cons e es).trans hes
    have hidle : .part s ∈ divide none es → F s := ih hrest fun _ _ h => nomatch h
    cases state with
    | none =>
      cases hat : sectionAt e (code es) with
      | some =>
        rw [divide_begin hat] at h
        exact ih hrest (hopen (hstart hes hat)) h
      | none =>
        rw [divide_loose hat] at h
        rcases mem_append.mp h with h | h
        · obtain ⟨x, -, hx⟩ := mem_map.mp h
          cases hx
        · exact hidle h
    | some p =>
      obtain ⟨s₀, k⟩ := p
      have hI := hstate s₀ k rfl
      cases k with
      | succ =>
        rw [divide] at h
        exact ih hrest (hopen (hunfold hI)) h
      | zero =>
        -- the opening is complete: the section ends here, or is cut off, or goes on
        cases hcloses : closes s₀.rule e with
        | true =>
          rw [divide_close hcloses] at h
          rcases mem_cons.mp h with h | h
          · rw [Piece.part.inj h]
            exact hclose hcloses hI
          · exact hidle h
        | false =>
          cases hat : sectionAt e (code es) with
          | some =>
            rw [divide_interrupt hcloses hat] at h
            rcases mem_cons.mp h with h | h
            · rw [Piece.part.inj h]
              exact hend (.inl rfl) hI
            · exact ih hrest (hopen (hstart hes hat)) h
          | none =>
            rw [divide_extend hcloses hat] at h
            exact ih hrest (hopen (hextend hI)) h

/-! ### Nodes that show a section -/

/-- The rules of sections. -/
def sectionRules : List Rule :=
  sectionIndex.statements.byWord.map (·.2) ++ sectionIndex.statements.others

theorem areAll_isOrdered_sections : areAll isOrdered Rule.opening sectionRules = true := by
  decide

theorem areAll_ignoresNodes_sections : areAll ignoresNodes Rule.opening sectionRules = true := by
  decide

theorem areAll_ignoresNodes_closings : areAll ignoresNodes Rule.closing sectionRules = true := by
  decide

theorem areAll_isElementary_closings : areAll isElementary Rule.closing sectionRules = true := by
  decide

/-- A section takes in the elements that end it, and ends where another one begins. -/
theorem takesEnd_and_yields (hr : r ∈ sectionRules) : r.takesEnd = true ∧ r.yields = true := by
  have hall : sectionRules.all (fun r => r.takesEnd && r.yields) = true := rfl
  simpa using all_eq_true.mp hall r hr

/-- What ends a section is the word for the end of a procedure. -/
theorem spells_of_closes (hr : r ∈ sectionRules) (h : closes r e = true) :
    e.spells "end-proc" = true := by
  have hword : Text.lower "END-PROC" = "end-proc" := by decide
  have hclosings : ∀ r ∈ sectionRules, r.closing = some .never ∨
      r.closing = some (.word "END-PROC") := by
    simp only [sectionRules, sectionIndex, map_cons, map_nil, cons_append, nil_append,
      forall_mem_cons]
    exact ⟨.inl rfl, .inl rfl, .inl rfl, .inl rfl, .inl rfl, .inr rfl, forall_mem_nil _⟩
  unfold closes at h
  rcases hclosings r hr with hclosing | hclosing
  · rw [hclosing] at h
    exact nomatch h
  · rw [hclosing] at h
    change ((word "END-PROC").reads e []).isSome = true at h
    rw [reads_word hword] at h
    by_contra he
    rw [if_neg he] at h
    exact nomatch h

theorem sectionAt_congr {es' : List Element} (he : Alike e e') (hes : Forall₂ Alike es es') :
    sectionAt e es = sectionAt e' es' := by
  unfold sectionAt
  exact firstReads_congr areAll_ignoresNodes_sections he hes

/-- What ends a section says something about one element only, which `closes` tells. -/
theorem exists_closing (hr : r ∈ sectionRules) : ∃ p, r.closing = some p ∧ p.isOrdered = true ∧
    ∀ e es, p.reads e es = if closes r e then some 0 else none := by
  obtain ⟨p, hp, helementary⟩ := exists_of_areAll areAll_isElementary_closings hr
  refine ⟨p, hp, p.isOrdered_of_isElementary helementary, fun e es => ?_⟩
  unfold closes
  rw [hp]
  exact reads_of_isElementary helementary e es

theorem closes_congr (hr : r ∈ sectionRules) (he : Alike e e') : closes r e = closes r e' := by
  obtain ⟨p, hp, hignores⟩ := exists_of_areAll areAll_ignoresNodes_closings hr
  unfold closes
  rw [hp]
  exact congrArg Option.isSome (p.reads_congr hignores he .nil)

/-- A node is made of these parts and has the code of the section in them. -/
structure Section.Parts (s : Section) (n : Node) (comments opening body closing : List Element) :
    Prop
    extends n.Laid comments opening body closing where
  kind : n.head.kind = s.rule.kind
  tokens : ∀ e ∈ n.children, ∃ t, e = .token t
  first : opening.head? = some s.first
  opening_code : code opening = s.opening
  body_code : code body = s.body
  closing_code : code closing = s.closing

namespace Section

variable {s : Section} {n : Node} {comments opening body closing : List Element}

theorem Parts.code (h : s.Parts n comments opening body closing) : n.code = s.words := by
  rw [h.toLaid.code, h.opening_code, h.body_code, h.closing_code]
  rfl

/-- The node shows the section, of which nothing is missing. -/
structure Shown (s : Section) (n : Node) : Prop where
  rule : s.rule ∈ sectionRules
  operands : n.head.operands = s.rule.operandsOf s.words
  complete : s.rule.faultOf s.words = none
  parts : ∃ comments opening body closing, s.Parts n comments opening body closing

/-- The section is open as this node, which ends with these elements as its closing. -/
structure Open (s : Section) (o : OpenNode) (closing : List Element) : Prop where
  mem : s.rule ∈ sectionRules
  rule : o.rule = s.rule
  operands : o.head.operands = []
  parts : ∃ comments opening body, s.Parts o.node comments opening body closing

variable {o o' : OpenNode}

/-- A section begins with the comments that wait, an element, and what belongs to the opening. -/
theorem open_begin (hr : r ∈ sectionRules) (number : Nat) (hc : ∀ x ∈ comments, x.isCode = false)
    (htokens : ∀ x ∈ comments ++ e :: taken, ∃ t, x = .token t) :
    ((start r e).unfold taken).Open (.begin r number .open comments (e :: taken)) [] := by
  refine ⟨hr, rfl, rfl, comments, e :: taken, [], ⟨?_, rfl, hc⟩, rfl, ?_, rfl, ?_, rfl, rfl⟩
  · rw [OpenNode.children_begin, append_nil, append_nil]
  · rw [OpenNode.children_begin]
    exact htokens
  · exact code_append [e] taken

/-- The section goes on with an element, and with the comments that waited for it. -/
theorem Open.push (h : s.Open o []) (hc : ∀ x ∈ comments, x.isCode = false)
    (htokens : ∀ x ∈ comments ++ [e], ∃ t, x = .token t) :
    (s.extend [e]).Open ((o.pushAll comments).push e) [] := by
  obtain ⟨first, opening, body, hparts⟩ := h.parts
  have hchildren : ((o.pushAll comments).push e).node.children =
      o.node.children ++ (comments ++ [e]) := by
    rw [OpenNode.node_push, OpenNode.node_pushAll, append_assoc]
  refine ⟨h.mem, h.rule, h.operands, first, opening, body ++ (comments ++ [e]),
    ⟨?_, hparts.sections, hparts.idle⟩,
    hparts.kind, ?_, hparts.first, hparts.opening_code, ?_, hparts.closing_code⟩
  · rw [hchildren, hparts.children]
    simp only [append_nil, append_assoc]
  · rw [hchildren]
    exact forall_mem_append.mpr ⟨hparts.tokens, htokens⟩
  · change code (body ++ (comments ++ [e])) = s.body ++ code [e]
    rw [code_append, code_append, code_eq_nil hc, hparts.body_code, nil_append]

/-- The section ends with an element. The comments that waited belong to its inner part. -/
theorem Open.close (h : s.Open o []) (hc : ∀ x ∈ comments, x.isCode = false)
    (htokens : ∀ x ∈ comments ++ [e], ∃ t, x = .token t) :
    (s.close [e]).Open (((o.pushAll comments).setClosing [e].length).pushAll [e]) [e] := by
  obtain ⟨first, opening, body, hparts⟩ := h.parts
  have hchildren : (((o.pushAll comments).setClosing [e].length).pushAll [e]).node.children =
      o.node.children ++ (comments ++ [e]) := by
    rw [OpenNode.node_pushAll, OpenNode.children_setClosing, OpenNode.node_pushAll, append_assoc]
  have hsections : (((o.pushAll comments).setClosing [e].length).pushAll [e]).node.head.sections =
      { o.node.head.sections with closing := [e].length } := rfl
  refine ⟨h.mem, h.rule, h.operands, first, opening, body ++ comments, ⟨?_, ?_, hparts.idle⟩,
    hparts.kind, ?_,
    hparts.first, hparts.opening_code, ?_, rfl⟩
  · rw [hchildren, hparts.children]
    simp only [append_nil, append_assoc]
  · rw [hsections, hparts.sections]
  · rw [hchildren]
    exact forall_mem_append.mpr ⟨hparts.tokens, htokens⟩
  · change code (body ++ comments) = s.body
    rw [code_append, code_eq_nil hc, hparts.body_code, append_nil]

/-- What is complete shows its section. -/
theorem Open.shown (h : s.Open o closing) (hc : o.complete = (o', none)) : s.Shown o'.node := by
  obtain ⟨comments, opening, body, hparts⟩ := h.parts
  obtain ⟨hnode, hfault⟩ := OpenNode.node_complete h.operands hc
  rw [h.rule, hparts.code] at hnode hfault
  rw [hnode]
  exact ⟨h.mem, rfl, hfault.symm, comments, opening, body, closing,
    { hparts with }⟩

/-- A section is ended by the one element that `closes` tells. -/
theorem Open.of_takes (h : s.Open o closing) (htakes : Pattern.Takes o.rule.closing e taken rest) :
    taken = [] ∧ closes s.rule e = true := by
  obtain ⟨p, hp, hordered, hcloses⟩ := exists_closing h.mem
  rw [h.rule, hp] at htakes
  obtain ⟨k, hreads, htaken, -⟩ := reads_of_takes hordered htakes
  rw [hcloses] at hreads
  cases hsome : closes s.rule e with
  | true =>
    rw [hsome] at hreads
    obtain rfl : 0 = k := Option.some.inj hreads
    rw [upTo_zero] at htaken
    exact ⟨htaken, rfl⟩
  | false =>
    rw [hsome] at hreads
    exact nomatch hreads

/-- An element that does not end the open section is none that `closes` tells. -/
theorem Open.of_staysOpen (h : s.Open o closing) (hopen : StaysOpen o e rest) :
    closes s.rule e = false := by
  obtain ⟨p, hp, hordered, hcloses⟩ := exists_closing h.mem
  unfold StaysOpen at hopen
  rw [h.rule, hp] at hopen
  have hreads := reads_of_refuses hordered hopen
  rw [hcloses] at hreads
  exact Bool.eq_false_iff.mpr fun hsome => by rw [if_pos hsome] at hreads; cases hreads

end Section

/-! ### What the stage does -/

/-- An element that is handed on shows a piece. -/
inductive Piece.Shown : Element → Piece → Prop
  | loose (t : Token) : Shown (.token t) (.loose (.token t))
  | part {s : Section} {n : Node} (h : s.Shown n) : Shown n.toElement (.part s)

/-- The open statement is the open section, whose opening is complete. -/
inductive Stands : Option OpenNode → Option (Section × Nat) → Prop
  | idle : Stands none none
  | busy {s : Section} {o : OpenNode} (h : s.Open o []) : Stands (some o) (some (s, 0))

/-- The desk of the second stage and the state in which a list of elements is divided. -/
structure Divides (d : Desk) (state : Option (Section × Nat)) : Prop where
  stack : d.stack = []
  comments : ∀ x ∈ d.comments, x.isCode = false
  statement : Stands d.statement state

theorem Divides.of_none (h : Divides d state) (hd : d.statement = none) : state = none := by
  have hstands := h.statement
  rw [hd] at hstands
  cases hstands
  rfl

theorem Divides.of_some {o : OpenNode} (h : Divides d state) (hd : d.statement = some o) :
    ∃ s, state = some (s, 0) ∧ s.Open o [] := by
  have hstands := h.statement
  rw [hd] at hstands
  cases hstands with
  | busy hopen => exact ⟨_, rfl, hopen⟩

theorem Divides.await (h : Divides d state) (he : e.isCode = false) :
    Divides { d with comments := d.comments ++ [e] } state :=
  ⟨h.stack, forall_mem_append.mpr ⟨h.comments, forall_mem_singleton.mpr he⟩, h.statement⟩

/-- Tokens that are handed on show themselves. -/
theorem shown_code (h : ∀ e ∈ es, ∃ t, e = .token t) :
    Forall₂ Piece.Shown (code es) ((code es).map .loose) := by
  have hcode : ∀ e ∈ code es, ∃ t, e = .token t := fun e he => h e (mem_of_mem_filter he)
  generalize code es = cs at hcode
  induction cs with
  | nil => exact .nil
  | cons e cs ih =>
    obtain ⟨⟨t, rfl⟩, hcs⟩ := forall_mem_cons.mp hcode
    exact .cons (.loose t) (ih hcs)

variable {regroup : Node → Work Ledger Node}

/-- **A move makes pieces**: what is handed on shows the pieces that come of the elements that were
taken. -/
theorem move_divides {rest' : List Element}
    (h : Move sectionIndex regroup k d e rest out d' rest' k') (hd : Divides d state)
    (htokens : ∀ x ∈ e :: rest, ∃ t, x = .token t) :
    ∃ state' pieces, Divides d' state' ∧ Forall₂ Piece.Shown (code out) pieces ∧
      divide state (e :: rest) = pieces ++ divide state' rest' := by
  have hs := hd.stack
  have hc := hd.comments
  have hcomments : ∀ x ∈ d.comments, ∃ t, x = .token t :=
    fun x hx => (isPlain_of_not_isCode (hc x hx)).1
  have hordered := areAll_rulesFor areAll_isOrdered_sections e
  -- what begins a section is read as `sectionAt` says, and its opening is taken in
  have hbegin : ∀ {r : Rule} (number : Nat) {taken rest' : List Element}, rest = taken ++ rest' →
      FirstFit Rule.opening (sectionIndex.statements.rulesFor e) e r taken rest' →
      ∃ k, sectionAt e (code rest) = some (r, k) ∧
        divide (some (.start r e, k)) rest = divide
          (some ((Section.start r e).unfold taken, 0)) rest' ∧
        ((Section.start r e).unfold taken).Open (.begin r number .open d.comments (e :: taken))
          [] := by
    intro r number taken rest' hrest hr
    obtain ⟨k, hk, htaken, hlength⟩ := firstReads_of_firstFit hordered hr
    subst hrest
    refine ⟨k, hk, divide_unfold _ htaken hlength, Section.open_begin ?_ number hc ?_⟩
    · exact mem_of_mem_rulesFor hr.mem
    · rw [← cons_append, forall_mem_append] at htokens
      exact forall_mem_append.mpr ⟨hcomments, htokens.1⟩
  -- an element that begins no section goes on with the open one, or stands alone
  have hnone : NoneFits Rule.opening (sectionIndex.statements.rulesFor e) e rest →
      sectionAt e (code rest) = none :=
    firstReads_of_noneFits hordered
  have hone : ∀ x ∈ d.comments ++ [e], ∃ t, x = .token t :=
    forall_mem_append.mpr ⟨hcomments, fun x hx => htokens x (mem_singleton.mp hx ▸ mem_cons_self)⟩
  have hdeliver : ∀ (d₁ : Desk) {n : Node} {s : Section}, d₁.stack = [] → s.Shown n →
      Forall₂ Piece.Shown (code (d₁.deliver n).1) [.part s] ∧ (d₁.deliver n).2 = d₁ := by
    intro d₁ n s hs₁ hn
    rw [Desk.deliver_of_stack_nil hs₁]
    exact ⟨.cons (.part hn) .nil, rfl⟩
  cases h with
  | close o o' taken rest ho htakes hcomplete hclose =>
    obtain ⟨s, rfl, hopen⟩ := hd.of_some ho
    obtain ⟨rfl, hcloses⟩ := hopen.of_takes hclose
    obtain ⟨hout, hdesk⟩ := hdeliver { d with comments := [], statement := none } hs
      ((hopen.close hc hone).shown hcomplete)
    rw [hdesk]
    exact ⟨none, _, ⟨hs, forall_mem_nil _, .idle⟩, hout, divide_close hcloses⟩
  | leave o o' rest ho htakes =>
    obtain ⟨s, rfl, hopen⟩ := hd.of_some ho
    rw [hopen.rule, (takesEnd_and_yields hopen.mem).1] at htakes
    exact nomatch htakes
  | interrupt o o' r taken rest ho hyields hr hcomplete d' hd' hstays =>
    obtain ⟨s, rfl, hopen⟩ := hd.of_some ho
    obtain ⟨k, hk, hunfold, hnew⟩ := hbegin _ rfl hr
    obtain ⟨hout, hdesk⟩ := hdeliver d' (hd' ▸ hs) (hopen.shown hcomplete)
    rw [hdesk, hd']
    rw [hd'] at hout
    refine ⟨_, _, ⟨hs, forall_mem_nil _, .busy hnew⟩, hout, ?_⟩
    rw [divide_interrupt (hopen.of_staysOpen hstays) hk, hunfold]
    rfl
  | await o rest ho hw hstays hno =>
    obtain ⟨s, rfl, hopen⟩ := hd.of_some ho
    have hfits := hno (by rw [hopen.rule]; exact (takesEnd_and_yields hopen.mem).2)
    refine ⟨_, [], hd.await (not_isCode_of_awaitsWith hw), .nil, ?_⟩
    -- what waits is no code, so that the section stays as it is
    rw [divide_extend (hopen.of_staysOpen hstays) (hnone hfits),
      s.extend_of_not_isCode (not_isCode_of_awaitsWith hw)]
    rfl
  | extend o rest ho hw hstays hno =>
    obtain ⟨s, rfl, hopen⟩ := hd.of_some ho
    have hfits := hno (by rw [hopen.rule]; exact (takesEnd_and_yields hopen.mem).2)
    exact ⟨_, [], ⟨hs, forall_mem_nil _, .busy (hopen.push hc hone)⟩, .nil,
      divide_extend (hopen.of_staysOpen hstays) (hnone hfits)⟩
  | term r o o' taken children rest ho hr => exact absurd hr (not_firstFit_of_empty rfl)
  | begin r taken rest ho hr =>
    obtain rfl := hd.of_none ho
    obtain ⟨k, hk, hunfold, hnew⟩ := hbegin _ rfl hr
    refine ⟨_, [], ⟨hs, forall_mem_nil _, .busy hnew⟩, .nil, ?_⟩
    rw [divide_begin hk, hunfold]
    rfl
  | finish | restart | «open» | head | place => cases hs.symm.trans ‹d.stack = _ :: _›
  | enter r taken rest out inHeader d' ho hr => exact absurd hr (not_firstFit_of_empty rfl)
  | hold rest ho hs' hw hu =>
    obtain rfl := hd.of_none ho
    refine ⟨none, [], hd.await (not_isCode_of_awaitsWith hw), .nil, ?_⟩
    rw [divide_loose (hnone hu.statements), code_cons_of_not_isCode (not_isCode_of_awaitsWith hw)]
    rfl
  | flush rest ho hs' hw htext hu =>
    obtain rfl := hd.of_none ho
    refine ⟨none, _, ⟨hs, forall_mem_nil _, hd.statement⟩, ?_, divide_loose (hnone hu.statements)⟩
    rw [code_append, code_eq_nil hc, nil_append]
    exact shown_code fun x hx => hone x (mem_append_right _ hx)
  | pass rest ho hs' hw htext hu =>
    obtain rfl := hd.of_none ho
    exact ⟨none, _, hd, shown_code fun x hx => hone x (mem_append_right _ hx),
      divide_loose (hnone hu.statements)⟩

/-- A run of moves makes pieces, and those that are left are of what is still open. -/
theorem taking_divides (h : Taking sectionIndex regroup l d es out d' l') (hd : Divides d state)
    (htokens : ∀ x ∈ es, ∃ t, x = .token t) :
    ∃ state' pieces, Divides d' state' ∧ Forall₂ Piece.Shown (code out) pieces ∧
      divide state es = pieces ++ divide state' [] := by
  induction h generalizing state with
  | done => exact ⟨state, [], hd, .nil, rfl⟩
  | @step _ _ _ _ d d₁ d' e e' rest rest₁ new out he hm _ ih =>
    obtain ⟨t, rfl⟩ := htokens e mem_cons_self
    obtain rfl : e' = .token t := he.1
    obtain ⟨state₁, pieces₁, hd₁, hnew, hdivide₁⟩ := move_divides hm hd htokens
    have hrest₁ : ∀ x ∈ rest₁, ∃ t, x = .token t := fun x hx => htokens x (hm.subset hx)
    obtain ⟨state', pieces, hd', hout, hdivide⟩ := ih hd₁ hrest₁
    refine ⟨state', pieces₁ ++ pieces, hd', ?_, ?_⟩
    · rw [code_append]
      exact rel_append hnew hout
    · rw [hdivide₁, hdivide, append_assoc]

/-- **The second stage divides its input.** The code of what it hands on shows the pieces of the
tokens it was given. -/
theorem grouped_divides (h : Grouped sectionIndex regroup {} es out)
    (htokens : ∀ x ∈ es, ∃ t, x = .token t) : Forall₂ Piece.Shown (code out) (divide none es) := by
  obtain ⟨_, _, d', taken, closing, _, ht, hclosing, rfl⟩ := h
  obtain ⟨state, pieces, hd', htaken, hdivide⟩ :=
    taking_divides ht ⟨rfl, forall_mem_nil _, .idle⟩ htokens
  rw [hdivide, code_append]
  refine rel_append htaken ?_
  obtain ⟨hs, rfl⟩ | ⟨o, o', hs, hc, rfl⟩ := hclosing.of_stack_nil hd'.stack
  · obtain rfl := hd'.of_none hs
    rw [code_eq_nil hd'.comments]
    exact .nil
  · -- the section that is left open is the last piece
    obtain ⟨s, rfl, hopen⟩ := hd'.of_some hs
    rw [code_append, code_eq_nil hd'.comments]
    exact .cons (.part (hopen.shown hc)) .nil

end EztScan.Language
