import EztScan.Language.Source
import EztScan.Proofs.Lexing
import EztScan.Proofs.Neat

/-!
# The shape of a program

A source that is no macro is read in three stages. The first one takes all of it for one program,
except for the comments at the end, which it hands on in front of the program (`grouped_program`).
The second one finds the sections of the program; the comments wait, and the program overtakes them
(`grouped_sections`), so that they are behind it again. The third one finds the statements.

Both of the later stages regroup the program. Its tokens keep their order: at the end of the inner
part no comment waits, since the first stage has left these out, and no section comes right behind a
comment, since a section takes the comments in front of it in. So the whole source is there, in
order (`leaves_of_parse`).
-/

namespace EztScan

open Element List Pattern Lexer

variable {t : Token} {ts : List Token} {out rest : List Element} {d d' : Desk} {e : Element}
  {r : Rule} {index : Index} {n : Node}

/-! ### Tokens of a source -/

namespace Lexer

/-- A token of a source overtakes nothing. -/
theorem Lexed.overtakes (h : Lexed t) : (Element.token t).overtakes = false := by
  rcases h with hcode | ⟨number, text, -, rfl⟩
  · obtain ⟨text, ht⟩ := hcode.text
    have hblank := hcode.isBlank ht
    unfold Element.overtakes Element.isBlank Element.hasText Token.hasText
    dsimp only
    rw [hblank, ht]
    change (_ && !(text.isEmpty || _) && !!text.isEmpty) = false
    cases text.isEmpty <;> simp
  · rfl

theorem not_isWord {text : String} {c : Char} (ht : t.text = some text)
    (hc : Text.isWordChar c = false) (h : c ∈ text.toList) : ¬ (Element.token t).IsWord := by
  rintro ⟨lower, hlower, hword⟩
  change t.lowerText = some lower at hlower
  unfold Token.lowerText at hlower
  rw [ht] at hlower
  dsimp only at hlower
  split at hlower
  next => exact nomatch hlower
  next =>
    obtain rfl := Option.some.inj hlower
    rw [hword c (Text.mem_lower hc h)] at hc
    exact nomatch hc

/-- Blanks and comments of a source are no words. -/
theorem Lexed.not_isWord (h : Lexed t) (hidle : t.isCode = false) : ¬ (Element.token t).IsWord := by
  rcases h with hcode | ⟨number, text, hline, rfl⟩
  · obtain ⟨text, ht⟩ := hcode.text
    unfold Token.isCode at hidle
    rw [hcode.isComment, hcode.isBlank ht] at hidle
    -- blank code has no text, or one that begins with a blank
    cases htext : text.isEmpty with
    | true =>
      rintro ⟨lower, hlower, -⟩
      change t.lowerText = some lower at hlower
      unfold Token.lowerText at hlower
      rw [ht] at hlower
      dsimp only at hlower
      rw [htext] at hlower
      exact nomatch hlower
    | false =>
      have hblank : text.toList.all Text.isBlank = true := by
        simpa [htext, Text.isBlankText] using hidle
      obtain ⟨c, cs, hcs⟩ := exists_cons_of_ne_nil (l := text.toList) (by simpa using htext)
      have hc : Text.isBlank c = true := all_eq_true.mp hblank c (hcs ▸ mem_cons_self)
      refine Lexer.not_isWord ht (c := c) ?_ (hcs ▸ mem_cons_self)
      unfold Text.isWordChar
      rw [hc]
      rfl
  · refine Lexer.not_isWord rfl (c := '*') (by decide) ?_
    rw [String.toList_ofList]
    exact mem_of_isCommentLine hline

end Lexer

/-! ### Comments at the end -/

/-- What starts at the first comment among the blanks and comments that end a list of tokens. -/
def trailingComments (ts : List Token) : List Token :=
  (ts.rtakeWhile fun t => t.isBlank || t.isComment).dropWhile fun t => !t.isComment

theorem trailingComments_subset (ts : List Token) : trailingComments ts ⊆ ts :=
  ((dropWhile_sublist _).trans (rtakeWhile_suffix _ ts).sublist).subset

theorem forall_mem_trailingComments {P : Token → Prop} (h : ∀ u ∈ t :: ts, P u) :
    ∀ c ∈ trailingComments ts, P c :=
  fun c hc => h c (mem_cons_of_mem t (trailingComments_subset ts hc))

/-- The comments at the end are blanks and comments. -/
theorem idle_of_mem_trailingComments (h : t ∈ trailingComments ts) :
    (t.isBlank || t.isComment) = true := by
  have hmem : t ∈ ts.rtakeWhile fun t => t.isBlank || t.isComment := (dropWhile_sublist _).mem h
  exact mem_rtakeWhile_imp (p := fun t : Token => t.isBlank || t.isComment) hmem

theorem not_isCode_of_mem_trailingComments (h : t ∈ trailingComments ts) : t.isCode = false := by
  have hidle := idle_of_mem_trailingComments h
  unfold Token.isCode
  cases hb : t.isBlank <;> cases hc : t.isComment <;> simp_all

namespace Grouping

/-- The comments at the end wait, the first one of them even if none did. -/
theorem awaitsWith_trailingComments {before after : List Token}
    (h : trailingComments ts = before ++ t :: after) :
    awaitsWith (before.map .token) (.token t) = true := by
  have hidle := idle_of_mem_trailingComments (h ▸ mem_append_right before mem_cons_self)
  change (t.isComment || (t.isBlank && !(before.map Element.token).isEmpty)) = true
  cases before with
  | nil =>
    -- the first of them is where the blanks were dropped up to
    have hhead := head?_dropWhile_not (fun t => !t.isComment)
      (ts.rtakeWhile fun t => t.isBlank || t.isComment)
    unfold trailingComments at h
    rw [h] at hhead
    have hcomment : t.isComment = true := by simpa using hhead
    rw [hcomment, Bool.true_or]
  | cons =>
    rw [Bool.or_comm] at hidle
    simpa using hidle

/-- The comments that wait after these elements. -/
def held (comments es : List Element) : List Element :=
  es.foldl (fun cs e => if awaitsWith cs e then cs ++ [e] else []) comments

theorem awaitsWith_token (comments : List Element) (t : Token) :
    awaitsWith comments (.token t) = (t.isComment || (t.isBlank && !comments.isEmpty)) :=
  rfl

/-- The comments that wait at the end are those at the end of the source. -/
theorem held_nil (ts : List Token) :
    held [] (ts.map .token) = (trailingComments ts).map .token := by
  -- from the end, where one more token waits or lets go of all
  induction ts using List.reverseRecOn with
  | nil => rfl
  | append_singleton ts t ih =>
    have hheld : held [] ((ts ++ [t]).map .token) =
        if awaitsWith ((trailingComments ts).map .token)
          (.token t) then (trailingComments ts).map .token ++ [.token t]
        else [] := by
      unfold held at ih ⊢
      rw [map_append, foldl_append, ih]
      rfl
    rw [hheld, awaitsWith_token, isEmpty_map]
    unfold trailingComments
    rw [rtakeWhile_concat]
    generalize ts.rtakeWhile (fun t => t.isBlank || t.isComment) = idle
    by_cases ht : (t.isBlank || t.isComment) = true
    · rw [if_pos ht, dropWhile_append]
      cases hwait : (idle.dropWhile fun t => !t.isComment) with
      | nil => cases hc : t.isComment <;> simp [hc]
      | cons => cases hc : t.isComment <;> simp_all
    · rw [if_neg ht]
      simp_all

end Grouping

/-! ### The first stage -/

namespace Language

open Grouping

variable {regroup : Node → Work Ledger Node}
variable {rest' taken : List Element} {o : OpenNode} {c : Candidates}
  {pattern : Rule → Option Pattern} {source : String} {cs : List Char}

/-- The rules of the first stage. -/
def programIndex : Index where
  statements := { others := [program] }

theorem rulesFor_others (rules : List Rule) (e : Element) :
    Candidates.rulesFor { others := rules } e = rules := by
  unfold Candidates.rulesFor
  cases e.lowerText <;> rfl

/-- The desk of the first stage when the program is open: its children so far, and behind them the
comments that wait. -/
structure InProgram (d : Desk) (o : OpenNode) : Prop where
  stack : d.stack = []
  statement : d.statement = some o
  rule : o.rule = program
  kind : o.head.kind = program.kind
  operands : o.head.operands = []
  sections : o.head.sections = { opening := 1 }
  /-- The opening, and an inner part at whose end no comment waits. -/
  children : ∃ t inner, o.node.children = .token t :: inner ∧ waits false inner = false

/-- The first element opens the program. -/
theorem move_opens (h : Move programIndex regroup k {} (.token t) rest out d' rest' k') :
    rest' = rest ∧ out = [] ∧ d'.comments = [] ∧ ∃ o, InProgram d' o ∧
      o.node.children = [.token t] := by
  have hrules : programIndex.statements.rulesFor (.token t) = [program] := rulesFor_others _ _
  -- any element opens a program, so none is left over
  have hfits : ∀ {rest}, ¬ NoneFits Rule.opening (programIndex.statements.rulesFor (.token t))
      (.token t) rest :=
    fun h => not_refuses_any (h program (hrules ▸ mem_cons_self))
  cases h with
  | close o o' taken rest ho | leave o o' rest ho | interrupt o o' r taken rest ho | await o rest ho
  | extend o rest ho => exact nomatch ho
  | term r o o' taken children rest ho hr => exact absurd hr (not_firstFit_of_empty rfl)
  | begin r taken rest ho hr =>
    obtain rfl : r = program := mem_singleton.mp (hrules ▸ hr.mem)
    obtain ⟨-, -, -, -, htakes⟩ := hr
    obtain rfl := takes_any htakes
    exact ⟨rfl, rfl, rfl, _, ⟨rfl, rfl, rfl, rfl, rfl, rfl, t, [], rfl, rfl⟩, rfl⟩
  | finish | restart | «open» | head | place => cases ‹[] = _ :: _›
  | enter r taken rest out inHeader d' ho hr => exact absurd hr (not_firstFit_of_empty rfl)
  | hold rest ho hs hw hu | flush rest ho hs hw htext hu
  | pass rest ho hs hw htext hu => exact absurd hu.statements hfits

/-- Every further element waits or goes into the program. -/
theorem move_inProgram (h : Move programIndex regroup k d e rest out d' rest' k')
    (hd : InProgram d o) :
    rest' = rest ∧ out = [] ∧ d'.comments = (if awaitsWith d.comments e then d.comments ++ [e]
      else []) ∧
      ∃ o', InProgram d' o' ∧ o'.node.children ++ d'.comments =
        o.node.children ++ d.comments ++ [e] := by
  have hsome : ∀ {o'}, d.statement = some o' → o = o' :=
    fun h => Option.some.inj (hd.statement.symm.trans h)
  have hnone : d.statement ≠ none := fun h => nomatch hd.statement.symm.trans h
  -- a program is neither closed nor interrupted, so that it is still open after the move
  cases h with
  | close o' o'' taken rest ho htakes hc hclose =>
    obtain rfl := hsome ho
    rw [hd.rule] at hclose
    exact absurd hclose not_takes_never
  | leave o' o'' rest ho htakes =>
    obtain rfl := hsome ho
    rw [hd.rule] at htakes
    exact nomatch htakes
  | interrupt o' o'' r taken rest ho hyields =>
    obtain rfl := hsome ho
    rw [hd.rule] at hyields
    exact nomatch hyields
  | await o' rest ho hw =>
    rw [if_pos hw]
    exact ⟨rfl, rfl, rfl, o, ⟨hd.stack, hd.statement, hd.rule, hd.kind, hd.operands, hd.sections,
      hd.children⟩,
      (append_assoc ..).symm⟩
  | extend o' rest ho hw =>
    obtain rfl := hsome ho
    rw [hw, if_neg Bool.false_ne_true]
    have hchildren : ((o.pushAll d.comments).push e).node.children =
        o.node.children ++ d.comments ++ [e] := by
      rw [OpenNode.node_push, OpenNode.node_pushAll]
    refine ⟨rfl, rfl, rfl, (o.pushAll d.comments).push e,
      ⟨hd.stack, rfl, hd.rule, hd.kind, hd.operands, hd.sections, ?_⟩, ?_⟩
    · obtain ⟨t, inner, hinner, hwaits⟩ := hd.children
      refine ⟨t, inner ++ d.comments ++ [e], ?_, ?_⟩
      · rw [hchildren, hinner]
        rfl
      · rw [waits_append, waits_append, hwaits]
        exact waitsBehind_eq_false hw
    · rw [hchildren, append_nil]
  | term | begin | finish | restart | «open» | head | enter | place | hold | flush | pass =>
    exact absurd ‹d.statement = none› hnone

/-- A run of the first stage inside the program. -/
theorem taking_inProgram {es : List Element} (h : Taking programIndex regroup l d es out d' l')
    (hes : ∀ e ∈ es, ∃ t, e = .token t) (hd : InProgram d o) :
    out = [] ∧ d'.comments = held d.comments es ∧
      ∃ o', InProgram d' o' ∧ o'.node.children ++ d'.comments =
        o.node.children ++ d.comments ++ es := by
  induction h generalizing o with
  | done => exact ⟨rfl, rfl, o, hd, (append_nil _).symm⟩
  | @step _ _ _ _ d d₁ d' e e' rest rest₁ new out he hm _ ih =>
    obtain ⟨⟨t, rfl⟩, hrest⟩ := forall_mem_cons.mp hes
    obtain rfl : e' = .token t := he.1
    obtain ⟨rfl, rfl, hcomments, o₁, hd₁, hchildren₁⟩ := move_inProgram hm hd
    obtain ⟨rfl, hheld, o', hd', hchildren'⟩ := ih hrest hd₁
    refine ⟨rfl, ?_, o', hd', ?_⟩
    · rw [hheld, hcomments]
      rfl
    · rw [hchildren', hchildren₁, append_assoc, singleton_append]

/-- The program that the first stage makes: its opening is the first token, and no comment waits at
its end. -/
theorem laid_program (h : Grouped programIndex regroup {} (.token t :: ts.map .token) out) :
    ∃ (n : Node) (inner : List Element), out = (trailingComments ts).map .token ++ [n.toElement] ∧
      n.head.kind = program.kind ∧ n.head.operands = [] ∧ n.head.sections = { opening := 1 } ∧
      n.children = .token t :: inner ∧ waits false inner = false ∧
      inner ++ (trailingComments ts).map .token = ts.map .token := by
  obtain ⟨_, _, d', taken, closing, _, ht, hclosing, rfl⟩ := h
  cases ht with
  | @step _ _ _ _ _ d₁ _ _ e' _ rest₁ new out he hm ht =>
    obtain rfl : e' = .token t := he.1
    obtain ⟨rfl, rfl, hcomments₁, o₁, hd₁, hchildren₁⟩ := move_opens hm
    obtain ⟨rfl, hcomments, o, hd, hchildren⟩ :=
      taking_inProgram ht (fun _ => exists_token_of_mem_map) hd₁
    -- what is handed on at the end: the comments that wait, and then the program
    rw [hcomments₁, held_nil] at hcomments
    obtain ⟨hnone, -⟩ | ⟨_, o', hs, hc, rfl⟩ := hclosing.of_stack_nil hd.stack
    · exact nomatch hd.statement.symm.trans hnone
    obtain rfl := Option.some.inj (hd.statement.symm.trans hs)
    have hnode : o'.node = o.node := by
      unfold OpenNode.complete at hc
      rw [hd.rule] at hc
      rw [← (Prod.mk.inj hc).1, OpenNode.node_withNode]
      rfl
    rw [hnode]
    obtain ⟨t', inner, hinner, hwaits⟩ := hd.children
    rw [hcomments, hcomments₁, hchildren₁, hinner] at hchildren
    obtain ⟨ht', hrest⟩ := List.cons.inj hchildren
    rw [ht'] at hinner
    refine ⟨o.node, inner, ?_, hd.kind, hd.operands, hd.sections, hinner, hwaits, hrest⟩
    simp only [hcomments, nil_append]

/-- **The first stage makes one program of all but the comments at the end**, which it hands on
first. -/
theorem grouped_program (h : Grouped programIndex regroup {} (.token t :: ts.map .token) out) :
    ∃ n : Node, out = (trailingComments ts).map .token ++ [n.toElement] ∧
      n.head.kind = program.kind ∧
      n.head.sections.Fit n.children ∧
      n.children ++ (trailingComments ts).map .token = .token t :: ts.map .token ∧
        waits false n.inner = false := by
  obtain ⟨n, inner, hout, hkind, -, hsections, hchildren, hwaits, hrest⟩ := laid_program h
  refine ⟨n, hout, hkind, ?_, ?_, ?_⟩
  · rw [hsections, hchildren]
    refine ⟨by decide, by decide, by decide, by decide, ?_, forall_mem_nil _⟩
    rw [length_cons]
    dsimp only
    omega
  · rw [hchildren, cons_append, hrest]
  · rw [Node.inner_of_opening hsections hchildren]
    exact hwaits

/-! ### The later stages -/

/-- The rules of the second stage. -/
def sectionIndex : Index where
  statements :=
    { byWord := [("file", file), ("job", job), ("sort", sort), ("report", report)]
      others := [data, procedure] }

/-- The rules of the third stage. -/
def termIndex : Index where
  terms :=
    { byWord := [("perform", perform), ("finish", finish), ("get", get), ("write", write),
      ("write", write),
        ("print", print), ("put", put), ("put", put), ("point", point), ("call", call),
          ("sql", query)]
      others := [start] }

theorem mapM_programStages : programStages.mapM Scope.ofRules =
    .ok [.everywhere programIndex, .everywhere sectionIndex, .everywhere termIndex] :=
  rfl

/-- No term and no statement begins with the element. -/
def Unfit (index : Index) (e : Element) (rest : List Element) : Prop :=
  ∀ r taken rest', rest = taken ++ rest' →
    ¬ FirstFit Rule.shape (index.terms.rulesFor e) e r taken rest' ∧
    ¬ FirstFit Rule.opening (index.statements.rulesFor e) e r taken rest'

/-- A pattern of one of the rules fits. -/
theorem exists_takes (h : FirstFit pattern (c.rulesFor e) e r taken rest) :
    r ∈ c.byWord.map (·.2) ++ c.others ∧ ∃ p, pattern r = some p ∧
      Pattern.Takes (some p) e taken rest := by
  refine ⟨mem_of_mem_rulesFor h.mem, ?_⟩
  obtain ⟨-, -, -, -, htakes⟩ := h
  obtain ⟨p, hp, -⟩ := id htakes
  exact ⟨p, hp, hp ▸ htakes⟩

/-- Does what the pattern of each rule fits start with a word? -/
def allStartWithWord (pattern : Rule → Option Pattern) (rules : List Rule) : Bool :=
  rules.all fun r => (pattern r).any startsWithWord

theorem isWord_of_allStartWithWord {rules : List Rule} (h : allStartWithWord pattern rules = true)
    (hr : r ∈ rules) {p : Pattern} (hp : pattern r = some p)
    (htakes : Pattern.Takes (some p) e taken rest) : e.IsWord := by
  have hany := all_eq_true.mp h r hr
  rw [hp] at hany
  exact (needs_isWord p hany).of_takes htakes

/-- Only words begin something in the third stage. -/
theorem unfit_termIndex (he : ¬ e.IsWord) (rest : List Element) : Unfit termIndex e rest := by
  have hwords : allStartWithWord Rule.shape
      (termIndex.terms.byWord.map (·.2) ++ termIndex.terms.others) = true := by
    decide
  intro r taken rest' _
  refine ⟨fun h => ?_, not_firstFit_of_empty rfl⟩
  obtain ⟨hr, p, hp, htakes⟩ := exists_takes h
  exact he (isWord_of_allStartWithWord hwords hr hp htakes)

/-- Only words, and what stands in front of words, begin something in the second stage. -/
theorem unfit_sectionIndex (he : ¬ e.IsWord)
    (hnext : ∀ x, rest.find? Element.isCode = some x → ¬ x.IsWord) : Unfit sectionIndex e rest := by
  have hwords : allStartWithWord Rule.opening (sectionIndex.statements.byWord.map (·.2)) =
      true := by
    decide
  have hdata : Pattern.NeedsSeq [.oneOf [.word "W", .word "F", .word "C", .word "S"]]
      Element.IsWord :=
    needsSeq_cons rfl (needs_isWord _ (by decide))
  have hprocedure : Pattern.NeedsSeq [.maybe (.word "."), .word "PROC"] Element.IsWord :=
    needsSeq_maybe_cons (cons_ne_nil _ _) (needs_isWord _ (by decide))
      (needsSeq_cons rfl (needs_isWord _ (by decide)))
  intro r taken rest' hrest
  refine ⟨not_firstFit_of_empty rfl, fun h => ?_⟩
  obtain ⟨hr, p, hp, htakes⟩ := exists_takes h
  rcases mem_append.mp hr with hr | hr
  · exact he (isWord_of_allStartWithWord hwords hr hp htakes)
  · -- a field or a procedure: its second element is a word
    have hsecond : ∃ x, rest.find? Element.isCode = some x ∧ x.IsWord := by
      rw [hrest]
      rcases mem_cons.mp hr with rfl | hr
      · obtain rfl := Option.some.inj hp
        exact find?_of_takes_seq_any (cons_ne_nil _ _) hdata htakes
      · obtain rfl := mem_singleton.mp hr
        obtain rfl := Option.some.inj hp
        exact find?_of_takes_seq_any (cons_ne_nil _ _) hprocedure htakes
    obtain ⟨x, hx, hword⟩ := hsecond
    exact hnext x hx hword

/-- Outside of all nodes, an element that begins nothing waits, or is handed on if it has no
text. -/
theorem move_outside (hblocks : index.blocks = {})
    (h : Move index regroup k d e rest out d' rest' k') (hs : d.stack = [])
    (hd : d.statement = none) (hu : Unfit index e rest) : rest' = rest ∧
      (awaitsWith d.comments e = true → out = [] ∧ d' = { d with comments := d.comments ++ [e] }) ∧
      (awaitsWith d.comments e = false → e.hasText = false → out = [e] ∧ d' = d) := by
  have hstack : ∀ {o below}, d.stack ≠ o :: below := fun h => nomatch hs.symm.trans h
  cases h with
  | close o o' taken rest ho | leave o o' rest ho | interrupt o o' r taken rest ho | await o rest ho
  | extend o rest ho => exact nomatch hd.symm.trans ho
  | term r o o' taken children rest ho hr => exact absurd hr (hu r taken _ rfl).1
  | begin r taken rest ho hr => exact absurd hr (hu r taken _ rfl).2
  | finish | restart | «open» | head | place => exact absurd ‹d.stack = _ :: _› hstack
  | enter r taken rest out inHeader d' ho hr => exact absurd hr (not_firstFit_of_empty hblocks)
  | hold rest ho hs hw => exact ⟨rfl, fun _ => ⟨rfl, rfl⟩, fun h => nomatch hw.symm.trans h⟩
  | flush rest ho hs hw htext =>
    refine ⟨rfl, fun h => (nomatch hw.symm.trans h), fun _ h => ?_⟩
    rw [h, Bool.and_false] at htext
    exact nomatch htext
  | pass rest ho hs hw =>
    exact ⟨rfl, fun h => (nomatch hw.symm.trans h), fun _ _ => ⟨rfl, rfl⟩⟩

/-- Comments that begin nothing wait, all of them. -/
theorem taking_held (hblocks : index.blocks = {}) {tail : List Element} :
    ∀ {ts : List Token} {d : Desk} {l : Ledger},
      Taking index regroup l d (ts.map .token ++ tail) out d' l' → d.stack = [] →
      d.statement = none →
      (∀ before t after, ts = before ++ t :: after →
        awaitsWith (d.comments ++ before.map .token) (.token t) = true ∧
        Unfit index (.token t) (after.map .token ++ tail)) →
      ∃ l, Taking index regroup l { d with comments := d.comments ++ ts.map .token } tail out d'
        l' := by
  intro ts
  -- over the comments to come, with those that wait already moving along on the desk
  induction ts with
  | nil =>
    intro d l h _ _ _
    rw [map_nil, append_nil]
    exact ⟨l, h⟩
  | cons t ts ih =>
    intro d l h hs hd hts
    cases h with
    | @step _ _ _ _ _ d₁ _ _ e' _ rest₁ new out he hm h =>
      obtain rfl : e' = .token t := he.1
      obtain ⟨hw, hu⟩ := hts [] t ts rfl
      rw [map_nil, append_nil] at hw
      obtain ⟨rfl, hheld, -⟩ := move_outside hblocks hm hs hd hu
      obtain ⟨rfl, rfl⟩ := hheld hw
      have hrest := ih h hs hd ?_
      · rw [append_assoc, singleton_append] at hrest
        exact hrest
      · intro before t' after hafter
        have hmore := hts (t :: before) t' after (by rw [hafter, cons_append])
        rw [append_assoc, singleton_append]
        exact hmore

/-- A node that begins nothing is handed on, even if comments wait. -/
theorem taking_passed (hblocks : index.blocks = {})
    (h : Taking index regroup l d (n.toElement :: rest) out d' l') (hs : d.stack = [])
    (hd : d.statement = none) (hu : ∀ n : Node, Unfit index n.toElement rest) :
    ∃ e' out' l, Rebuilt regroup n.toElement e' ∧ out = e' :: out' ∧
      Taking index regroup l d rest out' d' l' := by
  cases h with
  | @step _ _ _ _ _ d₁ _ _ e' _ rest₁ new out he hm h =>
    obtain ⟨n', hruns, rfl⟩ := id he
    obtain ⟨rfl, -, hpassed⟩ := move_outside hblocks hm hs hd (hu n')
    obtain ⟨rfl, rfl⟩ := hpassed rfl rfl
    exact ⟨n'.toElement, out, _, he.rebuilt, rfl, h⟩

theorem eq_of_closing (h : Closing regroup k d out k') (hs : d.stack = [])
    (hd : d.statement = none) : out = d.comments := by
  obtain ⟨-, rfl⟩ | ⟨o, _, ho, -⟩ := h.of_stack_nil hs
  · rfl
  · exact nomatch hd.symm.trans ho

theorem not_isWord_node (n : Node) : ¬ n.toElement.IsWord := by
  rintro ⟨text, htext, -⟩
  exact nomatch htext

/-- A comment at the end begins nothing in the second stage: behind it, the program is the first
code. -/
theorem unfit_trailingComment {before after : List Token}
    (hts : ∀ t ∈ trailingComments ts, Lexer.Lexed t)
    (hsplit : trailingComments ts = before ++ t :: after) (n : Node) :
    Unfit sectionIndex (.token t) (after.map .token ++ [n.toElement]) := by
  have hmem : ∀ {t'}, t' ∈ t :: after → t' ∈ trailingComments ts :=
    fun h => hsplit ▸ mem_append_right before h
  have ht := hmem mem_cons_self
  have hword : ¬ (Element.token t).IsWord :=
    (hts t ht).not_isWord (not_isCode_of_mem_trailingComments ht)
  refine unfit_sectionIndex hword fun x hx => ?_
  have hnone : (after.map Element.token).find? Element.isCode = none := by
    refine find?_eq_none.mpr fun e he => ?_
    obtain ⟨t', ht', rfl⟩ := mem_map.mp he
    change ¬ t'.isCode = true
    rw [not_isCode_of_mem_trailingComments (hmem (mem_cons_of_mem t ht'))]
    exact Bool.false_ne_true
  rw [find?_append, hnone] at hx
  obtain rfl : n.toElement = x := Option.some.inj hx
  exact not_isWord_node n

/-- The program begins nothing in the second stage if it comes last. -/
theorem unfit_program (n : Node) : Unfit sectionIndex n.toElement [] :=
  unfit_sectionIndex (not_isWord_node n) fun _ hx => (nomatch hx)

/-- **In the second stage the program overtakes the comments.** -/
theorem grouped_sections (hts : ∀ t ∈ trailingComments ts, Lexer.Lexed t)
    (h : Grouped sectionIndex regroup {} ((trailingComments ts).map .token ++ [n.toElement]) out) :
    ∃ e', Rebuilt regroup n.toElement e' ∧ out = e' :: (trailingComments ts).map .token := by
  obtain ⟨_, _, d', taken, closing, _, ht, hc, rfl⟩ := h
  have hheld := taking_held rfl ht rfl rfl ?_
  · -- with the comments on the desk, the program is passed on, and they come after it
    obtain ⟨_, hheld⟩ := hheld
    obtain ⟨e', out', _, he', rfl, hdone⟩ := taking_passed rfl hheld rfl rfl unfit_program
    cases hdone with
    | done => exact ⟨e', he', by rw [eq_of_closing hc rfl rfl]; rfl⟩
  · intro before t after hsplit
    exact ⟨awaitsWith_trailingComments hsplit, unfit_trailingComment hts hsplit n⟩

/-- **In the third stage the comments stay behind the program.** -/
theorem grouped_terms (hts : ∀ t ∈ trailingComments ts, Lexer.Lexed t)
    (h : Grouped termIndex regroup {} (n.toElement :: (trailingComments ts).map .token) out) :
    ∃ e', Rebuilt regroup n.toElement e' ∧ out = e' :: (trailingComments ts).map .token := by
  obtain ⟨_, _, d', taken, closing, _, ht, hc, rfl⟩ := h
  obtain ⟨e', out', _, he', rfl, hrest⟩ :=
    taking_passed rfl ht rfl rfl fun n => unfit_termIndex (not_isWord_node n) _
  rw [← append_nil ((trailingComments ts).map Element.token)] at hrest
  have hheld := taking_held rfl hrest rfl rfl ?_
  · obtain ⟨_, hheld⟩ := hheld
    cases hheld with
    | done => exact ⟨e', he', by rw [eq_of_closing hc rfl rfl]; rfl⟩
  · intro before t after hsplit
    have ht : t ∈ trailingComments ts := hsplit ▸ mem_append_right before mem_cons_self
    have hword : ¬ (Element.token t).IsWord :=
      (hts t ht).not_isWord (not_isCode_of_mem_trailingComments ht)
    exact ⟨awaitsWith_trailingComments hsplit, unfit_termIndex hword _⟩

/-! ### The whole parse -/

/-- The grammars of the three stages. -/
def programScopes : List Scope :=
  [.everywhere programIndex, .everywhere sectionIndex, .everywhere termIndex]

/-- A source that is no macro is sent through three stages. -/
theorem parse_of_not_isMacroSource (h : isMacroSource (withoutMark source.toList) = false) :
    parse source = Scope.parseAll programScopes
      (lex (String.ofList (withoutMark source.toList))) := by
  unfold parse stagesFor
  dsimp only
  rw [h, if_neg Bool.false_ne_true]
  unfold readWith
  rw [mapM_programStages]
  rfl

theorem withoutMark_of_not_mark (h : ¬ "BEGIN_PROGRAM(".toList <+: cs) : withoutMark cs = cs := by
  unfold withoutMark preprocessorMark
  rw [if_neg fun hmark => h (List.isPrefixOf_iff_prefix.mp hmark)]

theorem isMacroSource_eq_false (h : ¬ "MACRO".toList <+: cs) : isMacroSource cs = false :=
  Bool.eq_false_iff.mpr fun hmacro => h (List.isPrefixOf_iff_prefix.mp hmacro)

/-- A source that is neither a macro nor marked is sent through three stages as it is. -/
theorem parse_of_unmarked (hfirst : ¬ "MACRO".toList <+: source.toList)
    (hmark : ¬ "BEGIN_PROGRAM(".toList <+: source.toList) :
    parse source = Scope.parseAll programScopes (lex source) := by
  have hplain := withoutMark_of_not_mark hmark
  have hmacro : isMacroSource (withoutMark source.toList) = false := by
    rw [hplain]
    exact isMacroSource_eq_false hfirst
  have hparse := parse_of_not_isMacroSource hmacro
  rw [hplain, String.ofList_toList] at hparse
  exact hparse

/-- What is read of tokens without a fault has passed the stages. -/
theorem passed_of_parseAll (hfault : (Scope.parseAll programScopes ts).fault = none) :
    Passed (ts.length + 1) programScopes (ts.map .token)
      (Scope.parseAll programScopes ts).elements :=
  passed_of_runStages (by simp) hfault

/-- The stages go down to a depth of one more than there are tokens. -/
theorem passed_at_depth (hfirst : ¬ "MACRO".toList <+: source.toList)
    (hmark : ¬ "BEGIN_PROGRAM(".toList <+: source.toList) (hfault : (parse source).fault = none) :
    Passed ((lex source).length + 1) programScopes ((lex source).map .token)
      (parse source).elements := by
  rw [parse_of_unmarked hfirst hmark] at hfault ⊢
  exact passed_of_parseAll hfault

/-- What comes of the tokens of a program is one program and the comments at the end, and no token
is lost. -/
theorem leaves_of_parseAll (hlexed : ∀ u ∈ t :: ts, Lexed u)
    (hfault : (Scope.parseAll programScopes (t :: ts)).fault = none) :
    ∃ h cs, (Scope.parseAll programScopes (t :: ts)).elements =
      .node h cs :: (trailingComments ts).map .token ∧
      h.kind.name = "Program" ∧ leavesOfList cs ++ trailingComments ts = t :: ts := by
  have hpassed := passed_of_parseAll hfault
  have hcomments := forall_mem_trailingComments hlexed
  generalize (Scope.parseAll programScopes (t :: ts)).elements = elements at hpassed ⊢
  -- the stages, one after the other
  rcases hpassed with _ | ⟨hg₁, _ | ⟨hg₂, _ | ⟨hg₃, hdone⟩⟩⟩
  cases hdone with
  | nil =>
    obtain ⟨n, rfl, hkind, hfit, hchildren, hwaits⟩ := grouped_program hg₁
    obtain ⟨e₂, he₂, rfl⟩ := grouped_sections hcomments hg₂
    have hplain : ∀ e ∈ n.children, e.IsPlain := by
      intro e he
      have hmem : e ∈ (t :: ts).map Element.token := by
        rw [map_cons, ← hchildren]
        exact mem_append_left _ he
      obtain ⟨t', ht', rfl⟩ := mem_map.mp hmem
      exact ⟨⟨t', rfl⟩, (hlexed t' ht').overtakes⟩
    have hsound : n.toElement.Sound := by
      refine .node hfit fun e he => ?_
      obtain ⟨⟨t', rfl⟩, -⟩ := hplain e he
      exact .token t'
    -- the program comes out of the second stage neat, as the third one needs it
    obtain ⟨cs₂, rfl, hneat₂, hleaves₂⟩ := restored_of_plain rfl rfl he₂ hfit hplain hwaits
    have hsound₂ := rebuilt_sound _ _ _ he₂ hsound
    obtain ⟨e₃, he₃, rfl⟩ := grouped_terms (n := ⟨n.head, cs₂⟩) hcomments hg₃
    obtain ⟨cs₃, rfl, -, hleaves₃⟩ := (restores_of_terms rfl rfl he₃).node _ rfl ⟨hsound₂, hneat₂⟩
    refine ⟨n.head, cs₃, rfl, by rw [hkind]; rfl, ?_⟩
    calc leavesOfList cs₃ ++ trailingComments ts
        = leavesOfList (n.children ++ (trailingComments ts).map .token) := by
          rw [hleaves₃, hleaves₂, leavesOfList_append, leavesOfList_map_token]
      _ = leavesOfList ((t :: ts).map .token) := by rw [hchildren]; rfl
      _ = t :: ts := leavesOfList_map_token _

/-- **A program is read without loss.** What comes of a source that is neither a macro nor marked by
a preprocessor is one program, followed by the comments at the end of the source, if the first token
is left out of account there; and all other tokens are in the program, in their order. -/
theorem leaves_of_parse {source : String} (hfirst : ¬ "MACRO".toList <+: source.toList)
    (hmark : ¬ "BEGIN_PROGRAM(".toList <+: source.toList) (htokens : Lexer.lex source ≠ [])
    (hfault : (parse source).fault = none) :
    ∃ h cs, (parse source).elements = .node h cs :: (trailingComments (Lexer.lex source).tail).map
      .token ∧
      h.kind.name = "Program" ∧
      leavesOfList cs ++ trailingComments (Lexer.lex source).tail = Lexer.lex source := by
  have hlexed : ∀ t ∈ lex source, Lexed t := lexed_linesFrom _ _ _
  rw [parse_of_unmarked hfirst hmark] at hfault ⊢
  generalize lex source = tokens at htokens hlexed hfault ⊢
  obtain ⟨t, ts, rfl⟩ := exists_cons_of_ne_nil htokens
  exact leaves_of_parseAll hlexed hfault

/-- A source with comments between its sections and at its end. -/
def commentedSource : String :=
  "FILE A\n* of the file\nJOB INPUT A\n  GET A\n* at the end\n "

/-- The comment at the end, and what comes after it, stays outside of the program. -/
theorem leaves_of_parse_commentedSource :
    (Lexer.lex commentedSource ≠ [] ∧ (parse commentedSource).fault = none) ∧
      ∃ h cs, (parse commentedSource).elements =
          .node h cs :: (trailingComments (Lexer.lex commentedSource).tail).map .token ∧
        h.kind.name = "Program" ∧
        leavesOfList cs ++ trailingComments (Lexer.lex commentedSource).tail =
          Lexer.lex commentedSource :=
  have htokens : lex commentedSource ≠ [] := by decide +kernel
  have hfault : (parse commentedSource).fault = none := by decide +kernel
  ⟨⟨htokens, hfault⟩, leaves_of_parse (by decide +kernel) (by decide +kernel) htokens hfault⟩

end Language

end EztScan
