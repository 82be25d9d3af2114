import EztScan.Proofs.MatchOutcomes
import EztScan.Proofs.Order

/-!
# Which rule an element begins

By the readings of its patterns, a stage finds out about an element and the code behind it which
rule begins there and how much of that code belongs to the opening (`Grouping.firstReads`). For
rules with patterns that come down to ordered choice this is what `FirstFit` and `NoneFits` say
(`firstReads_of_firstFit`, `firstReads_of_noneFits`).

Patterns see texts and kinds only. Elements that are `Alike` in these have the same readings,
whatever their places, and nodes are alike to all patterns that do not ask for them
(`Pattern.reads_congr`).
-/

namespace EztScan

open Element List

variable {es es' : List Element}

/-! ### Elements that patterns cannot tell apart -/

namespace Element

/-- Tokens that differ in their places only, and any two nodes. -/
inductive Alike : Element → Element → Prop
  | token {t u : Token} (text : t.text = u.text) (kind : t.kind = u.kind)
      (sensitive : t.caseSensitive = u.caseSensitive) : Alike (.token t) (.token u)
  | node (h h' : Head) (cs cs' : List Element) : Alike (.node h cs) (.node h' cs')

namespace Alike

variable {e e' : Element}

theorem refl (e : Element) : Alike e e := by
  cases e with
  | token => exact .token rfl rfl rfl
  | node h cs => exact .node h h cs cs

theorem trans {e'' : Element} (h : Alike e e') (h' : Alike e' e'') : Alike e e'' := by
  cases h with
  | token text kind sensitive =>
    cases h' with
    | token text' kind' sensitive' =>
      exact .token (text.trans text') (kind.trans kind') (sensitive.trans sensitive')
  | node =>
    cases h' with
    | node => exact .node ..

theorem lowerText (h : Alike e e') : e.lowerText = e'.lowerText := by
  cases h with
  | token text =>
    change Token.lowerText _ = Token.lowerText _
    unfold Token.lowerText
    rw [text]
  | node => rfl

theorem hasText (h : Alike e e') : e.hasText = e'.hasText := by
  cases h with
  | token text =>
    change Token.hasText _ = Token.hasText _
    unfold Token.hasText
    rw [text]
  | node => rfl

theorem isA (h : Alike e e') (k : Kind) : e.isA k = e'.isA k := by
  cases h with
  | token text kind =>
    change Token.isA _ _ = Token.isA _ _
    unfold Token.isA
    rw [kind]
  | node => rfl

theorem text (h : Alike e e') : e.text = e'.text := by
  cases h with
  | token text => exact text
  | node => rfl

theorem isCode (h : Alike e e') : e.isCode = e'.isCode := by
  cases h with
  | token text kind =>
    change Token.isCode _ = Token.isCode _
    unfold Token.isCode Token.isComment Token.isA Token.isBlank
    rw [text, kind]
  | node => rfl

end Alike

/-- Is the element a token that is not a string and has this text in small letters? -/
def spells (e : Element) (text : String) : Bool :=
  e.hasText && !e.isA .string && e.lowerText == some text

/-- Does the word name the element? -/
def isNamed (text : String) (e : Element) : Bool :=
  e.spells (Text.lower text)

/-- A token that is nothing but this word. -/
def ofWord (text : String) : Element :=
  .token { text := some text, kind := some .generic }

/-- A string, which is code that no word names. -/
def stranger : Element :=
  .token { text := some "'", kind := some .string }

/-- What spells a text has it in small letters. -/
theorem lowerText_of_spells {e : Element} {text : String} (h : e.spells text = true) :
    e.lowerText = some text := by
  unfold spells at h
  rw [Bool.and_eq_true, beq_iff_eq] at h
  exact h.2

theorem forall₂_code {R : Element → Element → Prop} (hR : ∀ e e', R e e' → Alike e e')
    (h : Forall₂ R es es') : Forall₂ R (code es) (code es') := by
  induction h with
  | nil => exact .nil
  | @cons e e' es es' he hes ih =>
    cases hcode : e.isCode with
    | true =>
      rw [code_cons_of_isCode hcode, code_cons_of_isCode ((hR e e' he).isCode ▸ hcode)]
      exact .cons he ih
    | false =>
      rw [code_cons_of_not_isCode hcode, code_cons_of_not_isCode ((hR e e' he).isCode ▸ hcode)]
      exact ih

end Element

namespace Pattern

mutual

/-- Does the pattern look at tokens only? -/
def ignoresNodes : Pattern → Bool
  | .never | .word _ | .kind _ | .exactly _ | .any => true
  | .refuse p => p.ignoresNodes
  | .maybe p => p.ignoresNodes
  | .seq ps => allIgnoreNodes ps
  | .oneOf ps => allIgnoreNodes ps
  | _ => false

/-- Do the patterns look at tokens only? -/
def allIgnoreNodes : List Pattern → Bool
  | [] => true
  | p :: ps => p.ignoresNodes && allIgnoreNodes ps

end

theorem reads_oneOf (ps : List Pattern) (e : Element) (es : List Element) :
    (Pattern.oneOf ps).reads e es = readsOneOf ps e es :=
  rfl

theorem reads_word {word text : String} (h : Text.lower word = text) (e : Element)
    (es : List Element) :
    (Pattern.word word).reads e es = if e.spells text then some 0 else none := by
  subst h
  rfl

theorem reads_word_eq (text : String) (e : Element) (es : List Element) :
    (Pattern.word text).reads e es = if e.isNamed text then some 0 else none :=
  reads_word rfl e es

theorem readsSeq_singleton (p : Pattern) (e : Element) (es : List Element) :
    readsSeq [p] e es = p.reads e es := by
  unfold readsSeq
  cases p.reads e es with
  | none => cases p.isMaybe <;> rfl
  | some => rfl

/-- A part that takes any element leaves the next one to the others. -/
theorem readsSeq_any (p : Pattern) (ps : List Pattern) (e x : Element) (xs : List Element) :
    readsSeq (.any :: p :: ps) e (x :: xs) = (readsSeq (p :: ps) x xs).map (1 + ·) :=
  rfl

/-- What goes on behind the first elements goes on alike. -/
theorem readsBehind_congr {f g : Element → List Element → Option Nat} {k : Nat}
    (h : Forall₂ Alike es es')
    (hfg : ∀ {e e' es es'}, Alike e e' → Forall₂ Alike es es' → f e es = g e' es') :
    readsBehind f k es = readsBehind g k es' := by
  have hdrop := forall₂_drop k h
  unfold readsBehind
  generalize es.drop k = ds at hdrop
  generalize es'.drop k = ds' at hdrop
  cases hdrop with
  | nil => rfl
  | cons he hes =>
    dsimp only
    rw [hfg he hes]

mutual

/-- **Alike elements read alike.** -/
theorem reads_congr :
    ∀ (p : Pattern), p.ignoresNodes = true → ∀ {e e' : Element} {es es' : List Element},
    Alike e e' → Forall₂ Alike es es' → p.reads e es = p.reads e' es'
  | .never, _, _, _, _, _, _, _ => rfl
  | .word text, _, e, e', es, es', he, hes => by
    unfold reads
    rw [he.hasText, he.isA, he.lowerText]
  | .kind k, _, e, e', es, es', he, hes => by
    unfold reads
    rw [he.isA]
  | .exactly t, _, e, e', es, es', he, hes => by
    unfold reads
    have hkind : (t.kind.any fun k => e.isA k) = t.kind.any fun k => e'.isA k := by
      cases t.kind with
      | none => rfl
      | some k => exact he.isA k
    rw [he.text, hkind]
  | .any, _, _, _, _, _, _, _ => rfl
  | .refuse p, h, e, e', es, es', he, hes => by
    unfold reads
    rw [reads_congr p h he hes]
  | .maybe p, h, e, e', es, es', he, hes => by
    unfold reads
    exact reads_congr p h he hes
  | .seq ps, h, e, e', es, es', he, hes => by
    unfold reads
    exact readsSeq_congr ps h he hes
  | .oneOf ps, h, e, e', es, es', he, hes => by
    unfold reads
    exact readsOneOf_congr ps h he hes

theorem readsSeq_congr :
    ∀ (ps : List Pattern), allIgnoreNodes ps = true → ∀ {e e' : Element} {es es' : List Element},
    Alike e e' → Forall₂ Alike es es' → readsSeq ps e es = readsSeq ps e' es'
  | [], _, _, _, _, _, _, _ => rfl
  | p :: ps, h, e, e', es, es', he, hes => by
    have h := Bool.and_eq_true_iff.mp h
    have hbehind : ∀ k, readsBehind (readsSeq ps) k es = readsBehind (readsSeq ps) k es' :=
      fun k => readsBehind_congr hes (readsSeq_congr ps h.2)
    unfold readsSeq
    rw [reads_congr p h.1 he hes, readsSeq_congr ps h.2 he hes]
    cases p.reads e' es' with
    | none => rfl
    | some k =>
      dsimp only
      rw [hbehind k]

theorem readsOneOf_congr :
    ∀ (ps : List Pattern), allIgnoreNodes ps = true → ∀ {e e' : Element} {es es' : List Element},
    Alike e e' → Forall₂ Alike es es' → readsOneOf ps e es = readsOneOf ps e' es'
  | [], _, _, _, _, _, _, _ => rfl
  | p :: ps, h, e, e', es, es', he, hes => by
    have h := Bool.and_eq_true_iff.mp h
    unfold readsOneOf
    rw [reads_congr p h.1 he hes, readsOneOf_congr ps h.2 he hes]

end

end Pattern

/-! ### Patterns that fit tokens only -/

namespace Pattern

mutual

/-- Is the pattern made of texts and kinds? -/
def isTextual : Pattern → Bool
  | .word _ | .kind _ => true
  | .maybe p => p.isTextual
  | .seq ps => allTextual ps
  | .oneOf ps => allTextual ps
  | _ => false

/-- Are the patterns made of texts and kinds? -/
def allTextual : List Pattern → Bool
  | [] => true
  | p :: ps => p.isTextual && allTextual ps

end

mutual

/-- **What a pattern of texts and kinds uses are tokens.** -/
theorem tokens_of_reads :
    ∀ (p : Pattern), p.isTextual = true → ∀ {e : Element} {es : List Element} {k : Nat},
    p.reads e es = some k → (∃ t, e = .token t) ∧ ∀ x ∈ es.take k, ∃ t, x = .token t
  | .word _, _, e, _, _, h | .kind _, _, e, _, _, h => by
    unfold reads at h
    cases e with
    | token t =>
      split at h
      next =>
        obtain rfl := Option.some.inj h
        exact ⟨⟨t, rfl⟩, forall_mem_nil _⟩
      next => exact nomatch h
    | node => exact nomatch h
  | .maybe p, hp, e, es, k, h => by
    unfold reads at h
    exact tokens_of_reads p hp h
  | .seq ps, hps, e, es, k, h => by
    unfold reads at h
    exact tokens_of_readsSeq ps hps h
  | .oneOf ps, hps, e, es, k, h => by
    unfold reads at h
    exact tokens_of_readsOneOf ps hps h

theorem tokens_of_readsSeq :
    ∀ (ps : List Pattern), allTextual ps = true → ∀ {e : Element} {es : List Element} {k : Nat},
    readsSeq ps e es = some k → (∃ t, e = .token t) ∧ ∀ x ∈ es.take k, ∃ t, x = .token t
  | [], _, e, es, k, h => nomatch h
  | p :: ps, hps, e, es, k, h => by
    have hps := Bool.and_eq_true_iff.mp hps
    unfold readsSeq at h
    cases hp : p.reads e es with
    | none =>
      rw [hp] at h
      -- a part that does not fit may still be left out
      cases hmaybe : p.isMaybe with
      | true =>
        rw [hmaybe] at h
        exact tokens_of_readsSeq ps hps.2 h
      | false =>
        rw [hmaybe] at h
        exact nomatch h
    | some j =>
      rw [hp] at h
      obtain ⟨he, hfirst⟩ := tokens_of_reads p hps.1 hp
      refine ⟨he, ?_⟩
      dsimp only at h
      split at h
      next =>
        obtain rfl := Option.some.inj h
        exact hfirst
      next =>
        -- the next element and what is used behind it
        unfold readsBehind at h
        cases hdrop : es.drop j with
        | nil =>
          rw [hdrop] at h
          exact nomatch h
        | cons =>
          rw [hdrop] at h
          obtain ⟨i, hi, rfl⟩ := Option.map_eq_some_iff.mp h
          obtain ⟨hx, hxs⟩ := tokens_of_readsSeq ps hps.2 hi
          rw [Nat.add_assoc, take_add, hdrop, Nat.add_comm, take_succ_cons]
          exact forall_mem_append.mpr ⟨hfirst, forall_mem_cons.mpr ⟨hx, hxs⟩⟩

theorem tokens_of_readsOneOf :
    ∀ (ps : List Pattern), allTextual ps = true → ∀ {e : Element} {es : List Element} {k : Nat},
    readsOneOf ps e es = some k → (∃ t, e = .token t) ∧ ∀ x ∈ es.take k, ∃ t, x = .token t
  | [], _, e, es, k, h => nomatch h
  | p :: ps, hps, e, es, k, h => by
    have hps := Bool.and_eq_true_iff.mp hps
    unfold readsOneOf at h
    rcases Option.or_eq_some_iff.mp h with h | ⟨-, h⟩
    · exact tokens_of_reads p hps.1 h
    · exact tokens_of_readsOneOf ps hps.2 h

end

end Pattern

/-! ### The first rule that fits -/

namespace Grouping

variable {pattern : Rule → Option Pattern} {rules : List Rule} {e : Element} {r : Rule}
  {taken rest : List Element}

/-- The reading of the pattern of a rule, if it has one. -/
def readsRule (pattern : Rule → Option Pattern) (e : Element) (es : List Element) (r : Rule) :
    Option (Rule × Nat) :=
  ((pattern r).bind fun p => p.reads e es).map (r, ·)

/-- The first of some rules that fits an element and the code behind it, and how many elements of
that code it uses. -/
def firstReads (pattern : Rule → Option Pattern) (rules : List Rule) (e : Element)
    (es : List Element) : Option (Rule × Nat) :=
  rules.findSome? (readsRule pattern e es)

theorem firstReads_cons (r : Rule) (rules : List Rule) (e : Element) (es : List Element) :
    firstReads pattern (r :: rules) e es =
      (readsRule pattern e es r).or (firstReads pattern rules e es) := by
  unfold firstReads
  rw [findSome?_cons]
  cases readsRule pattern e es r <;> rfl

/-- Have all of the rules a pattern of this form? -/
def areAll (form : Pattern → Bool) (pattern : Rule → Option Pattern) (rules : List Rule) : Bool :=
  rules.all fun r => (pattern r).any form

theorem exists_of_areAll {form : Pattern → Bool} (h : areAll form pattern rules = true)
    (hr : r ∈ rules) : ∃ p, pattern r = some p ∧ form p = true :=
  (Option.any_eq_true ..).mp (all_eq_true.mp h r hr)

theorem areAll_rulesFor {form : Pattern → Bool} {c : Candidates}
    (h : areAll form pattern (c.byWord.map (·.2) ++ c.others) = true) (e : Element) :
    areAll form pattern (c.rulesFor e) = true :=
  all_eq_true.mpr fun r hr => all_eq_true.mp h r (mem_of_mem_rulesFor hr)

/-- Where none of the rules fits, none has a reading. -/
theorem firstReads_of_noneFits (ho : areAll Pattern.isOrdered pattern rules = true)
    (h : NoneFits pattern rules e rest) : firstReads pattern rules e (code rest) = none := by
  refine findSome?_eq_none_iff.mpr fun r hr => ?_
  obtain ⟨p, hp, hordered⟩ := exists_of_areAll ho hr
  have hrefuses := h r hr
  unfold readsRule
  rw [hp] at hrefuses ⊢
  change (p.reads e (code rest)).map (r, ·) = none
  rw [Pattern.reads_of_refuses hordered hrefuses]
  rfl

/-- The first rule that fits is the first one with a reading, and what it takes is what the reading
uses. -/
theorem firstReads_of_firstFit (ho : areAll Pattern.isOrdered pattern rules = true)
    (h : FirstFit pattern rules e r taken rest) :
    ∃ k, firstReads pattern rules e (code (taken ++ rest)) = some (r, k) ∧
      taken = upTo k (taken ++ rest) ∧
      (code taken).length = k := by
  obtain ⟨before, after, rfl, hbefore, htakes⟩ := h
  have hobefore : areAll Pattern.isOrdered pattern before = true :=
    all_eq_true.mpr fun r hr => all_eq_true.mp ho r (mem_append_left _ hr)
  obtain ⟨p, hp, hordered⟩ := exists_of_areAll ho (mem_append_right before mem_cons_self)
  rw [hp] at htakes
  obtain ⟨k, hreads, htaken, hlength⟩ := Pattern.reads_of_takes hordered htakes
  refine ⟨k, ?_, htaken, hlength⟩
  -- the rules before it have no reading, as they do not fit
  have hnone : before.findSome? (readsRule pattern e (code (taken ++ rest))) = none :=
    firstReads_of_noneFits hobefore hbefore
  have hsome : readsRule pattern e (code (taken ++ rest)) r = some (r, k) := by
    unfold readsRule
    rw [hp]
    change (p.reads e (code (taken ++ rest))).map (r, ·) = _
    rw [hreads]
    rfl
  unfold firstReads
  rw [findSome?_append, hnone, findSome?_cons, hsome]
  rfl

/-- What is found is one of the rules, with the reading of its pattern. -/
theorem mem_of_firstReads {k : Nat} (h : firstReads pattern rules e es = some (r, k)) :
    r ∈ rules ∧ ∃ p, pattern r = some p ∧ p.reads e es = some k := by
  obtain ⟨r', hr', hreads⟩ := exists_of_findSome?_eq_some h
  unfold readsRule at hreads
  obtain ⟨k', hk', hpair⟩ := Option.map_eq_some_iff.mp hreads
  obtain ⟨rfl, rfl⟩ := Prod.mk.inj hpair
  obtain ⟨p, hp, hk'⟩ := Option.bind_eq_some_iff.mp hk'
  exact ⟨hr', p, hp, hk'⟩

/-- Elements that are alike begin the same rules: they have the same text, and so the same rules are
tried on them. -/
theorem firstReads_congr {c : Candidates}
    (h : areAll Pattern.ignoresNodes pattern (c.byWord.map (·.2) ++ c.others) = true)
    {e' : Element} (he : Alike e e') (hes : Forall₂ Alike es es') :
    firstReads pattern (c.rulesFor e) e es = firstReads pattern (c.rulesFor e') e' es' := by
  have hrules : c.rulesFor e = c.rulesFor e' := by
    unfold Candidates.rulesFor
    rw [he.lowerText]
  unfold firstReads
  rw [hrules, ← head?_filterMap, ← head?_filterMap]
  refine congrArg head? (filterMap_congr fun r hr => ?_)
  obtain ⟨p, hp, hignores⟩ := exists_of_areAll h (mem_of_mem_rulesFor hr)
  unfold readsRule
  rw [hp]
  exact congrArg (Option.map (r, ·)) (p.reads_congr hignores he hes)

end Grouping

end EztScan
