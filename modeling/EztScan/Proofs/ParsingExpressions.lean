import EztScan.Proofs.MatchOutcomes

/-!
# Patterns as parsing expressions

A parsing expression takes some elements off the front of a list, or does not match there. It is
made of single elements by sequence, by ordered choice and by a look at what must not come next; an
alternative that has matched is never given up for a later one (`ParsingExpr.length?`). Nothing in
it knows of streams, of places to go back to, or of blanks and comments.

`Pattern.expr` reads a pattern as such an expression: what may be left out is a choice between it
and nothing, and anything but this is any element where this does not match. On an element and the
code behind it, the expression takes one element more than the pattern uses of that code
(`Pattern.length?_expr`). So an attempt on a stream succeeds if and only if the expression matches
the element and the code that the stream gives, and then it has taken the stream up to the last code
that the expression takes, with all blanks and comments in between (`Pattern.tryOn_matches`).
-/

namespace EztScan

open Element

/-- A parsing expression over elements. -/
inductive ParsingExpr where
  /-- Nothing matches. -/
  | fail
  /-- Always matches and takes nothing. -/
  | empty
  /-- One element that is accepted. -/
  | one (accepts : Element → Bool)
  /-- The first, and behind what it takes the second. -/
  | andThen (p q : ParsingExpr)
  /-- The first, or the second where the first does not match. -/
  | orElse (p q : ParsingExpr)
  /-- Takes nothing, and matches only where this does not. -/
  | lacking (p : ParsingExpr)

/-- How many elements the expression takes off the front of some, if it matches there. -/
def ParsingExpr.length? : ParsingExpr → List Element → Option Nat
  | .fail, _ => none
  | .empty, _ => some 0
  | .one accepts, es => if es.head?.any accepts then some 1 else none
  | .andThen p q, es => (p.length? es).bind fun k => (q.length? (es.drop k)).map (k + ·)
  | .orElse p q, es => (p.length? es).or (q.length? es)
  | .lacking p, es => if (p.length? es).isSome then none else some 0

namespace Pattern

mutual

/-- The pattern as a parsing expression. Patterns that do not come down to ordered choice have none
that matches. -/
def expr : Pattern → ParsingExpr
  | .word text => .one fun e => e.hasText && !e.isA .string && e.lowerText == some (Text.lower text)
  | .kind k => .one fun e => e.isA k
  | .exactly t => .one fun e => e.text = t.text ∧ (t.kind.any fun k => e.isA k) = true
  | .refuse p => .andThen (.lacking p.expr) (.one fun _ => true)
  | .any => .one fun _ => true
  | .maybe p => .orElse p.expr .empty
  | .seq ps => exprOfSeq ps
  | .oneOf ps => exprOfChoice ps
  | .node name => .one fun e => e.isNodeOf name
  | .never | .notFollowedBy _ | .repeated _ | .test _ => .fail

/-- The patterns one after the other as a parsing expression. -/
def exprOfSeq : List Pattern → ParsingExpr
  | [] => .empty
  | p :: ps => .andThen p.expr (exprOfSeq ps)

/-- The choice between the patterns as a parsing expression. -/
def exprOfChoice : List Pattern → ParsingExpr
  | [] => .fail
  | p :: ps => .orElse p.expr (exprOfChoice ps)

end

open ParsingExpr

/-! ### Expressions of patterns -/

/-- An expression of one element matches where its first element is accepted. -/
theorem length?_one_cons {accepts : Element → Bool} {e : Element} {es : List Element}
    {used : Option Nat} (h : used = if accepts e then some 0 else none) :
    (ParsingExpr.one accepts).length? (e :: es) = used.map (· + 1) := by
  unfold ParsingExpr.length?
  rw [h]
  cases haccepts : accepts e with
  | true | false => simp [haccepts]

mutual

/-- A pattern of the fragment needs an element. -/
theorem length?_expr_nil : ∀ p : Pattern, p.isOrdered = true → p.expr.length? [] = none
  | .oneOf ps, h => by
    unfold expr
    exact length?_exprOfChoice_nil ps h
  | .seq ps, h => by
    unfold expr
    exact length?_exprOfSeq_nil ps h
  | .refuse p, h => by
    -- this does not match, but there is no element to take either
    unfold expr ParsingExpr.length? ParsingExpr.length?
    rw [length?_expr_nil p (isOrdered_of_isElementary p h)]
    rfl
  | .never, _ | .word _, _ | .kind _, _ | .exactly _, _ | .any, _ | .node _, _ => rfl

theorem length?_exprOfChoice_nil :
    ∀ ps : List Pattern, allOrdered ps = true → (exprOfChoice ps).length? [] = none
  | [], _ => rfl
  | p :: ps, h => by
    have h := Bool.and_eq_true_iff.mp h
    unfold exprOfChoice ParsingExpr.length?
    rw [length?_expr_nil p h.1, length?_exprOfChoice_nil ps h.2]
    rfl

theorem length?_exprOfSeq_nil :
    ∀ ps : List Pattern, seqIsOrdered ps = true → (exprOfSeq ps).length? [] = none
  | [p], h => by
    unfold exprOfSeq ParsingExpr.length?
    rw [length?_expr_nil p h]
    rfl
  | p :: q :: ps, h => by
    obtain ⟨hp | ⟨p, rfl, hp⟩, hps⟩ := of_seqIsOrdered_cons h
    · unfold exprOfSeq ParsingExpr.length?
      rw [length?_expr_nil p hp]
      rfl
    · -- what may be left out takes nothing, and the rest needs an element
      unfold exprOfSeq ParsingExpr.length? expr ParsingExpr.length?
      rw [length?_expr_nil p (isOrdered_of_isElementary p hp)]
      change ((exprOfSeq (q :: ps)).length? []).map (0 + ·) = none
      rw [length?_exprOfSeq_nil (q :: ps) hps]
      rfl

end

/-- Behind the first `k` elements of some code, the expression of a sequence takes one element more
than the sequence uses behind the next one. -/
theorem length?_behind {ps : List Pattern} (hnil : (exprOfSeq ps).length? [] = none)
    (hcons : ∀ e es, (exprOfSeq ps).length? (e :: es) = (readsSeq ps e es).map (· + 1)) (k : Nat)
    (es : List Element) :
    ((exprOfSeq ps).length? (es.drop k)).map (k + 1 + ·) =
      (readsBehind (readsSeq ps) k es).map (· + 1) := by
  unfold readsBehind
  cases es.drop k with
  | nil =>
    rw [hnil]
    rfl
  | cons =>
    rw [hcons, Option.map_map, Option.map_map]
    rfl

mutual

/-- **A pattern of the fragment and its expression agree**: on an element and the code behind it,
the expression takes that element and what the pattern uses of the code. -/
theorem length?_expr : ∀ p : Pattern, p.isOrdered = true → ∀ (e : Element) (es : List Element),
    p.expr.length? (e :: es) = (p.reads e es).map (· + 1)
  | .oneOf ps, h, e, es => by
    unfold expr reads
    exact length?_exprOfChoice ps h e es
  | .seq ps, h, e, es => by
    unfold expr reads
    exact length?_exprOfSeq ps h e es
  | .refuse p, h, e, es => by
    unfold expr reads ParsingExpr.length? ParsingExpr.length?
    rw [length?_expr p (isOrdered_of_isElementary p h) e es, Option.isSome_map]
    cases (p.reads e es).isSome with
    | true | false => rfl
  | .never, _, e, es => rfl
  | .word _, _, e, es | .kind _, _, e, es | .any, _, e, es | .node _, _, e, es =>
    length?_one_cons rfl
  | .exactly t, _, e, es => length?_one_cons (by unfold reads; simp)

theorem length?_exprOfChoice :
    ∀ ps : List Pattern, allOrdered ps = true → ∀ (e : Element) (es : List Element),
    (exprOfChoice ps).length? (e :: es) = (readsOneOf ps e es).map (· + 1)
  | [], _, e, es => rfl
  | p :: ps, h, e, es => by
    have h := Bool.and_eq_true_iff.mp h
    unfold exprOfChoice readsOneOf ParsingExpr.length?
    rw [length?_expr p h.1 e es, length?_exprOfChoice ps h.2 e es]
    -- on both sides the others only count where the first one does not match
    cases p.reads e es with
    | none | some => rfl

/-- The parts of a sequence are matched one behind the other, each on what is left. -/
theorem length?_exprOfSeq :
    ∀ ps : List Pattern, seqIsOrdered ps = true → ∀ (e : Element) (es : List Element),
    (exprOfSeq ps).length? (e :: es) = (readsSeq ps e es).map (· + 1)
  | [p], h, e, es => by
    rw [readsSeq]
    unfold exprOfSeq ParsingExpr.length?
    rw [length?_expr p h e es, isMaybe_of_isOrdered h]
    cases p.reads e es with
    | none | some => rfl
  | p :: q :: ps, h, e, es => by
    obtain ⟨hp | ⟨p, rfl, hp⟩, hps⟩ := of_seqIsOrdered_cons h
    · have hbehind := length?_behind (length?_exprOfSeq_nil (q :: ps) hps)
        (length?_exprOfSeq (q :: ps) hps)
      rw [readsSeq]
      unfold exprOfSeq ParsingExpr.length?
      rw [length?_expr p hp e es, isMaybe_of_isOrdered hp]
      cases p.reads e es with
      | none => rfl
      | some k => exact hbehind k es
    · have hbehind := length?_behind (length?_exprOfSeq_nil (q :: ps) hps)
        (length?_exprOfSeq (q :: ps) hps) 0 es
      have hrest := length?_exprOfSeq (q :: ps) hps e es
      rw [readsSeq, show (Pattern.maybe p).reads e es = p.reads e es from rfl]
      unfold exprOfSeq ParsingExpr.length? expr ParsingExpr.length?
      rw [length?_expr p (isOrdered_of_isElementary p hp) e es, reads_of_isElementary hp e es]
      cases (p.reads e []).isSome with
      | true =>
        -- taken: an elementary pattern uses none of the code, so that the rest begins with the next
        -- element
        exact hbehind
      | false =>
        -- left out: the rest begins with the same element
        change ((exprOfSeq (q :: ps)).length? (e :: es)).map (0 + ·) =
          (readsSeq (q :: ps) e es).map (· + 1)
        rw [hrest, Option.map_map]
        congr 1
        funext j
        exact Nat.zero_add _

end

/-! ### Attempts -/

open Lookahead Work

/-- **Matching is ordered choice on the code of the stream.** An attempt takes the stream up to the
last code that the expression takes where the expression matches, and is refused where it does not;
only a stream that ends in a fault of what feeds it may keep it from an answer. -/
theorem tryOn_matches {p : Pattern} (hp : p.isOrdered = true) (e : Element) {s : Lookahead Element}
    (hs : s.looking = false) :
    (∃ k t, p.expr.length? (e :: code s.toList) = some (k + 1) ∧
        Runs (p.tryOn e true) s (.taken (e :: upTo k s.toList)) t) ∨
      (p.expr.length? (e :: code s.toList) = none ∧
        ∃ answer t, Runs (p.tryOn e true) s answer t ∧ (answer = .refused ∨ answer = .none)) ∨
      ∃ f t, s.broken = some f ∧ (p.tryOn e true).runOn s = (.error f, t) := by
  obtain ⟨outcome, hagrees, hmeets⟩ := agrees_fits hp e (opened_begun s)
  change outcome.Agrees s.ending (p.reads e (code s.toList)) at hagrees
  rw [length?_expr p hp]
  unfold Runs
  rw [runOn_tryOn p e true hs]
  generalize (p.fits e).runOn s.begun = reached at hmeets ⊢
  cases hmeets with
  | @fits k t hseen =>
    left
    have htaken : t.consume.1 = upTo k s.toList :=
      consume_of_gone (s := s.begun) rfl hseen.gone
    refine ⟨k, t.consume.2, by rw [show p.reads e _ = _ from hagrees]; rfl, ?_⟩
    change (Except.ok (Answer.taken (e :: t.consume.1)), t.consume.2) = _
    rw [htaken]
  | refused =>
    -- a pattern that is silent gives no answer in place of a refusal
    refine .inr (.inl ⟨by rw [show p.reads e _ = _ from hagrees]; rfl, _, _, rfl, ?_⟩)
    cases p.isSilent with
    | true => exact .inr rfl
    | false => exact .inl rfl
  | @stopped m f t =>
    obtain ⟨rfl, hused⟩ := hagrees
    change _ ∨ _ ∨ ∃ f u, _ ∧ p.settle e true (.error s.ending, t) = _
    -- the end of a sound stream is a refusal, as nothing can match behind it
    by_cases hend : s.ending = .exhausted
    · refine .inr (.inl ⟨by rw [hused hend]; rfl, .none, { t with index := 0 }.stop, ?_, .inr rfl⟩)
      rw [hend]
      rfl
    · -- the stream is broken, and its fault goes out
      refine .inr (.inr ⟨s.ending, t, ?_, ?_⟩)
      · unfold ending at hend ⊢
        cases hbroken : s.broken with
        | none =>
          rw [hbroken] at hend
          exact absurd rfl hend
        | some => rfl
      · generalize s.ending = f at hend
        cases f with
        | exhausted => exact absurd rfl hend
        | _ => rfl

/-- A command with a name, and maybe with the word `FROM` and something behind it. -/
def commandForm : Pattern :=
  .oneOf [.seq [.word "PUT", .kind .generic, .maybe (.word "NEW"), .word "FROM", .any],
    .seq [.word "PUT", .kind .generic]]

/-- The word that the command begins with. -/
def commandWord : Element :=
  .token { text := some "put", kind := some .generic }

/-- The rest of a command, with a comment and blanks between its words, and one word more. -/
def commandRest : List Element :=
  [.token { text := some " ", kind := some .whitespace },
    .token { text := some "A", kind := some .generic },
    .token { text := some "* c", kind := some .comment },
      .token { text := some "From", kind := some .generic },
    .token { text := some " ", kind := some .whitespace },
      .token { text := some "B", kind := some .generic },
    .token { text := some "C", kind := some .generic }]

theorem tryOn_matches_commandForm :
    commandForm.isOrdered = true ∧ (Lookahead.ofList commandRest).looking = false ∧
      ∃ t, Runs (commandForm.tryOn commandWord true) (.ofList commandRest)
        (.taken (commandWord :: commandRest.take 6)) t := by
  refine ⟨rfl, rfl, ?_⟩
  have hlength : commandForm.expr.length? (commandWord :: code commandRest) = some 4 := by
    decide +kernel
  rcases tryOn_matches (p := commandForm) rfl commandWord (s := .ofList commandRest) rfl with
    ⟨k, t, hk, hruns⟩ | ⟨hnone, -⟩ | ⟨f, t, hbroken, -⟩
  · obtain rfl : 3 = k := Nat.succ.inj (Option.some.inj (hlength.symm.trans hk))
    exact ⟨t, hruns⟩
  · cases hlength.symm.trans hnone
  · cases hbroken

end Pattern

end EztScan
