import EztScan.Proofs.Moves

/-!
# Every step is a move

What each of the operations of a step does to a bench when it succeeds, from changes of the desk
(`Bench.Becomes`) to those that also take elements off the stream (`Bench.Goes`). An operation that
may leave the element to the next one says why it does so (`Tried`). All together give `step_moves`:
a step that succeeds is one of the moves.
-/

namespace EztScan

variable {b b' b₁ : Bench} {u : Unit} {r : Rule} {es : List Element} {o : OpenNode} {e : Element}
  {x : Option (List Element)}
variable {b₂ : Bench} {d₁ d₂ : Desk} {rest rest₁ rest₂ : List Element} {next next₁ next₂ : Nat}

/-- A bench that another one becomes by work on the desk, which is now this one, and on the ledger,
which now has this number to give. -/
structure Bench.Becomes (b : Bench) (d : Desk) (next : Nat) (b' : Bench) : Prop where
  desk : b'.desk = d
  next : b'.ledger.next = next
  stream : b'.stream = b.stream

theorem Bench.Becomes.trans (h₁ : b.Becomes d₁ next₁ b₁) (h₂ : b₁.Becomes d₂ next₂ b₂) :
    b.Becomes d₂ next₂ b₂ :=
  ⟨h₂.desk, h₂.next, h₂.stream.trans h₁.stream⟩

/-- A bench that another one goes over to: with this desk, with these elements to come, with this
number to give, and with no lookahead open. -/
structure Bench.Goes (b : Bench) (d : Desk) (rest : List Element) (next : Nat) (b' : Bench) :
    Prop where
  desk : b'.desk = d
  rest : b'.stream.toList = rest
  next : b'.ledger.next = next
  looking : b'.stream.looking = false
  broken : b'.stream.broken = b.stream.broken

/-- What was tried has changed nothing. -/
abbrev Bench.Stays (b b' : Bench) : Prop :=
  b.Goes b.desk b.stream.toList b.ledger.next b'

theorem Bench.stays (hb : b.stream.looking = false) : b.Stays b :=
  ⟨rfl, rfl, rfl, hb, rfl⟩

theorem Bench.Becomes.goes {d : Desk} (h : b.Becomes d next b') (hb : b.stream.looking = false) :
    b.Goes d b.stream.toList next b' := by
  refine ⟨h.desk, ?_, h.next, ?_, ?_⟩
  · rw [h.stream]
  · rw [h.stream]
    exact hb
  · rw [h.stream]

/-- Work on the desk alone after work that went through the stream. -/
theorem Bench.Goes.becomes (h₁ : b.Goes d₁ rest next₁ b₁) (h₂ : b₁.Becomes d₂ next₂ b₂) :
    b.Goes d₂ rest next₂ b₂ := by
  have h := h₂.goes h₁.looking
  exact ⟨h.desk, h.rest.trans h₁.rest, h.next, h.looking, h.broken.trans h₁.broken⟩

theorem Bench.Goes.trans (h₁ : b.Goes d₁ rest₁ next₁ b₁) (h₂ : b₁.Goes d₂ rest₂ next₂ b₂) :
    b.Goes d₂ rest₂ next₂ b₂ :=
  ⟨h₂.desk, h₂.rest, h₂.next, h₂.looking, h₂.broken.trans h₁.broken⟩

namespace Grouping

open Work
variable {f : Desk → Desk} {n : Node} {pattern : Rule → Option Pattern} {below : List OpenNode}

/-! ### Runs of the small operations -/

theorem runs_onDesk : Runs (onDesk f) b u b' ↔ { b with desk := f b.desk } = b' :=
  runs_modify

theorem becomes_of_runs_onDesk (h : Runs (onDesk f) b u b') :
    b.Becomes (f b.desk) b.ledger.next b' := by
  obtain rfl := runs_onDesk.mp h
  exact ⟨rfl, rfl, rfl⟩

theorem becomes_of_runs_note (h : Runs (note n) b u b') : b.Becomes b.desk b.ledger.next b' := by
  unfold note at h
  obtain ⟨l, hl, rfl⟩ := runs_within.mp h
  obtain rfl := runs_modify.mp hl
  exact ⟨rfl, rfl, rfl⟩

theorem becomes_of_runs_forM_note {α : Type} (f : α → Node) :
    ∀ (os : List α) {b b' : Bench} {u : PUnit}, Runs (os.forM fun o => note (f o)) b u b' →
      b.Becomes b.desk b.ledger.next b' := by
  intro os
  induction os with
  | nil =>
    intro b b' u h
    obtain ⟨-, rfl⟩ := runs_pure.mp h
    exact ⟨rfl, rfl, rfl⟩
  | cons o os ih =>
    intro b b' u h
    obtain ⟨_, b₁, h₁, h₂⟩ := runs_bind.mp h
    have hb₁ := becomes_of_runs_note h₁
    have hb' := ih h₂
    -- the second bench starts from the desk of the first one, which noting has not touched
    rw [hb₁.desk, hb₁.next] at hb'
    exact hb₁.trans hb'

theorem becomes_of_runs_takeComments {cs : List Element} (h : Runs takeComments b cs b') :
    cs = b.desk.comments ∧ b.Becomes { b.desk with comments := [] } b.ledger.next b' := by
  unfold takeComments at h
  simp only [runs_bind, runs_get, runs_onDesk, runs_pure] at h
  obtain ⟨_, _, ⟨rfl, rfl⟩, _, _, rfl, rfl, rfl⟩ := h
  exact ⟨rfl, rfl, rfl, rfl⟩

theorem becomes_of_runs_newNumber {number : Nat} (h : Runs (onLedger newNumber) b number b') :
    number = b.ledger.next ∧ b.Becomes b.desk (b.ledger.next + 1) b' := by
  obtain ⟨l, hl, rfl⟩ := runs_within.mp h
  unfold newNumber at hl
  rw [runs_get_bind] at hl
  obtain ⟨_, hset, rfl⟩ := runs_bind_pure.mp hl
  obtain rfl : { b.ledger with next := b.ledger.next + 1 } = l := (Prod.mk.inj hset).2
  exact ⟨rfl, rfl, rfl, rfl⟩

/-- A new node takes the comments that wait and the next number, and leaves the rest of the desk. -/
theorem becomes_of_runs_openWith {sections : Nat → Sections → Sections}
    (h : Runs (openWith r es sections) b o b') :
    o = .begin r b.ledger.next sections b.desk.comments es ∧
      b.Becomes { b.desk with comments := [] } (b.ledger.next + 1) b' := by
  unfold openWith at h
  simp only [runs_bind, runs_pure] at h
  obtain ⟨comments, b₁, h₁, number, b₂, h₂, rfl, rfl⟩ := h
  obtain ⟨rfl, hb₁⟩ := becomes_of_runs_takeComments h₁
  obtain ⟨rfl, hb₂⟩ := becomes_of_runs_newNumber h₂
  rw [hb₁.desk, hb₁.next] at hb₂
  rw [hb₁.next]
  exact ⟨rfl, hb₁.trans hb₂⟩

theorem becomes_of_runs_openHeader (h : Runs (openHeader r es) b o b') :
    o = (OpenNode.begin r b.ledger.next .head b.desk.comments es).withHeader (es.map headerItem) ∧
      b.Becomes { b.desk with comments := [] } (b.ledger.next + 1) b' := by
  unfold openHeader at h
  simp only [runs_bind, runs_pure] at h
  obtain ⟨o₁, b₁, h₁, rfl, rfl⟩ := h
  obtain ⟨rfl, hb⟩ := becomes_of_runs_openWith h₁
  exact ⟨rfl, hb⟩

theorem becomes_of_runs_deliver (h : Runs (deliver n) b out b') :
    out = (b.desk.deliver n).1 ∧ b.Becomes (b.desk.deliver n).2 b.ledger.next b' := by
  unfold deliver at h
  rw [runs_get_bind] at h
  unfold Desk.deliver
  -- outside all blocks the node leaves the stage, and otherwise it goes into the innermost one
  cases hstack : b.desk.stack with
  | nil =>
    rw [hstack] at h
    obtain ⟨rfl, rfl⟩ := runs_pure.mp h
    exact ⟨rfl, rfl, rfl, rfl⟩
  | cons =>
    rw [hstack] at h
    simp only [runs_bind, runs_onDesk, runs_pure] at h
    obtain ⟨_, _, rfl, rfl, rfl⟩ := h
    exact ⟨rfl, rfl, rfl, rfl⟩

theorem becomes_of_runs_popBlock {rest : List OpenNode} (h : Runs (popBlock o rest) b u b') :
    b.Becomes (b.desk.pop o rest) b.ledger.next b' := by
  unfold popBlock at h
  rw [runs_bind] at h
  obtain ⟨_, b₁, h₁, h⟩ := h
  have hb₁ := becomes_of_runs_note h₁
  split at h
  all_goals
    have hb := becomes_of_runs_onDesk h
    rw [hb₁.desk, hb₁.next] at hb
    exact hb₁.trans hb

/-! ### Runs of what reads the stream -/

/-- What a trial with this answer has done: the element and some that come next were taken, or it
was only looked at and is to come again, or nothing has happened. -/
def Answered (p : Option Pattern) (take : Bool) (e : Element) (b : Bench) :
    Pattern.Answer → Bench → Prop
  | .taken es, b' => take = true ∧ ∃ taken rest, es = e :: taken ∧ b.stream.toList = taken ++ rest ∧
      Pattern.Takes p e taken rest ∧ b.Goes b.desk rest b.ledger.next b'
  | .seen, b' => take = false ∧ (∃ q ∈ p, q.Gives e false b.stream.toList .seen) ∧
      b.Goes b.desk (e :: b.stream.toList) b.ledger.next b'
  | .refused, b' | .none, b' => Pattern.Refuses p e take b.stream.toList ∧ b.Stays b'

/-- What trying a pattern on an element has done: nothing, or the element and some that come next
were taken. -/
def Taken (p : Option Pattern) (e : Element) (b : Bench) : Option (List Element) → Bench → Prop
  | none, b' => Pattern.Refuses p e true b.stream.toList ∧ b.Stays b'
  | some es, b' =>
    ∃ taken rest, es = e :: taken ∧ b.stream.toList = taken ++ rest ∧ Pattern.Takes p e taken rest ∧
      b.Goes b.desk rest b.ledger.next b'

/-- What looking for a rule has done: nothing, or one was found and its pattern has taken
something. -/
def Found (pattern : Rule → Option Pattern) (rules : List Rule) (e : Element) (b : Bench) :
    Option (Rule × List Element) → Bench → Prop
  | none, b' => NoneFits pattern rules e b.stream.toList ∧ b.Stays b'
  | some (r, es), b' => ∃ taken rest, es = e :: taken ∧ b.stream.toList = taken ++ rest ∧
      FirstFit pattern rules e r taken rest ∧ b.Goes b.desk rest b.ledger.next b'

/-- All or nothing, as a fact about the bench: only the stream can have changed. -/
theorem answered_of_runs_onStream {p : Pattern} {take : Bool} {answer : Pattern.Answer}
    (hb : b.stream.looking = false) (h : Runs (onStream (p.tryOn e take)) b answer b') :
    Answered (some p) take e b answer b' := by
  obtain ⟨s, hs, rfl⟩ := runs_within.mp h
  obtain ⟨hlook, hbroken, heff⟩ := Pattern.tryOn_runs hb hs
  have hgives : p.Gives e take b.stream.toList answer := ⟨b.stream, s, hb, rfl, hs⟩
  cases answer with
  | taken =>
    obtain ⟨rfl, taken, rfl, hl⟩ := heff
    rw [hl] at hgives
    exact ⟨rfl, taken, _, rfl, hl, ⟨p, rfl, hgives⟩, rfl, rfl, rfl, hlook, hbroken⟩
  | seen =>
    obtain ⟨rfl, hl⟩ := heff
    exact ⟨rfl, ⟨p, rfl, hgives⟩, rfl, hl, rfl, hlook, hbroken⟩
  | refused => exact ⟨⟨p, rfl, _, hgives, .inl rfl⟩, rfl, heff, rfl, hlook, hbroken⟩
  | none => exact ⟨⟨p, rfl, _, hgives, .inr rfl⟩, rfl, heff, rfl, hlook, hbroken⟩

theorem taken_of_runs_take? {p : Option Pattern} {r : Option (List Element)}
    (hb : b.stream.looking = false) (h : Runs (take? p e) b r b') : Taken p e b r b' := by
  cases p with
  | none => exact absurd h not_runs_throw
  | some p =>
    obtain ⟨answer, b₁, h₁, h⟩ := runs_bind.mp h
    have ha := answered_of_runs_onStream hb h₁
    cases answer with
    | taken =>
      obtain ⟨rfl, rfl⟩ := runs_pure.mp h
      exact ha.2
    | seen =>
      -- the element was to be taken, so it was not put back
      exact nomatch ha.1
    | refused | none =>
      obtain ⟨rfl, rfl⟩ := runs_pure.mp h
      exact ha

/-- After a rule whose pattern took nothing, the search goes on as if from the start. -/
theorem Found.after {rules : List Rule} {b₂ : Bench} {x : Option (Rule × List Element)}
    (h₁ : Taken (pattern r) e b none b₁) (h₂ : Found pattern rules e b₁ x b₂) :
    Found pattern (r :: rules) e b x b₂ := by
  obtain ⟨href, hg₁⟩ := h₁
  cases x with
  | none =>
    obtain ⟨hnone, hg₂⟩ := h₂
    have hg := hg₁.trans hg₂
    -- the rules after `r` were asked with the elements that `r` was asked with
    rw [hg₁.desk, hg₁.rest, hg₁.next] at hg
    rw [hg₁.rest] at hnone
    exact ⟨List.forall_mem_cons.mpr ⟨href, hnone⟩, hg⟩
  | some found =>
    obtain ⟨q, es⟩ := found
    obtain ⟨taken, rest, rfl, hl, ⟨before, after, rfl, hbefore, htakes⟩, hg₂⟩ := h₂
    have hg := hg₁.trans hg₂
    rw [hg₁.desk, hg₁.next] at hg
    rw [hg₁.rest] at hl
    rw [hl] at href
    exact ⟨taken, rest, rfl, hl, ⟨r :: before, after, rfl, List.forall_mem_cons.mpr ⟨href, hbefore⟩,
      htakes⟩, hg⟩

theorem found_of_runs_firstRule? :
    ∀ {rs : List Rule} {b b' : Bench} {x : Option (Rule × List Element)}, b.stream.looking = false →
      Runs (firstRule? pattern e rs) b x b' → Found pattern rs e b x b' := by
  intro rs
  induction rs with
  | nil =>
    intro b b' x hb h
    obtain ⟨rfl, rfl⟩ := runs_pure.mp h
    exact ⟨List.forall_mem_nil _, b.stays hb⟩
  | cons r rs ih =>
    intro b b' x hb h
    unfold firstRule? at h
    rw [runs_bind] at h
    obtain ⟨found, b₁, h₁, h⟩ := h
    have ht := taken_of_runs_take? hb h₁
    cases found with
    | some =>
      -- the first rule fits, and there is none before it
      obtain ⟨rfl, rfl⟩ := runs_pure.mp h
      obtain ⟨taken, rest, rfl, hl, htakes, hg⟩ := ht
      exact ⟨taken, rest, rfl, hl, ⟨[], rs, rfl, List.forall_mem_nil _, htakes⟩, hg⟩
    | none => exact Found.after ht (ih ht.2.looking h)

/-- Blocks are looked for like statements, by their headers where they have one. -/
theorem firstBlock?_eq (e : Element) :
    ∀ rs, firstBlock? e rs = firstRule? (fun r => r.header.or r.opening) e rs := by
  intro rs
  induction rs with
  | nil => rfl
  | cons r rs ih =>
    unfold firstBlock? firstRule?
    rw [ih]

/-! ### Outcomes of operations -/

/-- The outcome of a step: a move, to the desk and the stream that the step ends with. -/
def Moved (index : Index) (regroup : Node → Work Ledger Node) (b : Bench) (e : Element)
    (out : List Element) (b' : Bench) : Prop :=
  ∃ d' rest' next', Move index regroup b.ledger.next b.desk e b.stream.toList out d' rest' next' ∧
    b.Goes d' rest' next' b'

variable {index : Index} {regroup : Node → Work Ledger Node} {e : Element} {b b' : Bench}
  {out : List Element}

/-- A step that goes on after work that has changed nothing. -/
theorem Moved.after (hm : Moved index regroup b₁ e out b') (hg : b.Stays b₁) :
    Moved index regroup b e out b' := by
  obtain ⟨d', rest', next', hm, hg'⟩ := hm
  rw [hg.desk, hg.rest, hg.next] at hm
  exact ⟨d', rest', next', hm, hg.trans hg'⟩

/-- The outcome of an operation that takes the element or, because of `refused`, leaves it to the
next one. -/
def Tried (index : Index) (regroup : Node → Work Ledger Node) (b : Bench) (e : Element)
    (refused : Prop) : Option (List Element) → Bench → Prop
  | none, b' => refused ∧ b.Stays b'
  | some out, b' => Moved index regroup b e out b'

/-! ### Inside a statement -/

/-- A statement is delivered as its rule completes it. It has then left the desk. -/
theorem becomes_of_runs_completeStatement (h : Runs (completeStatement o) b out b') :
    ∃ o', o.complete = (o', none) ∧
      out = (Desk.deliver { b.desk with statement := none } o'.node).1 ∧
      b.Becomes (Desk.deliver { b.desk with statement := none } o'.node).2 b.ledger.next b' := by
  unfold completeStatement at h
  rcases hc : o.complete with ⟨o', fault⟩
  rw [hc] at h
  simp only [runs_bind, runs_onDesk] at h
  obtain ⟨_, _, rfl, h⟩ := h
  cases fault with
  | some =>
    exact absurd h not_runs_throw_bind
  | none =>
    -- the statement is off the desk before it is delivered
    simp only [runs_bind, runs_onDesk] at h
    obtain ⟨_, _, rfl, _, b₂, hnote, hdel⟩ := h
    have hb₂ := becomes_of_runs_note hnote
    obtain ⟨hout, hb'⟩ := becomes_of_runs_deliver hdel
    rw [hb₂.desk] at hout
    rw [hb₂.desk, hb₂.next] at hb'
    exact ⟨o', rfl, hout, hb'.desk, hb'.next, hb'.stream.trans hb₂.stream⟩

/-- What completes a statement that does or does not take in its end, and the desk that it is then
delivered to. -/
theorem becomes_of_runs_endStatement (h : Runs (endStatement o es) b out b') :
    ∃ o₁ d₁ o', o₁.complete = (o', none) ∧
      out = (Desk.deliver { d₁ with statement := none } o'.node).1 ∧
      b.Becomes (Desk.deliver { d₁ with statement := none } o'.node).2 b.ledger.next b' ∧
      (o.rule.takesEnd = true →
        o₁ = ((o.pushAll b.desk.comments).setClosing es.length).pushAll es ∧
          d₁ = { b.desk with comments := [] }) ∧
      (o.rule.takesEnd = false → o₁ = o ∧ d₁ = b.desk) := by
  unfold endStatement at h
  split at h
  next htakes =>
    obtain ⟨comments, b₁, hcs, h⟩ := runs_bind.mp h
    obtain ⟨rfl, hb₁⟩ := becomes_of_runs_takeComments hcs
    obtain ⟨o', hc, hout, hb'⟩ := becomes_of_runs_completeStatement h
    rw [hb₁.desk] at hout
    rw [hb₁.desk, hb₁.next] at hb'
    exact ⟨_, _, o', hc, hout, hb₁.trans hb', fun _ => ⟨rfl, rfl⟩,
      fun hf => nomatch htakes.symm.trans hf⟩
  next htakes =>
    obtain ⟨o', hc, hout, hb'⟩ := becomes_of_runs_completeStatement h
    exact ⟨_, _, o', hc, hout, hb', fun ht => absurd ht htakes, fun _ => ⟨rfl, rfl⟩⟩

-- nobody looks ahead while an element is taken
variable (hb : b.stream.looking = false)

include hb

theorem moved_of_runs_addToStatement (hd : b.desk.statement = some o)
    (hopen : StaysOpen o e b.stream.toList)
    (hno : o.rule.yields = true →
      NoneFits Rule.opening (index.statements.rulesFor e) e b.stream.toList)
    (h : Runs (addToStatement o e) b out b') : Moved index regroup b e out b' := by
  unfold addToStatement at h
  rw [runs_get_bind] at h
  dsimp only at h
  split at h
  -- blanks count only behind a comment, and all else goes into the statement
  next hw =>
    simp only [runs_bind, runs_onDesk, runs_pure] at h
    obtain ⟨_, _, rfl, rfl, rfl⟩ := h
    exact ⟨_, _, _, .await o _ hd hw hopen hno, rfl, rfl, rfl, hb, rfl⟩
  next hw =>
    simp only [runs_bind, runs_onDesk, runs_pure] at h
    obtain ⟨_, _, rfl, rfl, rfl⟩ := h
    exact ⟨_, _, _, .extend o _ hd (by simpa using hw) hopen hno, rfl, rfl, rfl, hb, rfl⟩

/-- Either no statement begins, or the first one that can does, on a desk without comments. -/
theorem goes_of_runs_beginStatement {began : Bool} (h : Runs (beginStatement index e) b began b') :
    (began = false ∧ NoneFits Rule.opening (index.statements.rulesFor e) e b.stream.toList ∧
        b.Stays b') ∨
      (began = true ∧ ∃ r taken rest, b.stream.toList = taken ++ rest ∧
        FirstFit Rule.opening (index.statements.rulesFor e) e r taken rest ∧
        b.Goes { b.desk with
          comments := []
          statement := some (.begin r b.ledger.next .open b.desk.comments (e :: taken)) } rest
          (b.ledger.next + 1) b') := by
  unfold beginStatement at h
  obtain ⟨found, b₁, h₁, h⟩ := runs_bind.mp h
  have hf := found_of_runs_firstRule? hb h₁
  cases found with
  | none =>
    obtain ⟨rfl, rfl⟩ := runs_pure.mp h
    exact .inl ⟨rfl, hf⟩
  | some found =>
    obtain ⟨r, es⟩ := found
    obtain ⟨taken, rest, rfl, hl, hfirst, hg₁⟩ := hf
    -- the comments that wait go into the new statement, in front of what its pattern has taken
    obtain ⟨o, b₂, h₂, h⟩ := runs_bind.mp h
    obtain ⟨rfl, hb₂⟩ := becomes_of_runs_openWith h₂
    obtain ⟨_, h₃, rfl⟩ := runs_bind_pure.mp h
    have hb₃ := becomes_of_runs_onDesk h₃
    have hg := (hg₁.becomes hb₂).becomes hb₃
    rw [hb₂.desk, hb₂.next, hg₁.desk, hg₁.next] at hg
    exact .inr ⟨rfl, r, taken, rest, hl, hfirst, hg⟩

/-- Either nothing has happened, or another statement was begun and the open one is complete and
delivered. -/
theorem tried_of_runs_interruptStatement (hd : b.desk.statement = some o)
    (hyields : o.rule.yields = true) (hopen : StaysOpen o e b.stream.toList)
    (h : Runs (interruptStatement index o e) b x b') :
    Tried index regroup b e (NoneFits Rule.opening (index.statements.rulesFor e) e b.stream.toList)
      x b' := by
  unfold interruptStatement at h
  -- the open statement is put aside for the time of the trial
  obtain ⟨_, b₁, h₁, h⟩ := runs_bind.mp h
  have hb₁ := (becomes_of_runs_onDesk h₁).goes hb
  obtain ⟨began, b₂, h₂, h⟩ := runs_bind.mp h
  have hbegin := goes_of_runs_beginStatement hb₁.looking h₂
  rw [Bench.Stays, hb₁.desk, hb₁.rest, hb₁.next] at hbegin
  obtain ⟨rfl, hnone, hg₂⟩ | ⟨rfl, r, taken, rest, hl, hfirst, hg₂⟩ := hbegin
  all_goals replace hg₂ := hb₁.trans hg₂
  · -- no other statement: the open one is put back
    simp only [Bool.false_eq_true, if_false, runs_bind, runs_pure] at h
    obtain ⟨_, b₃, h₃, rfl, rfl⟩ := h
    have hb₃ := becomes_of_runs_onDesk h₃
    have hg := hg₂.becomes hb₃
    rw [hg₂.desk, hg₂.next] at hg
    refine ⟨hnone, ?_, hg.rest, hg.next, hg.looking, hg.broken⟩
    rw [hg.desk, ← hd]
  · -- another one has begun, and the one put aside ends here
    rw [if_pos rfl] at h
    rcases hc : o.complete with ⟨o', fault⟩
    rw [hc] at h
    cases fault with
    | some =>
      exact absurd h not_runs_throw_bind
    | none =>
      obtain ⟨_, b₃, h₃, h⟩ := runs_bind.mp h
      obtain ⟨out, h₄, rfl⟩ := runs_bind_pure.mp h
      have hb₃ := becomes_of_runs_note h₃
      obtain ⟨rfl, hb₄⟩ := becomes_of_runs_deliver h₄
      have hg₃ := hg₂.becomes hb₃
      have hg := hg₃.becomes hb₄
      rw [hg₃.desk, hg₂.desk, hg₃.next, hg₂.next] at hg
      rw [hg₃.desk, hg₂.desk]
      rw [hl] at hopen
      refine ⟨_, rest, _, ?_, hg⟩
      rw [hl]
      exact .interrupt o o' r taken rest hd hyields hfirst hc _ rfl hopen

theorem moved_of_runs_goOnWithStatement (hd : b.desk.statement = some o)
    (hopen : StaysOpen o e b.stream.toList) (h : Runs (goOnWithStatement index o e) b out b') :
    Moved index regroup b e out b' := by
  unfold goOnWithStatement at h
  split at h
  next hyields =>
    obtain ⟨x, b₁, h₁, h⟩ := runs_bind.mp h
    have ht : Tried index regroup b e _ x b₁ :=
      tried_of_runs_interruptStatement hb hd hyields hopen h₁
    cases x with
    | none =>
      obtain ⟨hnone, hg₁⟩ := ht
      have hd₁ : b₁.desk.statement = some o := by rw [hg₁.desk, hd]
      rw [← hg₁.rest] at hopen hnone
      exact (moved_of_runs_addToStatement hg₁.looking hd₁ hopen (fun _ => hnone) h).after hg₁
    | some =>
      obtain ⟨rfl, rfl⟩ := runs_pure.mp h
      exact ht
  next hyields => exact moved_of_runs_addToStatement hb hd hopen (fun hy => absurd hy hyields) h

/-- While a statement is open, all elements either end it, replace it or go into it. -/
theorem moved_of_runs_inStatement (hd : b.desk.statement = some o)
    (h : Runs (inStatement index o e) b out b') : Moved index regroup b e out b' := by
  unfold inStatement at h
  cases hclosing : o.rule.closing with
  | none =>
    rw [hclosing] at h
    exact absurd h not_runs_throw_bind
  | some closing =>
    simp only [hclosing, pure_bind] at h
    obtain ⟨answer, b₁, h₁, h⟩ := runs_bind.mp h
    have ha := answered_of_runs_onStream hb h₁
    rw [← hclosing] at ha
    cases answer with
    | taken =>
      -- it ends here, with or without the element
      obtain ⟨htakes, taken, rest, rfl, hl, hclose, hg₁⟩ := ha
      obtain ⟨o₁, d₁, o', hc, hout, hb', hyes, -⟩ := becomes_of_runs_endStatement h
      obtain ⟨rfl, rfl⟩ := hyes htakes
      rw [hg₁.desk] at hc hout hb'
      rw [hg₁.next] at hb'
      refine ⟨_, _, _, ?_, hg₁.becomes hb'⟩
      rw [hout, hl]
      exact .close o o' taken rest hd htakes hc hclose
    | seen =>
      obtain ⟨htakes, hclose, hg₁⟩ := ha
      obtain ⟨o₁, d₁, o', hc, hout, hb', -, hno⟩ := becomes_of_runs_endStatement h
      obtain ⟨rfl, rfl⟩ := hno htakes
      rw [hg₁.desk] at hout hb'
      rw [hg₁.next] at hb'
      refine ⟨_, _, _, ?_, hg₁.becomes hb'⟩
      rw [hout]
      exact .leave _ o' _ hd htakes hc hclose
    | refused | none =>
      obtain ⟨hopen, hg₁⟩ := ha
      have hd₁ : b₁.desk.statement = some o := by rw [hg₁.desk, hd]
      rw [← hg₁.rest] at hopen
      exact (moved_of_runs_goOnWithStatement hg₁.looking hd₁ hopen h).after hg₁

/-! ### Terms -/

omit hb in
/-- What becomes of some elements, one after the other. -/
theorem forall₂_of_runs_mapM {f : Element → Work Ledger Element} {R : Element → Element → Prop}
    (hf : ∀ e ∈ es, ∀ {e' l l'}, Runs (f e) l e' l' → R e e') {es' : List Element}
    {l l' : Ledger} (h : Runs (es.mapM f) l es' l') : List.Forall₂ R es es' := by
  induction es generalizing es' l l' with
  | nil =>
    rw [List.mapM_nil] at h
    obtain ⟨rfl, -⟩ := runs_pure.mp h
    exact .nil
  | cons e es ih =>
    obtain ⟨he, hes⟩ := List.forall_mem_cons.mp hf
    rw [List.mapM_cons] at h
    obtain ⟨e₁, l₁, h₁, h⟩ := runs_bind.mp h
    obtain ⟨es₁, h₂, rfl⟩ := runs_bind_pure.mp h
    exact .cons (he h₁) (ih hes h₂)

/-- What is done to each of the children of a term: nodes are regrouped. -/
def rebuild (regroup : Node → Work Ledger Node) : Element → Work Ledger Element
  | .token t => return .token t
  | .node h cs => return (← regroup ⟨h, cs⟩).toElement

omit hb in
theorem runs_rebuild {e' : Element} {l l' : Ledger} (h : Runs (rebuild regroup e) l e' l') :
    Rebuilding regroup l e e' l' := by
  cases e with
  | token =>
    obtain ⟨rfl, rfl⟩ := runs_pure.mp h
    exact ⟨rfl, rfl⟩
  | node =>
    obtain ⟨n, hn, rfl⟩ := runs_bind_pure.mp h
    exact ⟨n, hn, rfl⟩

omit hb in
theorem regroupAll_eq (regroup : Node → Work Ledger Node) (es : List Element) :
    regroupAll regroup es = es.mapM (rebuild regroup) := by
  induction es with
  | nil => rfl
  | cons e es ih =>
    rw [List.mapM_cons, ← ih]
    cases e with
    | token => rfl
    | node => simp only [regroupAll, rebuild, bind_assoc, pure_bind]

omit hb in
theorem rebuilt_of_runs_regroupAll {es' : List Element} {l l' : Ledger}
    (h : Runs (regroupAll regroup es) l es' l') : List.Forall₂ (Rebuilt regroup) es es' :=
  forall₂_of_runs_mapM (fun _ _ _ _ _ h => (runs_rebuild h).rebuilt) (regroupAll_eq _ _ ▸ h)

section Outside

-- from here on no statement is open
variable (hd : b.desk.statement = none)

include hd

/-- A term is taken, regrouped and delivered at once, unless no rule for one fits. -/
theorem tried_of_runs_readTerm (h : Runs (readTerm index regroup e) b x b') :
    Tried index regroup b e (NoneFits Rule.shape (index.terms.rulesFor e) e b.stream.toList)
      x b' := by
  unfold readTerm at h
  obtain ⟨found, b₁, h₁, h⟩ := runs_bind.mp h
  have hf := found_of_runs_firstRule? hb h₁
  cases found with
  | none =>
    obtain ⟨rfl, rfl⟩ := runs_pure.mp h
    exact hf
  | some found =>
    obtain ⟨r, es⟩ := found
    obtain ⟨taken, rest, rfl, hl, hfirst, hg₁⟩ := hf
    obtain ⟨o, b₂, h₂, h⟩ := runs_bind.mp h
    obtain ⟨ho, hb₂⟩ := becomes_of_runs_openWith h₂
    have hg₂ := hg₁.becomes hb₂
    rw [hg₁.desk, hg₁.next] at ho hg₂
    obtain ⟨children, b₃, h₃, h⟩ := runs_bind.mp h
    obtain ⟨l, hl₃, rfl⟩ := runs_within.mp h₃
    have hch := rebuilt_of_runs_regroupAll hl₃
    -- what a term has taken is regrouped by work on the ledger alone
    have hg₃ : b.Goes { b.desk with comments := [] } rest l.next { b₂ with ledger := l } :=
      ⟨hg₂.desk, hg₂.rest, rfl, hg₂.looking, hg₂.broken⟩
    rcases hc : (o.withNode { o.node with children }).complete with ⟨o', fault⟩
    rw [hc] at h
    cases fault with
    | some =>
      exact absurd h not_runs_throw_bind
    | none =>
      obtain ⟨out, h₄, rfl⟩ := runs_bind_pure.mp h
      obtain ⟨rfl, hb₄⟩ := becomes_of_runs_deliver h₄
      have hg := hg₃.becomes hb₄
      rw [hg₃.desk, hg₃.next] at hg
      refine ⟨_, rest, _, ?_, hg⟩
      rw [hl, hg₃.desk]
      exact .term r o o' taken children rest hd hfirst ho hch hc b₂.ledger l hg₂.next hl₃

/-! ### Blocks -/

/-- The innermost block ends where its closing fits. -/
theorem tried_of_runs_endBlock (hu : Unbegun index e b.stream.toList)
    (h : Runs (endBlock e) b x b') :
    Tried index regroup b e (∀ o ∈ b.desk.stack.head?, StaysOpen o e b.stream.toList) x b' := by
  unfold endBlock at h
  rw [runs_get_bind] at h
  cases hs : b.desk.stack with
  | nil =>
    rw [hs] at h
    obtain ⟨rfl, rfl⟩ := runs_pure.mp h
    exact ⟨fun o ho => absurd ho (Option.not_mem_none o), b.stays hb⟩
  | cons o below =>
    rw [hs] at h
    dsimp only at h
    cases hclosing : o.rule.closing with
    | none =>
      rw [hclosing] at h
      exact absurd h not_runs_throw_bind
    | some closing =>
      simp only [hclosing, pure_bind] at h
      obtain ⟨answer, b₁, h₁, h⟩ := runs_bind.mp h
      have ha := answered_of_runs_onStream hb h₁
      rw [← hclosing] at ha
      cases answer with
      | taken =>
        obtain ⟨-, taken, rest, rfl, hl, hclose, hg₁⟩ := ha
        rw [hl] at hu
        -- the block leaves the stack even if it cannot be completed; the stage stops only then
        rcases hc : ((o.pushAll (e :: taken)).setClosing (e :: taken).length).complete with
          ⟨o', fault⟩
        dsimp only at h
        rw [hc] at h
        obtain ⟨_, b₂, h₂, h⟩ := runs_bind.mp h
        have hg := hg₁.becomes (becomes_of_runs_popBlock h₂)
        rw [hg₁.desk, hg₁.next] at hg
        cases fault with
        | some =>
          exact absurd h not_runs_throw_bind
        | none =>
          obtain ⟨rfl, rfl⟩ := runs_pure.mp h
          refine ⟨_, _, _, ?_, hg⟩
          rw [hl]
          exact .finish o o' below taken rest hd hs hc hclose hu
      | seen =>
        -- a block that does not take in its end stops the stage
        obtain ⟨_, _, -, hthrow⟩ := runs_bind.mp h
        exact absurd hthrow not_runs_throw
      | refused | none =>
        obtain ⟨rfl, rfl⟩ := runs_pure.mp h
        exact ⟨fun _ ho => Option.mem_some_iff.mp ho ▸ ha.1, ha.2⟩

/-- A second header ends a block without an opening, and begins another one by the same rule. -/
theorem tried_of_runs_restartBlock (hh : b.desk.inHeader = true) (hs : b.desk.stack = o :: below)
    (hopen : StaysOpen o e b.stream.toList) (hu : Unbegun index e b.stream.toList)
    (h : Runs (restartBlock o below e) b x b') :
    Tried index regroup b e (NotRestarted o e b.stream.toList) x b' := by
  unfold restartBlock at h
  split at h
  next hno =>
    obtain ⟨rfl, rfl⟩ := runs_pure.mp h
    exact ⟨.inl hno, b.stays hb⟩
  next hno =>
    have hnests : o.rule.nests = false := by
      cases hn : o.rule.nests with
      | false => rfl
      | true => exact absurd (by rw [hn, Bool.true_or]) hno
    obtain ⟨found, b₁, h₁, h⟩ := runs_bind.mp h
    have ht := taken_of_runs_take? hb h₁
    cases found with
    | none =>
      obtain ⟨rfl, rfl⟩ := runs_pure.mp h
      exact ⟨.inr ht.1, ht.2⟩
    | some =>
      obtain ⟨taken, rest, rfl, hl, hheader, hg₁⟩ := ht
      rw [hl] at hopen hu
      obtain ⟨new, b₂, h₂, h⟩ := runs_bind.mp h
      obtain ⟨hnew, hb₂⟩ := becomes_of_runs_openHeader h₂
      have hg₂ := hg₁.becomes hb₂
      rw [hg₁.desk, hg₁.next] at hnew hg₂
      -- the new block is made from the comments first, and then the old one leaves the stack
      rcases hc : o.complete with ⟨o', fault⟩
      rw [hc] at h
      obtain ⟨_, b₃, h₃, h⟩ := runs_bind.mp h
      have hg₃ := hg₂.becomes (becomes_of_runs_popBlock h₃)
      rw [hg₂.desk, hg₂.next] at hg₃
      cases fault with
      | some =>
        exact absurd h not_runs_throw_bind
      | none =>
        obtain ⟨_, h₄, rfl⟩ := runs_bind_pure.mp h
        have hg := hg₃.becomes (becomes_of_runs_onDesk h₄)
        rw [hg₃.desk, hg₃.next, hnew] at hg
        refine ⟨_, rest, _, ?_, hg⟩
        rw [hl]
        exact .restart o o' below taken rest hd hh hs hnests hc _ rfl hheader hopen hu

theorem moved_of_runs_inHeader (hh : b.desk.inHeader = true) (hs : b.desk.stack = o :: below)
    (hopen : StaysOpen o e b.stream.toList) (hu : Unbegun index e b.stream.toList)
    (h : Runs (inHeader o below e) b out b') : Moved index regroup b e out b' := by
  unfold inHeader at h
  obtain ⟨x, b₁, h₁, h⟩ := runs_bind.mp h
  have ht : Tried index regroup b e _ x b₁ := tried_of_runs_restartBlock hb hd hh hs hopen hu h₁
  cases x with
  | some =>
    obtain ⟨rfl, rfl⟩ := runs_pure.mp h
    exact ht
  | none =>
    obtain ⟨hno, hg₁⟩ := ht
    -- no other header, so that the block begins here or its header goes on
    obtain ⟨found, b₂, h₂, h⟩ := runs_bind.mp h
    have ht₂ := taken_of_runs_take? hg₁.looking h₂
    cases found with
    | some =>
      obtain ⟨taken, rest, rfl, hl, hopening, hg₂⟩ := ht₂
      obtain ⟨_, h₃, rfl⟩ := runs_bind_pure.mp h
      have hg := (hg₁.trans hg₂).becomes (becomes_of_runs_onDesk h₃)
      rw [hg₂.desk, hg₂.next, hg₁.desk, hg₁.next] at hg
      rw [← hg₁.rest, hl] at hno hopen hu
      refine ⟨_, rest, _, ?_, hg⟩
      rw [← hg₁.rest, hl]
      exact .open o below taken rest hd hh hs hopening hno hopen hu
    | none =>
      obtain ⟨hopening, hg₂⟩ := ht₂
      obtain ⟨_, h₃, rfl⟩ := runs_bind_pure.mp h
      have hg := (hg₁.trans hg₂).becomes (becomes_of_runs_onDesk h₃)
      rw [hg₂.desk, hg₂.next, hg₁.desk, hg₁.rest, hg₁.next] at hg
      rw [hg₁.rest] at hopening
      exact ⟨_, _, _, .head o below _ hd hh hs hopening hno hopen hu, hg⟩

omit hb hd in
/-- A new block goes on the stack in one of the ways of `Desk.enter`. -/
theorem becomes_of_runs_pushBlock (h : Runs (pushBlock o) b out b') :
    ∃ d', b.desk.enter o = some (out, d') ∧ b.Becomes d' b.ledger.next b' := by
  unfold pushBlock at h
  rw [runs_get_bind] at h
  unfold Desk.enter
  cases hs : b.desk.stack with
  | nil =>
    rw [hs] at h
    obtain ⟨_, h₁, rfl⟩ := runs_bind_pure.mp h
    exact ⟨_, rfl, becomes_of_runs_onDesk h₁⟩
  | cons parent rest =>
    rw [hs] at h
    dsimp only at h ⊢
    split at h
    next hnests =>
      rw [if_pos hnests]
      obtain ⟨_, h₁, rfl⟩ := runs_bind_pure.mp h
      exact ⟨_, rfl, becomes_of_runs_onDesk h₁⟩
    next hnests =>
      -- a block that does not nest ends all open ones at once
      rw [if_neg hnests]
      cases hlast : (Desk.attachAll (parent :: rest)).getLast? with
      | none =>
        rw [hlast] at h
        exact absurd h not_runs_throw
      | some =>
        rw [hlast] at h
        dsimp only at h ⊢
        split at h
        next hkind =>
          rw [if_pos hkind]
          obtain ⟨_, b₁, h₁, h⟩ := runs_bind.mp h
          obtain ⟨_, h₂, rfl⟩ := runs_bind_pure.mp h
          have hb₁ := becomes_of_runs_forM_note OpenNode.node _ h₁
          have hb₂ := becomes_of_runs_onDesk h₂
          rw [hb₁.desk, hb₁.next] at hb₂
          exact ⟨_, rfl, hb₁.trans hb₂⟩
        next => exact absurd h not_runs_throw

/-- A block begins with the first rule that fits, with its header or its opening. -/
theorem tried_of_runs_beginBlock (hh : b.desk.inHeader = false ∨ b.desk.stack = [])
    (hopen : ∀ o ∈ b.desk.stack.head?, StaysOpen o e b.stream.toList)
    (hu : Unbegun index e b.stream.toList) (h : Runs (beginBlock index e) b x b') :
    Tried index regroup b e (NoneFits blockStart (index.blocks.rulesFor e) e b.stream.toList)
      x b' := by
  unfold beginBlock at h
  rw [firstBlock?_eq] at h
  obtain ⟨found, b₁, h₁, h⟩ := runs_bind.mp h
  have hf := found_of_runs_firstRule? hb h₁
  cases found with
  | none =>
    obtain ⟨rfl, rfl⟩ := runs_pure.mp h
    exact hf
  | some found =>
    obtain ⟨r, es⟩ := found
    obtain ⟨taken, rest, rfl, hl, hfirst, hg₁⟩ := hf
    rw [hl] at hopen hu
    -- both ways lead to a new block and a desk without waiting comments
    have hpush : ∀ (inHeader : Bool) (b₂ : Bench) (out : List Element) (b₃ : Bench),
        b.Goes { b.desk with comments := [], inHeader } rest (b.ledger.next + 1) b₂ →
        Runs (pushBlock (blockFor r b.ledger.next b.desk.comments (e :: taken))) b₂ out b₃ →
        Moved index regroup b e out b₃ := by
      intro inHeader b₂ out b₃ hg₂ h₃
      obtain ⟨d', henter, hb₃⟩ := becomes_of_runs_pushBlock h₃
      rw [hg₂.desk] at henter
      rw [hg₂.next] at hb₃
      refine ⟨d', rest, _, ?_, hg₂.becomes hb₃⟩
      rw [hl]
      exact .enter r taken rest out inHeader d' hd hfirst henter hh hopen hu
    dsimp only at h
    split at h
    next hheader =>
      obtain ⟨_, b₂, h₂, h⟩ := runs_bind.mp h
      obtain ⟨o, b₃, h₃, h⟩ := runs_bind.mp h
      obtain ⟨out, h₄, rfl⟩ := runs_bind_pure.mp h
      have hg₂ := hg₁.becomes (becomes_of_runs_onDesk h₂)
      rw [hg₁.desk, hg₁.next] at hg₂
      obtain ⟨rfl, hb₃⟩ := becomes_of_runs_openHeader h₃
      have hg₃ := hg₂.becomes hb₃
      rw [hg₂.desk, hg₂.next] at hg₃ h₄
      refine hpush true b₃ out _ hg₃ ?_
      unfold blockFor
      rw [if_pos hheader]
      exact h₄
    next hheader =>
      obtain ⟨o, b₃, h₃, h⟩ := runs_bind.mp h
      obtain ⟨out, h₄, rfl⟩ := runs_bind_pure.mp h
      obtain ⟨rfl, hb₃⟩ := becomes_of_runs_openWith h₃
      have hg₃ := hg₁.becomes hb₃
      rw [hg₁.desk, hg₁.next] at hg₃ h₄
      refine hpush b.desk.inHeader b₃ out _ hg₃ ?_
      unfold blockFor
      rw [if_neg hheader]
      exact h₄

/-! ### All elements -/

theorem moved_of_runs_place (hu : Unclaimed index b.desk e b.stream.toList)
    (h : Runs (place e) b out b') : Moved index regroup b e out b' := by
  unfold place at h
  rw [runs_get_bind] at h
  dsimp only at h
  split at h
  next o below hs =>
    obtain ⟨_, h₁, rfl⟩ := runs_bind_pure.mp h
    exact ⟨_, _, _, .place o below _ hd hs hu, (becomes_of_runs_onDesk h₁).goes hb⟩
  next hs =>
    split at h
    next hw =>
      obtain ⟨_, h₁, rfl⟩ := runs_bind_pure.mp h
      exact ⟨_, _, _, .hold _ hd hs hw hu, (becomes_of_runs_onDesk h₁).goes hb⟩
    next hw =>
      have hw' : awaitsWith b.desk.comments e = false := by simpa using hw
      split at h
      next htext =>
        obtain ⟨_, h₁, rfl⟩ := runs_bind_pure.mp h
        exact ⟨_, _, _, .flush _ hd hs hw' htext hu, (becomes_of_runs_onDesk h₁).goes hb⟩
      next htext =>
        obtain ⟨rfl, rfl⟩ := runs_pure.mp h
        exact ⟨_, _, _, .pass _ hd hs hw' (by simpa using htext) hu, b.stays hb⟩

theorem moved_of_runs_outsideBlocks
    (hopen : ∀ o ∈ b.desk.stack.head?, StaysOpen o e b.stream.toList)
    (hu : Unbegun index e b.stream.toList) (hh : b.desk.inHeader = false ∨ b.desk.stack = [])
    (h : Runs (outsideBlocks index e) b out b') : Moved index regroup b e out b' := by
  unfold outsideBlocks at h
  obtain ⟨x, b₁, h₁, h⟩ := runs_bind.mp h
  have ht : Tried index regroup b e _ x b₁ := tried_of_runs_beginBlock hb hd hh hopen hu h₁
  cases x with
  | some =>
    obtain ⟨rfl, rfl⟩ := runs_pure.mp h
    exact ht
  | none =>
    obtain ⟨hblocks, hg₁⟩ := ht
    refine Moved.after ?_ hg₁
    have hd₁ : b₁.desk.statement = none := by rw [hg₁.desk, hd]
    refine moved_of_runs_place hg₁.looking hd₁ ?_ h
    rw [hg₁.desk, hg₁.rest]
    exact ⟨hu, hopen, hh, hblocks⟩

/-- All that can begin or end outside of statements is tried, and if nothing fits, the element is
placed. -/
theorem moved_of_runs_outsideStatement (h : Runs (outsideStatement index regroup e) b out b') :
    Moved index regroup b e out b' := by
  unfold outsideStatement at h
  obtain ⟨x, b₁, h₁, h⟩ := runs_bind.mp h
  -- terms, statements, ends of blocks and blocks are tried in this order, each after the ones
  -- before have refused
  have ht₁ := tried_of_runs_readTerm hb hd h₁
  cases x with
  | some =>
    obtain ⟨rfl, rfl⟩ := runs_pure.mp h
    exact ht₁
  | none =>
    obtain ⟨hterms, hg₁⟩ := ht₁
    refine Moved.after ?_ hg₁
    rw [← hg₁.rest] at hterms
    have hd₁ : b₁.desk.statement = none := by rw [hg₁.desk, hd]
    obtain ⟨began, b₂, h₂, h⟩ := runs_bind.mp h
    obtain ⟨rfl, hnone, hg₂⟩ | ⟨rfl, r, taken, rest, hl, hfirst, hg₂⟩ :=
      goes_of_runs_beginStatement hg₁.looking h₂
    · rw [if_neg Bool.false_ne_true] at h
      refine Moved.after ?_ hg₂
      have hu : Unbegun index e b₂.stream.toList := by
        rw [hg₂.rest]
        exact ⟨hterms, hnone⟩
      have hd₂ : b₂.desk.statement = none := by rw [hg₂.desk, hd₁]
      obtain ⟨x, b₃, h₃, h⟩ := runs_bind.mp h
      have ht₃ : Tried index regroup b₂ e _ x b₃ := tried_of_runs_endBlock hg₂.looking hd₂ hu h₃
      cases x with
      | some =>
        obtain ⟨rfl, rfl⟩ := runs_pure.mp h
        exact ht₃
      | none =>
        obtain ⟨hopen, hg₃⟩ := ht₃
        refine Moved.after ?_ hg₃
        rw [← hg₃.rest] at hopen hu
        rw [← hg₃.desk] at hopen
        have hd₃ : b₃.desk.statement = none := by rw [hg₃.desk, hd₂]
        rw [runs_get_bind] at h
        dsimp only at h
        split at h
        next o below hh hs =>
          exact moved_of_runs_inHeader hg₃.looking hd₃ hh hs (hopen o (by rw [hs]; rfl)) hu h
        next hcases =>
          -- what is left of the two conditions: no header is being read, or there is no block to
          -- have one
          refine moved_of_runs_outsideBlocks hg₃.looking hd₃ hopen hu ?_ h
          cases hh : b₃.desk.inHeader with
          | false => exact .inl rfl
          | true =>
            cases hs : b₃.desk.stack with
            | nil => exact .inr rfl
            | cons o below => exact absurd hs (hcases o below hh)
    · rw [if_pos rfl] at h
      obtain ⟨rfl, rfl⟩ := runs_pure.mp h
      rw [hl] at hterms
      refine ⟨_, rest, _, ?_, hg₂⟩
      rw [hl]
      exact .begin r taken rest hd₁ hfirst hterms

end Outside

theorem moved_of_runs_take (h : Runs (take index regroup e) b out b') :
    Moved index regroup b e out b' := by
  unfold take at h
  rw [runs_get_bind] at h
  split at h
  next o hd => exact moved_of_runs_inStatement hb hd h
  next hd => exact moved_of_runs_outsideStatement hb hd h

/-- **Every step is a move.** An element that is a node is regrouped first; what it has become is
then taken in one of the ways that `Move` lists. -/
theorem step_moves (h : Runs (step index regroup e) b out b') :
    ∃ e' l, Rebuilding regroup b.ledger e e' l ∧
      Moved index regroup { b with ledger := l } e' out b' := by
  unfold step at h
  cases e with
  | token t => exact ⟨.token t, b.ledger, ⟨rfl, rfl⟩, moved_of_runs_take hb h⟩
  | node =>
    obtain ⟨n, b₁, hn, h⟩ := runs_bind.mp h
    obtain ⟨l, hl, rfl⟩ := runs_within.mp hn
    exact ⟨n.toElement, l, ⟨n, hl, rfl⟩, moved_of_runs_take hb h⟩

end Grouping

end EztScan
