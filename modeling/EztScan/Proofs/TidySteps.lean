import EztScan.Proofs.Attempts
import EztScan.Proofs.Sound

/-!
# Steps keep the bench tidy

A stage may begin with anything on its desk that earlier sources have left there: blocks that
already stand in the block around them, and statements that have come to their end but were not
delivered because of a fault. What is true of all such benches is that they are tidy (`Bench.Tidy`):
the comments that wait are no code, and all nodes on the desk, among the elements that come and in
the ledger are sound.

Each operation of a stage upholds it, whether or not it stops with a fault, and what the operation
gives is sound. There is one lemma for each of them, and `Grouping.tidies_step` is put together from
these.
-/

namespace EztScan

open Work List

variable {o : OpenNode} {rest : List OpenNode} {n : Node} {e : Element} {es : List Element}
variable {comments : List Element} {stack : List OpenNode}

/-! ### What is kept -/

/-- All of these elements are sound. -/
def Element.AllSound (es : List Element) : Prop :=
  ∀ e ∈ es, e.Sound

/-- Only blanks and comments wait, and all open nodes are sound. -/
structure Desk.Tidy (d : Desk) : Prop where
  comments : ∀ e ∈ d.comments, e.isCode = false
  statement : ∀ o ∈ d.statement, o.Sound
  stack : ∀ o ∈ d.stack, o.Sound

/-- All nodes that have been noted are sound. -/
def Ledger.Tidy (l : Ledger) : Prop :=
  ∀ p ∈ l.notes, p.2.toElement.Sound

/-- All that a stage works with is sound. -/
structure Bench.Tidy (b : Bench) : Prop where
  desk : b.desk.Tidy
  stream : Element.AllSound b.stream.toList
  ledger : b.ledger.Tidy

open Element

namespace Element.AllSound

variable {e : Element} {es : List Element}

theorem nil : AllSound [] :=
  forall_mem_nil _

theorem singleton (he : e.Sound) : AllSound [e] :=
  forall_mem_singleton.mpr he

theorem of_idle (h : ∀ e ∈ es, e.isCode = false) : AllSound es :=
  fun e he => everywhere_of_not_isCode (h e he)

end Element.AllSound

namespace Desk.Tidy

variable {d : Desk}

theorem empty : Desk.Tidy {} :=
  ⟨forall_mem_nil _, fun o ho => absurd ho (Option.not_mem_none o), forall_mem_nil _⟩

theorem setComments (hd : d.Tidy) (hc : ∀ e ∈ comments, e.isCode = false) :
    Desk.Tidy { d with comments } :=
  ⟨hc, hd.statement, hd.stack⟩

theorem takeComments (hd : d.Tidy) : Desk.Tidy { d with comments := [] } :=
  hd.setComments (forall_mem_nil _)

theorem endStatement (hd : d.Tidy) : Desk.Tidy { d with statement := none } :=
  ⟨hd.comments, fun o ho => absurd ho (Option.not_mem_none o), hd.stack⟩

theorem setStatement (hd : d.Tidy) (ho : o.Sound) : Desk.Tidy { d with statement := some o } :=
  ⟨hd.comments, fun _ h => Option.mem_some_iff.mp h ▸ ho, hd.stack⟩

theorem setStack (hd : d.Tidy) (hs : ∀ o ∈ stack, o.Sound) : Desk.Tidy { d with stack } :=
  ⟨hd.comments, hd.statement, hs⟩

theorem cons (hd : d.Tidy) (hs : d.stack = o :: rest) : o.Sound ∧ ∀ p ∈ rest, p.Sound :=
  forall_mem_cons.mp (hs ▸ hd.stack)

theorem setInHeader (hd : d.Tidy) (inHeader : Bool) : Desk.Tidy { d with inHeader } :=
  ⟨hd.comments, hd.statement, hd.stack⟩

end Desk.Tidy

theorem Ledger.Tidy.note {l : Ledger} (hl : l.Tidy) (hn : n.toElement.Sound) : (l.note n).Tidy :=
  forall_mem_cons.mpr ⟨hn, hl⟩

/-- Open blocks that are put into each other stay sound. -/
theorem Desk.sound_attachFrom (rest : List OpenNode) :
    ∀ {o : OpenNode}, o.Sound → (∀ p ∈ rest, p.Sound) → ∀ p ∈ attachFrom o rest, p.Sound := by
  induction rest with
  | nil => exact fun ho _ => forall_mem_singleton.mpr ho
  | cons parent rest ih =>
    intro o ho hrest
    obtain ⟨hparent, hrest⟩ := forall_mem_cons.mp hrest
    unfold attachFrom
    refine forall_mem_cons.mpr ⟨ho.congr rfl rfl, ih ?_ hrest⟩
    split
    · exact hparent
    · exact hparent.push ho

theorem Desk.sound_attachAll (h : ∀ o ∈ stack, o.Sound) : ∀ o ∈ attachAll stack, o.Sound := by
  cases stack with
  | nil => exact h
  | cons o rest =>
    obtain ⟨ho, hrest⟩ := forall_mem_cons.mp h
    exact sound_attachFrom rest ho hrest

/-! ### Attempts -/

/-- The elements that an attempt takes come from the stream, and so do those that are left. -/
theorem Pattern.upholds_tryOn (p : Pattern) (he : e.Sound) (take : Bool) :
    Upholds (fun s => AllSound s.toList) (fun answer => ∀ es, answer = .taken es → AllSound es)
      (p.tryOn e take) := by
  refine upholds_iff.mpr fun s hs => ?_
  cases hlook : s.looking with
  | true =>
    -- a fault has left a lookahead open, and nothing is tried
    rw [runOn_tryOn_of_looking p e take hlook]
    exact ⟨hs, fun answer ha => (by cases ha)⟩
  | false =>
    rw [runOn_tryOn p e take hlook]
    -- the match, whatever came of it, has left the elements of the stream alone
    obtain ⟨-, -, hl⟩ := keeps_fits p e s.begun rfl
    generalize (p.fits e).runOn s.begun = reached at hl
    obtain ⟨outcome, u⟩ := reached
    have hu : AllSound u.toList := by
      have hlist : u.toList = s.toList := hl
      rw [hlist]
      exact hs
    cases outcome with
    | ok found =>
      cases found with
      | true =>
        cases take with
        | true =>
          rw [← u.consume_append] at hu
          obtain ⟨htaken, hrest⟩ := forall_mem_append.mp hu
          refine ⟨hrest, fun answer ha es hes => ?_⟩
          obtain rfl : e :: u.consume.1 = es := Answer.taken.inj ((Except.ok.inj ha).trans hes)
          exact forall_mem_cons.mpr ⟨he, htaken⟩
        | false =>
          refine ⟨forall_mem_cons.mpr ⟨he, hu⟩, fun answer ha es hes => ?_⟩
          cases (Except.ok.inj ha).trans hes
      | false =>
        refine ⟨hu, fun answer ha es hes => ?_⟩
        have hnot : (if p.isSilent then Answer.none else .refused) = .taken es :=
          (Except.ok.inj ha).trans hes
        split at hnot <;> cases hnot
    | error f =>
      cases f with
      | exhausted =>
        refine ⟨hu, fun answer ha es hes => ?_⟩
        cases (Except.ok.inj ha).trans hes
      | _ => exact ⟨hu, fun answer ha => (by cases ha)⟩

/-! ### The operations of a stage -/

namespace Grouping

variable {α : Type} {Q : α → Prop}

/-- The work keeps the bench tidy, and a value that it gives has the property `Q`. -/
abbrev Tidies (Q : α → Prop) (w : Grouping α) : Prop :=
  Upholds Bench.Tidy Q w

/-- An operation that may find that it does not apply gives sound elements if it does. -/
def MaybeSound (found : Option (List Element)) : Prop :=
  ∀ es ∈ found, AllSound es

theorem maybeSound_none : MaybeSound none :=
  fun es hes => absurd hes (Option.not_mem_none es)

theorem maybeSound_some (hes : AllSound es) : MaybeSound (some es) :=
  fun _ h => Option.mem_some_iff.mp h ▸ hes

theorem tidies_onDesk {f : Desk → Desk} (h : ∀ d, d.Tidy → (f d).Tidy) :
    Tidies (fun _ => True) (onDesk f) :=
  upholds_modify fun b hb => ⟨h b.desk hb.desk, hb.stream, hb.ledger⟩

theorem tidies_onDesk_pure {f : Desk → Desk} (h : ∀ d, d.Tidy → (f d).Tidy) {a : α} (ha : Q a) :
    Tidies Q (onDesk f >>= fun _ => pure a) :=
  (tidies_onDesk h).bind fun _ _ => beside_pure ha

theorem tidies_onLedger {w : Work Ledger α} (hw : Upholds Ledger.Tidy Q w) :
    Tidies Q (onLedger w) :=
  hw.within (fun _ hb => hb.ledger) fun _ _ hl hb => ⟨hb.desk, hb.stream, hl⟩

theorem tidies_tryOn (p : Pattern) (he : e.Sound) (take : Bool) :
    Tidies (fun answer => ∀ es, answer = .taken es → AllSound es) (onStream (p.tryOn e take)) :=
  (p.upholds_tryOn he take).within (fun _ hb => hb.stream) fun _ _ hs hb => ⟨hb.desk, hs, hb.ledger⟩

theorem tidies_note (hn : n.toElement.Sound) : Tidies (fun _ => True) (note n) :=
  tidies_onLedger (upholds_modify fun _ hl => hl.note hn)

theorem tidies_take? (p : Option Pattern) (he : e.Sound) : Tidies MaybeSound (take? p e) := by
  cases p with
  | none => exact beside_throw _
  | some p =>
    unfold take?
    refine (tidies_tryOn p he true).bind fun answer hanswer => ?_
    cases answer with
    | taken es => exact beside_pure (maybeSound_some (hanswer es rfl))
    | _ => exact beside_pure maybeSound_none

/-- The rules are tried one after the other, each on what the stream still has. -/
theorem tidies_firstRule? (pattern : Rule → Option Pattern) (he : e.Sound) (rs : List Rule) :
    Tidies (fun found => ∀ x ∈ found, AllSound x.2) (firstRule? pattern e rs) := by
  induction rs with
  | nil => exact beside_pure fun x hx => absurd hx (Option.not_mem_none x)
  | cons r rs ih =>
    unfold firstRule?
    refine (tidies_take? (pattern r) he).bind fun found hfound => ?_
    cases found with
    | some es => exact beside_pure fun x hx => Option.mem_some_iff.mp hx ▸ hfound es rfl
    | none => exact ih

theorem tidies_takeComments :
    Tidies (fun comments => ∀ e ∈ comments, e.isCode = false) takeComments := by
  unfold takeComments
  refine upholds_get.bind fun b hb => ?_
  refine (tidies_onDesk fun d hd => hd.takeComments).bind fun _ _ => ?_
  exact beside_pure hb.desk.comments

theorem tidies_newNumber : Tidies (fun _ => True) (onLedger newNumber) := by
  refine tidies_onLedger (upholds_iff.mpr fun l hl => ?_)
  exact ⟨hl, fun _ _ => trivial⟩

/-- A new node is sound if its sections count the elements that it begins with. -/
theorem tidies_openWith {r : Rule} {sections : Nat → Sections → Sections}
    (h : ∀ number comments, (∀ e ∈ comments, e.isCode = false) →
      (OpenNode.begin r number sections comments es).Sound) :
    Tidies OpenNode.Sound (openWith r es sections) := by
  unfold openWith
  refine tidies_takeComments.bind fun comments hc => ?_
  refine tidies_newNumber.bind fun number _ => ?_
  exact beside_pure (h number comments hc)

theorem tidies_openWith_open (r : Rule) (hes : AllSound es) :
    Tidies OpenNode.Sound (openWith r es fun count s => { s with opening := count }) :=
  tidies_openWith fun number _ hc => .ofComments hc hes (Sections.Fit.begin hc es) r number

theorem tidies_openHeader (r : Rule) (hes : AllSound es) :
    Tidies OpenNode.Sound (openHeader r es) := by
  unfold openHeader
  refine (tidies_openWith fun number comments hc => ?_).bind fun o ho =>
    beside_pure (ho.congr rfl rfl)
  exact .ofComments hc hes (Sections.Fit.beginHeader hc es) r number

theorem tidies_deliver (hn : n.toElement.Sound) : Tidies AllSound (deliver n) := by
  unfold deliver
  refine upholds_get.bind fun b hb => ?_
  split
  next => exact beside_pure (.singleton hn)
  next parent rest hs =>
    -- the node is adopted, which changes neither its sections nor its children
    obtain ⟨hparent, hrest⟩ := hb.desk.cons hs
    have hadopted : (Desk.adopt parent n).toElement.Sound := .node hn.fit hn.children
    refine tidies_onDesk_pure (fun d hd => hd.setStack ?_) .nil
    exact forall_mem_cons.mpr ⟨hparent.push hadopted, hrest⟩

theorem tidies_beginStatement (index : Index) (he : e.Sound) :
    Tidies (fun _ => True) (beginStatement index e) := by
  unfold beginStatement
  refine (tidies_firstRule? _ he _).bind fun found hfound => ?_
  cases found with
  | none => exact beside_pure trivial
  | some found =>
    obtain ⟨r, es⟩ := found
    refine (tidies_openWith_open r (hfound _ rfl)).bind fun o ho => ?_
    exact tidies_onDesk_pure (fun d hd => hd.setStatement ho) trivial

theorem idle_append_of_awaitsWith (hc : ∀ x ∈ comments, x.isCode = false)
    (hw : awaitsWith comments e = true) : ∀ x ∈ comments ++ [e], x.isCode = false :=
  forall_mem_append.mpr ⟨hc, forall_mem_singleton.mpr (not_isCode_of_awaitsWith hw)⟩

/-! ### Inside a statement -/

theorem tidies_addToStatement (ho : o.Sound) (he : e.Sound) :
    Tidies AllSound (addToStatement o e) := by
  unfold addToStatement
  refine upholds_get.bind fun b hb => ?_
  dsimp only
  split
  next hw =>
    have hcomments := idle_append_of_awaitsWith hb.desk.comments hw
    exact tidies_onDesk_pure (fun d hd => hd.setComments hcomments) .nil
  next =>
    have ho' := (ho.pushAll (AllSound.of_idle hb.desk.comments)).push he
    exact tidies_onDesk_pure (fun d hd => hd.takeComments.setStatement ho') .nil

/-- A node is noted and delivered as its rule completes it, unless the rule finds a fault. -/
theorem tidies_completeStatement (ho : o.Sound) : Tidies AllSound (completeStatement o) := by
  unfold completeStatement
  rcases hc : o.complete with ⟨o', fault⟩
  have ho' := ho.complete hc
  refine (tidies_onDesk fun d hd => hd.setStatement ho').bind fun _ _ => ?_
  cases fault with
  -- the statement stays on the desk, its closing included, and the next source goes on with it
  | some f => exact beside_throw_bind
  | none =>
    refine (tidies_onDesk fun d hd => hd.endStatement).bind fun _ _ => ?_
    exact (tidies_note ho').bind fun _ _ => tidies_deliver ho'

theorem tidies_endStatement (ho : o.Sound) (hes : AllSound es) :
    Tidies AllSound (endStatement o es) := by
  unfold endStatement
  split
  next =>
    refine tidies_takeComments.bind fun comments hc => ?_
    exact tidies_completeStatement ((ho.pushAll (AllSound.of_idle hc)).close hes)
  next => exact tidies_completeStatement ho

/-- A statement that gives way is complete or is the fault; one that does not is put back. -/
theorem tidies_interruptStatement (index : Index) (ho : o.Sound) (he : e.Sound) :
    Tidies MaybeSound (interruptStatement index o e) := by
  unfold interruptStatement
  refine (tidies_onDesk fun d hd => hd.endStatement).bind fun _ _ => ?_
  refine (tidies_beginStatement index he).bind fun begun _ => ?_
  cases begun with
  | true =>
    rcases hc : o.complete with ⟨o', fault⟩
    have ho' := ho.complete hc
    rw [if_pos rfl]
    cases fault with
    | some => exact beside_throw_bind
    | none =>
      refine (tidies_note ho').bind fun _ _ => ?_
      exact (tidies_deliver ho').bind fun out hout => beside_pure (maybeSound_some hout)
  | false =>
    rw [if_neg Bool.false_ne_true]
    exact tidies_onDesk_pure (fun d hd => hd.setStatement ho) maybeSound_none

theorem tidies_goOnWithStatement (index : Index) (ho : o.Sound) (he : e.Sound) :
    Tidies AllSound (goOnWithStatement index o e) := by
  unfold goOnWithStatement
  split
  next =>
    refine (tidies_interruptStatement index ho he).bind fun found hfound => ?_
    cases found with
    | some out => exact beside_pure (hfound out rfl)
    | none => exact tidies_addToStatement ho he
  next => exact tidies_addToStatement ho he

theorem tidies_inStatement (index : Index) (ho : o.Sound) (he : e.Sound) :
    Tidies AllSound (inStatement index o e) := by
  unfold inStatement
  cases o.rule.closing with
  | none => exact beside_throw_bind
  | some =>
    refine (beside_pure (Q := fun _ => True) trivial).bind fun p _ => ?_
    refine (tidies_tryOn p he o.rule.takesEnd).bind fun answer hanswer => ?_
    cases answer with
    | taken es => exact tidies_endStatement ho (hanswer es rfl)
    | seen => exact tidies_endStatement ho .nil
    | _ => exact tidies_goOnWithStatement index ho he

/-! ### Terms -/

/-- What regrouping makes of an element: a sound one, and the same one if it is a blank or a
comment. -/
structure Renewed (e e' : Element) : Prop where
  sound : e'.Sound
  idle : e.isCode = false → e' = e

theorem Renewed.token (t : Token) : Renewed (.token t) (.token t) :=
  ⟨.token t, fun _ => rfl⟩

theorem Renewed.node {h : Head} {cs : List Element} {e' : Element} (he' : e'.Sound) :
    Renewed (.node h cs) e' :=
  ⟨he', nofun⟩

theorem Renewed.allSound {es' : List Element} (h : Forall₂ Renewed es es') : AllSound es' :=
  forall_of_forall₂ (P := fun _ => True) (fun h _ => h.sound) h fun _ _ => trivial

/-- Regrouping gives sound nodes for sound ones, and notes only such. -/
def RegroupsTidily (regroup : Node → Work Ledger Node) : Prop :=
  ∀ n : Node, n.toElement.Sound → Upholds Ledger.Tidy (fun n' => n'.toElement.Sound) (regroup n)

variable {regroup : Node → Work Ledger Node}

/-- Work on some elements, one after the other, renews all of them. -/
theorem upholds_mapM {f : Element → Work Ledger Element}
    (hf : ∀ e ∈ es, Upholds Ledger.Tidy (Renewed e) (f e)) :
    Upholds Ledger.Tidy (Forall₂ Renewed es) (es.mapM f) := by
  induction es with
  | nil =>
    rw [mapM_nil]
    exact beside_pure .nil
  | cons e es ih =>
    obtain ⟨he, hes⟩ := forall_mem_cons.mp hf
    rw [mapM_cons]
    exact he.bind fun e' he' => (ih hes).bind fun es' hes' => beside_pure (.cons he' hes')

theorem upholds_regroupAll (hreg : RegroupsTidily regroup) (hes : AllSound es) :
    Upholds Ledger.Tidy (Forall₂ Renewed es) (regroupAll regroup es) := by
  rw [regroupAll_eq]
  refine upholds_mapM fun e he => ?_
  cases e with
  | token t => exact beside_pure (.token t)
  | node h cs => exact (hreg ⟨h, cs⟩ (hes _ he)).bind fun n hn => beside_pure (.node hn)

theorem tidies_readTerm (index : Index) (hreg : RegroupsTidily regroup) (he : e.Sound) :
    Tidies MaybeSound (readTerm index regroup e) := by
  unfold readTerm
  refine (tidies_firstRule? _ he _).bind fun found hfound => ?_
  cases found with
  | none => exact beside_pure maybeSound_none
  | some found =>
    obtain ⟨r, es⟩ := found
    refine (tidies_openWith_open r (hfound _ rfl)).bind fun o ho => ?_
    refine (tidies_onLedger (upholds_regroupAll hreg ho.children)).bind fun children hchildren => ?_
    -- the children have been regrouped one by one, so that the sections still fit
    have hnode := ho.renew Renewed.idle hchildren (Renewed.allSound hchildren)
    rcases hc : (o.withNode { o.node with children }).complete with ⟨o', fault⟩
    have ho' := hnode.complete hc
    cases fault with
    | some => exact beside_throw_bind
    | none =>
      exact (tidies_deliver ho').bind fun out hout => beside_pure (maybeSound_some hout)

/-! ### Blocks -/

theorem tidies_popBlock (ho : o.Sound) (hrest : ∀ p ∈ rest, p.Sound) :
    Tidies (fun _ => True) (popBlock o rest) := by
  unfold popBlock
  refine (tidies_note ho).bind fun _ _ => ?_
  cases rest with
  | nil => exact tidies_onDesk fun d hd => hd.setStack (forall_mem_nil _)
  | cons =>
    obtain ⟨hparent, houter⟩ := forall_mem_cons.mp hrest
    refine tidies_onDesk fun d hd => hd.setStack (forall_mem_cons.mpr ⟨?_, houter⟩)
    split
    · exact hparent
    · exact hparent.push ho

theorem maybeSound_popped (ho : o.Sound) (rest : List OpenNode) :
    MaybeSound (some (if rest.isEmpty then [o.node.toElement] else [])) :=
  maybeSound_some (Desk.Everywhere.popped ho rest)

/-- A block that ends leaves the stack, whether it can be completed or not. -/
theorem tidies_endBlock (he : e.Sound) : Tidies MaybeSound (endBlock e) := by
  unfold endBlock
  refine upholds_get.bind fun b hb => ?_
  split
  next => exact beside_pure maybeSound_none
  next o rest hs =>
    obtain ⟨ho, hrest⟩ := hb.desk.cons hs
    cases o.rule.closing with
    | none => exact beside_throw_bind
    | some closing =>
      refine (beside_pure (Q := fun _ => True) trivial).bind fun p _ => ?_
      refine (tidies_tryOn p he o.rule.takesEnd).bind fun answer hanswer => ?_
      cases answer with
      | taken es =>
        -- the closing may as well be counted before it is added
        have hclosed : ((o.pushAll es).setClosing es.length).Sound := ho.close (hanswer es rfl)
        rcases hc : ((o.pushAll es).setClosing es.length).complete with ⟨o', fault⟩
        have ho' := hclosed.complete hc
        dsimp only
        rw [hc]
        refine (tidies_popBlock ho' hrest).bind fun _ _ => ?_
        cases fault with
        | some => exact beside_throw_bind
        | none => exact beside_pure (maybeSound_popped ho' rest)
      | seen => exact (tidies_popBlock ho hrest).bind fun _ _ => beside_throw _
      | _ => exact beside_pure maybeSound_none

theorem tidies_restartBlock (ho : o.Sound) (hrest : ∀ p ∈ rest, p.Sound) (he : e.Sound) :
    Tidies MaybeSound (restartBlock o rest e) := by
  unfold restartBlock
  split
  next => exact beside_pure maybeSound_none
  next =>
    refine (tidies_take? o.rule.header he).bind fun found hfound => ?_
    cases found with
    | none => exact beside_pure maybeSound_none
    | some es =>
      -- the new block is begun, with the comments that wait, before the open one leaves the stack
      refine (tidies_openHeader o.rule (hfound es rfl)).bind fun new hnew => ?_
      rcases hc : o.complete with ⟨o', fault⟩
      have ho' := ho.complete hc
      refine (tidies_popBlock ho' hrest).bind fun _ _ => ?_
      cases fault with
      | some => exact beside_throw_bind
      | none =>
        have hstack (d : Desk) (hd : d.Tidy) := hd.setStack (forall_mem_cons.mpr ⟨hnew, hd.stack⟩)
        exact tidies_onDesk_pure hstack (maybeSound_popped ho' rest)

theorem tidies_inHeader (ho : o.Sound) (hrest : ∀ p ∈ rest, p.Sound) (he : e.Sound) :
    Tidies AllSound (inHeader o rest e) := by
  unfold inHeader
  refine (tidies_restartBlock ho hrest he).bind fun restarted hrestarted => ?_
  cases restarted with
  | some out => exact beside_pure (hrestarted out rfl)
  | none =>
    refine (tidies_take? o.rule.opening he).bind fun found hfound => ?_
    cases found with
    | some es =>
      -- this may be the second opening of the block: the flag stays set if a block inside of it
      -- ends in its header
      have hstack := forall_mem_cons.mpr ⟨ho.open (hfound es rfl) (ho.fit.open es), hrest⟩
      exact tidies_onDesk_pure (fun d hd => (hd.setStack hstack).setInHeader false) .nil
    | none =>
      have hstack := forall_mem_cons.mpr ⟨ho.head he (o.head.header ++ [headerItem e]), hrest⟩
      exact tidies_onDesk_pure (fun d hd => hd.setStack hstack) .nil

theorem tidies_pushBlock (ho : o.Sound) : Tidies AllSound (pushBlock o) := by
  have hone : ∀ p ∈ [o], p.Sound := forall_mem_singleton.mpr ho
  unfold pushBlock
  refine upholds_get.bind fun b hb => ?_
  split
  next => exact tidies_onDesk_pure (fun d hd => hd.setStack hone) .nil
  next parent rest hs =>
    have hstack := hb.desk.stack
    rw [hs] at hstack
    split
    next =>
      -- a block that nests goes on top
      refine tidies_onDesk_pure (fun d hd => hd.setStack ?_) .nil
      exact forall_mem_cons.mpr ⟨ho.congr rfl rfl, hstack⟩
    next =>
      -- any other one takes the place of all open blocks, and the outermost of them is handed on
      have hattached := Desk.sound_attachAll hstack
      dsimp only
      split
      next bottom hlast =>
        have hbottom := hattached bottom (mem_of_getLast? hlast)
        split
        next =>
          refine (beside_forM fun p hp => tidies_note (hattached p hp)).bind fun _ _ => ?_
          exact tidies_onDesk_pure (fun d hd => hd.setStack hone) (.singleton hbottom)
        next => exact beside_throw _
      next => exact beside_throw _

theorem tidies_beginBlock (index : Index) (he : e.Sound) :
    Tidies MaybeSound (beginBlock index e) := by
  unfold beginBlock
  rw [firstBlock?_eq]
  refine (tidies_firstRule? _ he _).bind fun found hfound => ?_
  cases found with
  | none => exact beside_pure maybeSound_none
  | some found =>
    obtain ⟨r, es⟩ := found
    dsimp only
    split
    next =>
      refine (tidies_onDesk fun d hd => hd.setInHeader true).bind fun _ _ => ?_
      refine (tidies_openHeader r (hfound _ rfl)).bind fun o ho => ?_
      exact (tidies_pushBlock ho).bind fun out hout => beside_pure (maybeSound_some hout)
    next =>
      refine (tidies_openWith_open r (hfound _ rfl)).bind fun o ho => ?_
      exact (tidies_pushBlock ho).bind fun out hout => beside_pure (maybeSound_some hout)

/-! ### All elements -/

theorem tidies_place (he : e.Sound) : Tidies AllSound (place e) := by
  unfold place
  refine upholds_get.bind fun b hb => ?_
  dsimp only
  split
  next o rest hs =>
    obtain ⟨ho, hrest⟩ := hb.desk.cons hs
    refine tidies_onDesk_pure (fun d hd => hd.setStack ?_) .nil
    exact forall_mem_cons.mpr ⟨ho.push he, hrest⟩
  next =>
    split
    next hw =>
      have hcomments := idle_append_of_awaitsWith hb.desk.comments hw
      exact tidies_onDesk_pure (fun d hd => hd.setComments hcomments) .nil
    next =>
      split
      next =>
        refine tidies_onDesk_pure (fun d hd => hd.takeComments) ?_
        exact forall_mem_append.mpr ⟨AllSound.of_idle hb.desk.comments, forall_mem_singleton.mpr he⟩
      next => exact beside_pure (.singleton he)

theorem tidies_outsideBlocks (index : Index) (he : e.Sound) :
    Tidies AllSound (outsideBlocks index e) := by
  unfold outsideBlocks
  refine (tidies_beginBlock index he).bind fun found hfound => ?_
  cases found with
  | some out => exact beside_pure (hfound out rfl)
  | none => exact tidies_place he

/-- All that can be tried outside of statements, in its order. -/
theorem tidies_outsideStatement (index : Index) (hreg : RegroupsTidily regroup) (he : e.Sound) :
    Tidies AllSound (outsideStatement index regroup e) := by
  unfold outsideStatement
  refine (tidies_readTerm index hreg he).bind fun term hterm => ?_
  cases term with
  | some out => exact beside_pure (hterm out rfl)
  | none =>
    refine (tidies_beginStatement index he).bind fun begun _ => ?_
    cases begun with
    | true => exact beside_pure .nil
    | false =>
      refine (tidies_endBlock he).bind fun ended hended => ?_
      cases ended with
      | some out => exact beside_pure (hended out rfl)
      | none =>
        refine upholds_get.bind fun b hb => ?_
        dsimp only
        split
        next o rest _ hs =>
          obtain ⟨ho, hrest⟩ := hb.desk.cons hs
          exact tidies_inHeader ho hrest he
        next => exact tidies_outsideBlocks index he

theorem tidies_take (index : Index) (hreg : RegroupsTidily regroup) (he : e.Sound) :
    Tidies AllSound (take index regroup e) := by
  unfold take
  refine upholds_get.bind fun b hb => ?_
  split
  next o hs => exact tidies_inStatement index (hb.desk.statement o hs) he
  next => exact tidies_outsideStatement index hreg he

/-- **A step keeps the bench tidy**, also one that stops with a fault. -/
theorem tidies_step (index : Index) (hreg : RegroupsTidily regroup) (he : e.Sound) :
    Tidies AllSound (step index regroup e) := by
  unfold step
  cases e with
  | token => exact tidies_take index hreg he
  | node h cs =>
    exact (tidies_onLedger (hreg ⟨h, cs⟩ he)).bind fun n hn => tidies_take index hreg hn

end Grouping

end EztScan
