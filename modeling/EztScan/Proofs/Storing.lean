import EztScan.Proofs.Lineage

/-!
# What is stored

Storing a program makes one object for each of its symbols, owners before members. The invariant is
`Scan.Holds`: objects have been made for the symbols in `done`, in this order, and the counters of
each symbol say how often a global name was asked for by its members. Storing one more symbol adds
it at the end of `done` (`Holds.store`), so storing a symbol and all under it adds the way down from
it (`Holds.saveWithin`).

The global name of an object is that of its symbol, with a number behind it if members of the same
owner have taken it before (`Program.guidAfter`).

Besides objects and links there are only remarks: properties, positions and messages. Work that
makes remarks never stops (`Scan.Remarks`).
-/

namespace EztScan

open Element EztScan.Language Work List

variable {e : Event} {t : Scan} {tree : SyntaxTree} {k : Nat} {self : Symbol}

/-! ### Remarks -/

namespace Event

/-- What is known about the object that an event makes. -/
def data? : Event → Option ObjectData
  | .object _ data => some data
  | _ => none

/-- Is the event a link? -/
def isLink : Event → Bool
  | .link .. => true
  | _ => false

/-- Does the event make no object? -/
def isNoObject (e : Event) : Bool :=
  e.data?.isNone

/-- Is the event neither an object nor a link? -/
def isRemark : Event → Bool
  | .object .. | .link .. => false
  | _ => true

theorem isNoObject_of_isRemark (e : Event) (h : e.isRemark = true) : e.isNoObject = true := by
  cases e with
  | object => cases h
  | _ => rfl

theorem data?_of_isLog (h : e.isLog = true) : e.data? = none := by
  cases e with
  | log => rfl
  | _ => cases h

end Event

namespace Scan

variable {s : Scan}

/-- The objects that have been reported. -/
def objects (s : Scan) : List ObjectData :=
  s.events.toList.filterMap Event.data?

theorem objects_of_adds (h : Adds Event.isNoObject s t) : t.objects = s.objects := by
  obtain ⟨new, ht, hnew⟩ := h
  have hnone : new.filterMap Event.data? = [] :=
    filterMap_eq_nil_iff.mpr fun e he => Option.isNone_iff_eq_none.mp (hnew e he)
  unfold objects
  rw [ht, filterMap_append, hnone, append_nil]

theorem OnlyLogs.objects_eq (h : OnlyLogs s t) : t.objects = s.objects :=
  objects_of_adds (h.mono fun _ he => Option.isNone_iff_eq_none.mpr (Event.data?_of_isLog he))

/-- The work never stops, makes remarks only, and gives a result of which `Q` holds. -/
def RemarksTo {α : Type} (Q : α → Prop) (w : Work Scan α) : Prop :=
  ∀ s, ∃ a t, Runs w s a t ∧ Q a ∧ t.program = s.program ∧ Adds Event.isRemark s t

/-- The work never stops, and makes remarks only. -/
abbrev Remarks {α : Type} (w : Work Scan α) : Prop :=
  RemarksTo (fun _ => True) w

section Remarks

variable {α β : Type}
variable {w : Work Scan α} {f : α → Work Scan β} {Q : β → Prop}

theorem remarks_pure {b : β} (hb : Q b) : RemarksTo Q (pure b) :=
  fun s => ⟨b, s, rfl, hb, rfl, Adds.refl _ s⟩

theorem remarks_emit (he : e.isRemark = true) : Remarks (emit e) :=
  fun s => ⟨_, _, rfl, trivial, rfl, adds_push he s _⟩

theorem Remarks.bind (hw : Remarks w) (hf : ∀ a, RemarksTo Q (f a)) : RemarksTo Q (w >>= f) := by
  intro s
  obtain ⟨a, t, ht, -, hprogram, hadds⟩ := hw s
  obtain ⟨b, u, hu, hb, hprogram', hadds'⟩ := hf a t
  exact ⟨b, u, runs_bind.mpr ⟨a, t, ht, hu⟩, hb, hprogram'.trans hprogram, hadds.trans hadds'⟩

theorem remarks_ofExcept_bind {x : Except Fault α} {a : α} (hx : x = .ok a)
    (hf : RemarksTo Q (f a)) : RemarksTo Q (Work.ofExcept x >>= f) := by
  intro s
  obtain ⟨b, t, ht, hrest⟩ := hf s
  exact ⟨b, t, runs_ofExcept_bind.mpr ⟨a, hx, ht⟩, hrest⟩

theorem Remarks.ite {c : Prop} [Decidable c] {v : Work Scan α} (hv : Remarks v) (hw : Remarks w) :
    Remarks (if c then v else w) := by
  split
  · exact hv
  · exact hw

end Remarks

/-! ### What is reported about a tree -/

section Reports

variable {n : Node} (object : ObjectId)

theorem remarks_reportCode {s : Symbol} (htree : s.tree = .root n) :
    Remarks (reportCode object s) := by
  unfold reportCode
  rw [htree]
  refine Remarks.ite (remarks_ofExcept_bind rfl ((remarks_emit rfl).bind fun _ => ?_))
    (remarks_pure trivial)
  exact remarks_ofExcept_bind rfl (remarks_emit rfl)

theorem remarks_reportFile (htree : tree = .root n) (path : String) :
    Remarks (reportFile (some path) tree) := by
  subst htree
  unfold reportFile
  refine remarks_ofExcept_bind rfl (remarks_ofExcept_bind rfl ((remarks_emit rfl).bind fun _ => ?_))
  refine (remarks_emit rfl).bind fun _ =>
    remarks_ofExcept_bind rfl ((remarks_emit rfl).bind fun _ => ?_)
  exact (remarks_emit rfl).bind fun _ => remarks_emit rfl

theorem remarks_reportComments (htree : tree = .root n) : Remarks (reportComments object tree) := by
  subst htree
  unfold reportComments
  refine remarks_ofExcept_bind rfl ?_
  -- with or without a header, the comments inside come next
  split
  · refine remarks_ofExcept_bind rfl (Remarks.ite (remarks_pure trivial) ?_)
    exact (remarks_emit rfl).bind fun _ => remarks_emit rfl
  · refine (remarks_emit rfl).bind fun _ => (remarks_emit rfl).bind fun _ => ?_
    refine remarks_ofExcept_bind rfl (Remarks.ite (remarks_pure trivial) ?_)
    exact (remarks_emit rfl).bind fun _ => remarks_emit rfl

theorem remarks_reportPosition (htree : tree = .root n) (hlast : n.span.endLine.isSome = true)
    (file : Option String) : Remarks (reportPosition object file tree) := by
  subst htree
  obtain ⟨last, hlast⟩ := Option.isSome_iff_exists.mp hlast
  unfold reportPosition
  refine remarks_ofExcept_bind (a := n) rfl ?_
  dsimp only
  rw [hlast]
  exact remarks_emit rfl

end Reports

end Scan

/-! ### What events refer to -/

/-- The object is among those that are reported in these events. -/
def Reported (events : List Event) (o : ObjectId) : Prop :=
  ∃ data, Event.object o data ∈ events

theorem reported_append {as bs : List Event} {o : ObjectId} :
    Reported (as ++ bs) o ↔ Reported as o ∨ Reported bs o := by
  unfold Reported
  simp only [mem_append, exists_or]

/-- The object is a program, and stands under the source file at this path. -/
def ObjectData.IsProgramAt (path : String) (data : ObjectData) : Prop :=
  data.type = "Eztprogram" ∧ data.parent = some (.file path)

namespace Event

variable {i : ProgramId} {saved : ObjectId → Prop}

/-- What the event refers to is saved, or it is a call of another program than `i`. -/
def IsFounded (i : ProgramId) (saved : ObjectId → Prop) : Event → Prop
  | .object _ data => ∃ ref, data.parent = some ref ∧ ∀ o, ref = .object o → saved o
  | .link kind caller callee _ =>
    (∃ o, caller = some o ∧ saved o) ∧ ∃ o, callee = some o ∧
      (saved o ∨ o.program ≠ i ∧ kind = .call)
  | _ => True

theorem IsFounded.mono {saved' : ObjectId → Prop} (h : ∀ o, saved o → saved' o)
    (he : e.IsFounded i saved) : e.IsFounded i saved' := by
  cases e with
  | object =>
    obtain ⟨ref, hparent, href⟩ := he
    exact ⟨ref, hparent, fun o ho => h o (href o ho)⟩
  | link =>
    obtain ⟨⟨o, hcaller, ho⟩, o', hcallee, ho'⟩ := he
    exact ⟨⟨o, hcaller, h o ho⟩, o', hcallee, ho'.imp_left (h o')⟩
  | _ => trivial

theorem isFounded_of_isRemark (h : e.isRemark = true) : e.IsFounded i saved := by
  cases e with
  | object | link => cases h
  | _ => trivial

theorem isRemark_of_isLog (h : e.isLog = true) : e.isRemark = true := by
  cases e with
  | log => rfl
  | _ => cases h

end Event

/-- What each of the events refers to has been saved, before the first one or by one in front of
it. -/
def Founded (i : ProgramId) : (ObjectId → Prop) → List Event → Prop
  | _, [] => True
  | saved, e :: es => e.IsFounded i saved ∧ Founded i (fun o => saved o ∨ Reported [e] o) es

section Founded

variable {i : ProgramId} {saved saved' : ObjectId → Prop}
variable {es as bs : List Event}

theorem Founded.mono (h : ∀ o, saved o → saved' o) (hes : Founded i saved es) :
    Founded i saved' es := by
  induction es generalizing saved saved' with
  | nil => trivial
  | cons e es ih => exact ⟨hes.1.mono h, ih (fun o => Or.imp_left (h o)) hes.2⟩

/-- Of two runs of events, the second may also refer to what the first has reported. -/
theorem founded_append :
    Founded i saved (as ++ bs) ↔ Founded i saved as ∧
      Founded i (fun o => saved o ∨ Reported as o) bs := by
  induction as generalizing saved with
  | nil =>
    have hnone : ∀ o, ¬ Reported [] o := fun o ⟨_, hmem⟩ => absurd hmem not_mem_nil
    exact ⟨fun h => ⟨trivial, h.mono fun o => .inl⟩,
      fun h => h.2.mono fun o ho => ho.resolve_right (hnone o)⟩
  | cons e as ih =>
    -- what the first event reports may be counted with those before or with those behind it
    have hsame : ∀ o, ((saved o ∨ Reported [e] o) ∨ Reported as o) ↔
        saved o ∨ Reported (e :: as) o := by
      intro o
      rw [show e :: as = [e] ++ as from rfl, reported_append, or_assoc]
    rw [cons_append]
    constructor
    · rintro ⟨he, hrest⟩
      obtain ⟨has, hbs⟩ := ih.mp hrest
      exact ⟨⟨he, has⟩, hbs.mono fun o => (hsame o).mp⟩
    · rintro ⟨⟨he, has⟩, hbs⟩
      exact ⟨he, ih.mpr ⟨has, hbs.mono fun o => (hsame o).mpr⟩⟩

theorem founded_of_remarks (h : ∀ e ∈ es, e.isRemark = true) : Founded i saved es := by
  induction es generalizing saved with
  | nil => trivial
  | cons e es ih =>
    obtain ⟨he, hes⟩ := forall_mem_cons.mp h
    exact ⟨Event.isFounded_of_isRemark he, ih hes⟩

/-- What an event refers to has been saved by the events in front of it. -/
theorem Founded.of_split (h : Founded i saved (as ++ e :: bs)) :
    e.IsFounded i fun o => saved o ∨ Reported as o :=
  (founded_append.mp h).2.1

end Founded

namespace Scan

variable {path : String} {s t : Scan}

/-- The objects of all symbols have been reported, that of the program as a program, and what is
reported refers to them. -/
structure Backed (path : String) (s : Scan) : Prop where
  objects : ∀ k o, s.program.objectOf k = some o →
    ∃ data, Event.object o data ∈ s.events.toList ∧ (k = 0 → data.IsProgramAt path)
  founded : Founded s.program.id (fun _ => False) s.events.toList

/-- Events that refer to objects that have been reported may follow. -/
theorem Backed.append (h : s.Backed path) {new : List Event} (hid : t.program.id = s.program.id)
    (hstored : ∀ k, t.program.objectOf k = s.program.objectOf k)
    (hevents : t.events.toList = s.events.toList ++ new)
    (hnew : Founded s.program.id (Reported s.events.toList) new) : t.Backed path := by
  refine ⟨fun k o ho => ?_, ?_⟩
  · rw [hstored] at ho
    obtain ⟨data, hmem, hprogram⟩ := h.objects k o ho
    exact ⟨data, hevents ▸ mem_append_left new hmem, hprogram⟩
  · rw [hid, hevents]
    exact founded_append.mpr ⟨h.founded, hnew.mono fun o => .inr⟩

/-- Changes that leave objects and events as they are do no harm. -/
theorem Backed.congr (h : s.Backed path) (hid : t.program.id = s.program.id)
    (hstored : ∀ k, t.program.objectOf k = s.program.objectOf k) (hevents : t.events = s.events) :
    t.Backed path := by
  have hall : t.events.toList = s.events.toList ++ [] := by rw [hevents, append_nil]
  exact h.append hid hstored hall trivial

theorem Backed.of_adds (h : s.Backed path) (hprogram : t.program = s.program)
    (hadds : Adds Event.isRemark s t) : t.Backed path := by
  obtain ⟨new, hevents, hnew⟩ := hadds
  exact h.append (by rw [hprogram]) (fun k => by rw [hprogram]) hevents (founded_of_remarks hnew)

/-- A new object may stand under a file or under an object that has been reported. -/
theorem Backed.object (h : s.Backed path) {o : ObjectId} {data : ObjectData}
    {before after : List Event} (hid : t.program.id = s.program.id)
    (hstored : ∀ j, t.program.objectOf j = if k = j then some o else s.program.objectOf j)
    (hevents : t.events.toList = s.events.toList ++ before ++ [.object o data] ++ after)
    (hbefore : ∀ e ∈ before, e.isRemark = true) (hafter : ∀ e ∈ after, e.isRemark = true)
    (hown : k = 0 → data.IsProgramAt path)
    (hparent : ∃ ref, data.parent = some ref ∧ ∀ o, ref = .object o → Reported s.events.toList o) :
    t.Backed path := by
  refine ⟨fun j o' ho' => ?_, ?_⟩
  · rw [hstored] at ho'
    rw [hevents]
    split at ho'
    · next hkj =>
      obtain rfl := Option.some.inj ho'
      exact ⟨data, by simp, fun hj => hown (hkj.trans hj)⟩
    · -- any other object has been reported before
      obtain ⟨data', hmem, hprogram⟩ := h.objects j o' ho'
      exact ⟨data', by simp [hmem], hprogram⟩
  · obtain ⟨ref, href, hreported⟩ := hparent
    rw [hid, hevents]
    refine founded_append.mpr
      ⟨founded_append.mpr ⟨founded_append.mpr ⟨h.founded, founded_of_remarks hbefore⟩, ?_, trivial⟩,
        founded_of_remarks hafter⟩
    refine ⟨ref, href, fun o' ho' => .inr ?_⟩
    exact reported_append.mpr (.inl (hreported o' ho'))

end Scan

/-! ### Changes that leave the table alone -/

namespace Program

variable {p q r : Program} {path : String}
variable {f : Symbol → Symbol}

/-- The two programs have the same cards and members. -/
structure SameTable (p q : Program) : Prop where
  id : q.id = p.id
  cards : q.cards = p.cards
  members : ∀ k, q.membersOf k = p.membersOf k

theorem SameTable.refl (p : Program) : p.SameTable p :=
  ⟨rfl, rfl, fun _ => rfl⟩

theorem SameTable.trans (hpq : p.SameTable q) (hqr : q.SameTable r) : p.SameTable r :=
  ⟨hqr.id.trans hpq.id, hqr.cards.trans hpq.cards, fun k => (hqr.members k).trans (hpq.members k)⟩

theorem SameTable.length_eq (h : p.SameTable q) : q.symbols.length = p.symbols.length := by
  rw [← length_cards, h.cards, length_cards]

theorem SameTable.ownerAt_eq (h : p.SameTable q) (k : Nat) : q.ownerAt k = p.ownerAt k := by
  unfold ownerAt
  rw [h.cards]

/-- What stands under a symbol is read from the table. -/
theorem SameTable.subtree_eq (h : p.SameTable q) (fuel : Nat) :
    q.subtree fuel = p.subtree fuel := by
  induction fuel with
  | zero => rfl
  | succ fuel ih =>
    funext k
    rw [subtree, subtree, h.members, ih]

theorem SameTable.storable (h : p.SameTable q) (hp : p.Storable path) : q.Storable path := by
  refine ⟨hp.indexed.congr h.cards h.members, ?_, ?_, ?_, ?_, ?_⟩
  all_goals rw [h.cards]
  exacts [hp.own, hp.member, hp.typed, hp.tree, hp.query]

theorem sameTable_modifySymbol (hcard : ∀ s, (f s).card = s.card)
    (hmembers : ∀ s, (f s).members = s.members) (k : Nat) : p.SameTable (p.modifySymbol k f) :=
  ⟨rfl, cards_modifySymbol hcard k, fun j => membersOf_modifySymbol hmembers k j⟩

theorem sameTable_allot (p : Program) (k : Nat) : p.SameTable (p.allot k) := by
  have hmade : p.SameTable { p with made := p.made + 1 } := ⟨rfl, rfl, fun _ => rfl⟩
  refine hmade.trans (sameTable_modifySymbol ?_ ?_ k)
  · exact fun _ => rfl
  · exact fun _ => rfl

theorem getElem?_modifySymbol (p : Program) (f : Symbol → Symbol) (k j : Nat) :
    (p.modifySymbol k f).symbols[j]? = if k = j then (p.symbols[j]?).map f else p.symbols[j]? := by
  unfold modifySymbol
  rw [getElem?_modify]
  by_cases h : k = j <;> simp [h]

theorem objectOf_allot_eq (p : Program) (hk : k < p.symbols.length) (j : Nat) :
    (p.allot k).objectOf j = if k = j then some ⟨p.id, p.made⟩ else p.objectOf j := by
  unfold objectOf allot
  rw [getElem?_modifySymbol]
  by_cases h : k = j
  · simp [← h, hk]
  · simp [h]

/-- What a change leaves alone about one symbol, it leaves alone about all. -/
theorem map_modifySymbol {α : Type} {g : Symbol → α} (hg : ∀ s, g (f s) = g s) (k j : Nat) :
    ((p.modifySymbol k f).symbols[j]?).map g = (p.symbols[j]?).map g := by
  rw [getElem?_modifySymbol]
  split
  · rw [Option.map_map]
    exact congrArg (Option.map · _) (funext hg)
  · rfl

theorem guids_allot (p : Program) (k j : Nat) :
    ((p.allot k).symbols[j]?).map Symbol.guids = (p.symbols[j]?).map Symbol.guids := by
  let f : Symbol → Symbol := fun s => { s with stored := some ⟨p.id, p.made⟩ }
  have hguids : ∀ s, (f s).guids = s.guids := fun _ => rfl
  exact map_modifySymbol hguids k j

/-! ### Global names of objects -/

/-- The global name of the symbol with a number. -/
def globalName (p : Program) (k : Nat) : String :=
  (p.guid k).toOption.getD ""

theorem Storable.guid_globalName (h : p.Storable path) (hk : k < p.symbols.length) :
    p.guid k = .ok (p.globalName k) := by
  unfold globalName
  rw [h.guid_eq (getElem?_eq_getElem hk)]
  rfl

/-- How many of the symbols in `done` have this owner and this global name. -/
def copies (p : Program) (done : List Nat) (owner : Option Nat) (name : String) : Nat :=
  done.countP fun k => p.ownerAt k == owner && p.globalName k == name

/-- A name with a number behind it, unless it is the first one of its sort. -/
def numbered (name : String) : Nat → String
  | 0 => name
  | n + 1 => name ++ "_" ++ toString (n + 1)

/-- The global name under which the object of a symbol is reported, after those in `done`. -/
def guidAfter (p : Program) (done : List Nat) (k : Nat) : String :=
  numbered (p.globalName k) (p.copies done (p.ownerAt k) (p.globalName k))

/-- The global names under which the objects of some symbols are reported one after the other. -/
def guidsFrom (p : Program) : List Nat → List Nat → List String
  | _, [] => []
  | done, k :: ks => p.guidAfter done k :: p.guidsFrom (done ++ [k]) ks

/-- Names that are given later depend on those given before. -/
theorem guidsFrom_append (p : Program) (done ks ls : List Nat) :
    p.guidsFrom done (ks ++ ls) = p.guidsFrom done ks ++ p.guidsFrom (done ++ ks) ls := by
  induction ks generalizing done with
  | nil => rw [nil_append, append_nil, guidsFrom, nil_append]
  | cons k ks ih =>
    rw [cons_append, guidsFrom, guidsFrom, ih, append_assoc, singleton_append, cons_append]

theorem copies_congr {done : List Nat} (howner : ∀ k ∈ done, q.ownerAt k = p.ownerAt k)
    (hname : ∀ k ∈ done, q.globalName k = p.globalName k) (owner : Option Nat) (name : String) :
    q.copies done owner name = p.copies done owner name := by
  unfold copies
  refine countP_congr fun k hk => ?_
  rw [howner k hk, hname k hk]

theorem guidsFrom_congr {ks : List Nat} :
    ∀ {done : List Nat}, (∀ k ∈ done ++ ks, q.ownerAt k = p.ownerAt k) →
    (∀ k ∈ done ++ ks, q.globalName k = p.globalName k) →
      q.guidsFrom done ks = p.guidsFrom done ks := by
  induction ks with
  | nil => exact fun _ _ => rfl
  | cons k ks ih =>
    intro done howner hname
    have happ : done ++ k :: ks = (done ++ [k]) ++ ks := by rw [append_assoc, singleton_append]
    have hk : k ∈ done ++ k :: ks := mem_append_right _ mem_cons_self
    rw [guidsFrom, guidsFrom, ih (happ ▸ howner) (happ ▸ hname)]
    unfold guidAfter
    rw [howner k hk, hname k hk, copies_congr (fun j hj => howner j (mem_append_left _ hj))
      fun j hj => hname j (mem_append_left _ hj)]

section Growing

variable (hp : p.Storable path) (hq : q.Storable path) (hcards : p.cards <+: q.cards)

include hcards in
theorem ownerAt_of_isPrefix (hk : k < p.symbols.length) : q.ownerAt k = p.ownerAt k := by
  have hcard := cards_of_getElem? (getElem?_eq_getElem hk)
  unfold ownerAt
  rw [hcard, getElem?_of_isPrefix hcards hcard]

include hp hq hcards

theorem globalName_of_isPrefix (hk : k < p.symbols.length) : q.globalName k = p.globalName k := by
  unfold globalName
  rw [hp.guid_of_isPrefix hq hcards k hk]

variable {done : List Nat} (hdone : ∀ k ∈ done, k < p.symbols.length)

include hdone

/-- What is declared later changes nothing about names that have been given. -/
theorem copies_of_isPrefix (owner : Option Nat) (name : String) :
    q.copies done owner name = p.copies done owner name :=
  copies_congr (fun k hk => ownerAt_of_isPrefix hcards (hdone k hk))
    (fun k hk => globalName_of_isPrefix hp hq hcards (hdone k hk)) owner name

theorem guidsFrom_of_isPrefix : q.guidsFrom [] done = p.guidsFrom [] done :=
  guidsFrom_congr (fun k hk => ownerAt_of_isPrefix hcards (hdone k hk))
    fun k hk => globalName_of_isPrefix hp hq hcards (hdone k hk)

end Growing

end Program

/-! ### Counters -/

/-- What a counter says that has been asked this often. -/
def tally : Nat → Option Int
  | 0 => none
  | n + 1 => some n

namespace Counts

variable {c : Counts} {name : String} {n : Nat}

/-- Adding to a counter changes what it says under this key, and starts from nothing. -/
theorem lookup_add (c : Counts) (key other : String) (n : Int) :
    (c.add key n).lookup other = if other = key then some ((c.lookup key).getD 0 + n)
      else c.lookup other := by
  induction c with
  | nil =>
    by_cases h : other = key
    · simp [add, h]
    · have hne : (other == key) = false := beq_eq_false_iff_ne.mpr h
      simp [add, h, lookup_cons, hne]
  | cons p rest ih =>
    obtain ⟨k, m⟩ := p
    by_cases hk : k = key
    · by_cases ho : other = key
      · simp [add, hk, ho]
      · have hne : (other == key) = false := beq_eq_false_iff_ne.mpr ho
        simp [add, hk, ho, lookup_cons, hne]
    · have hkey : (key == k) = false := beq_eq_false_iff_ne.mpr (Ne.symm hk)
      by_cases ho : other = k
      · have hne : ¬ other = key := fun h => hk (ho ▸ h)
        simp [add, hk, ho]
      · have hne : (other == k) = false := beq_eq_false_iff_ne.mpr ho
        simpa [add, hk, lookup_cons, hne, hkey] using ih

/-- A name that was given so often gets that number behind it. -/
theorem freshName_fst (h : c.lookup name = tally n) :
    (c.freshName name).1 = Program.numbered name n := by
  unfold freshName
  rw [h]
  cases n <;> rfl

theorem lookup_freshName (h : c.lookup name = tally n) (other : String) :
    (c.freshName name).2.lookup other = if other = name then tally (n + 1) else c.lookup other := by
  unfold freshName
  rw [h]
  cases n with
  | zero | succ => exact (lookup_add ..).trans (by rw [h]; rfl)

end Counts

/-! ### Storing one symbol -/

/-- What is said about the object of a symbol. -/
structure Program.Describes (p : Program) (path : String) (k : Nat) (data : ObjectData) : Prop where
  type : ∃ c, p.cards[k]? = some c ∧ c.kind.objectType = .ok data.type
  parent : k = 0 → data.parent = some (.file path)

namespace Scan

variable {p : Program} {u : Scan} {object : Option ObjectId}

/-- Objects have been made for the symbols in `done`, and reported in this order. The counters of a
symbol say how often a global name was asked for by its members. -/
structure Holds (path : String) (done : List Nat) (s : Scan) : Prop where
  storable : s.program.Storable path
  within : ∀ k ∈ done, k < s.program.symbols.length
  stored : ∀ k < s.program.symbols.length, ((s.program.objectOf k).isSome = true ↔ k ∈ done)
  counters : ∀ (k : Nat) self, s.program.symbols[k]? = some self →
    ∀ name, self.guids.lookup name = tally (s.program.copies done (some k) name)
  guids : s.objects.map (·.guid) = s.program.guidsFrom [] done
  data : Forall₂ (s.program.Describes path) done s.objects

theorem describes_of_isPrefix {q : Program} (hcards : p.cards <+: q.cards) {data : ObjectData}
    (hd : p.Describes path k data) : q.Describes path k data := by
  obtain ⟨⟨c, hc, htype⟩, hparent⟩ := hd
  exact ⟨⟨c, getElem?_of_isPrefix hcards hc, htype⟩, hparent⟩

/-- Is the event no link? -/
def isNoLink (e : Event) : Bool :=
  !e.isLink

theorem isNoLink_of_isRemark (e : Event) (h : e.isRemark = true) : isNoLink e = true := by
  cases e with
  | link => cases h
  | _ => rfl

/-- The events that report a new object are remarks and the object itself. -/
theorem runs_makeObject (p : Program) (events : Array Event)
    (hself : (p.allot k).symbols[k]? = some self) {type : String}
    (htype : self.kind.objectType = .ok type) (guid : String) (parent : Option Ref) :
    ∃ t data remarks, Runs (makeObject k guid parent) ⟨p, events⟩ (⟨p.id, p.made⟩, type, self) t ∧
      t.program = p.allot k ∧ (∀ e ∈ remarks, e.isRemark = true) ∧
      t.events.toList = events.toList ++ remarks ++ [.object ⟨p.id, p.made⟩ data] ∧
      data.guid = guid ∧ data.type = type ∧ data.parent = parent := by
  let data : ObjectData := ⟨self.name, type, parent, guid, (p.allot k).qualifiedName k⟩
  let logged : Array Event :=
    if self.name.isEmpty then events.push (.log .debug self.tree.render none) else events
  have hmake := Surroundings.runOn_makeObject k guid parent ⟨p, events⟩
  rw [hself] at hmake
  dsimp only at hmake
  rw [htype] at hmake
  refine ⟨⟨p.allot k, logged.push (.object ⟨p.id, p.made⟩ data)⟩, data,
    Surroundings.namelessLogs self, hmake, rfl, fun e he => ?_, ?_, rfl, rfl, rfl⟩
  · exact Event.isRemark_of_isLog (Surroundings.isLog_of_mem_namelessLogs he)
  · rw [Array.toList_push, Surroundings.toList_namelessLogs]

/-- One more symbol counts if it has this owner and this name. -/
theorem copies_append (p : Program) (done : List Nat) (k : Nat) (owner : Option Nat)
    (name : String) :
    p.copies (done ++ [k]) owner name =
      p.copies done owner name + if p.ownerAt k = owner ∧ p.globalName k = name then 1 else 0 := by
  unfold Program.copies
  rw [countP_append, countP_singleton]
  by_cases h : p.ownerAt k = owner ∧ p.globalName k = name
  · rw [if_pos h, if_pos (by rw [h.1, h.2, beq_self_eq_true, beq_self_eq_true]; rfl)]
  · rw [if_neg h, if_neg]
    intro hboth
    rw [Bool.and_eq_true, beq_iff_eq, beq_iff_eq] at hboth
    exact h hboth

variable {path : String} {done : List Nat} {s : Scan}

/-- The global name of a new object, and what it stands under. The counters of the owner take note
of it. -/
theorem Holds.placeObject (h : s.Holds path done) (hk : k < s.program.symbols.length)
    (hnew : k ∉ done) :
    ∃ p parent, Runs (placeObject k (some path)) s (s.program.guidAfter done k, parent)
      ⟨p, s.events⟩ ∧
      s.program.SameTable p ∧ p.resolved = s.program.resolved ∧
      (∀ j, p.objectOf j = s.program.objectOf j) ∧
      (∀ (j : Nat) self, p.symbols[j]? = some self →
        ∀ name, self.guids.lookup name = tally (s.program.copies (done ++ [k]) (some j) name)) ∧
      (k = 0 → parent = some (.file path)) ∧
      ∀ j, s.program.ownerAt k = some j → parent = (s.program.objectOf j).map .object := by
  have hs : s.program.symbols[k]? = some s.program.symbols[k] := getElem?_eq_getElem hk
  have hguid := h.storable.guid_globalName hk
  have howner := Program.ownerAt_eq hs
  rcases h.storable.cases hs with ⟨rfl, -, hparent, -⟩ | ⟨j, hlt, hj⟩
  · -- the program stands under its file, and nobody counts it
    have hnone : s.program.copies done (s.program.ownerAt 0) (s.program.globalName 0) = 0 := by
      refine countP_eq_zero.mpr fun i hi hboth => ?_
      rw [Bool.and_eq_true, beq_iff_eq, howner, hparent] at hboth
      have hi' := h.within i hi
      rcases h.storable.cases (getElem?_eq_getElem hi') with ⟨rfl, -⟩ | ⟨j, -, hj⟩
      · exact hnew hi
      · rw [Program.ownerAt_eq (getElem?_eq_getElem hi'), hj] at hboth
        cases hboth.1
    refine ⟨s.program, some (.file path), ?_, Program.SameTable.refl _, rfl, fun _ => rfl,
      fun j self hself name => ?_, fun _ => rfl, fun j hj => ?_⟩
    · unfold Scan.placeObject Program.guidAfter
      rw [hnone]
      refine runs_bind.mpr ⟨s.program, s, rfl, runs_ofExcept_bind.mpr ⟨_, hguid, ?_⟩⟩
      refine runs_symbol_bind.mpr ⟨_, hs, ?_⟩
      rw [hparent]
      rfl
    · rw [h.counters j self hself name, copies_append, if_neg, Nat.add_zero]
      rintro ⟨hown, -⟩
      rw [howner, hparent] at hown
      cases hown
    · rw [howner, hparent] at hj
      cases hj
  · -- any other symbol has an owner `j`, whose counters are asked for a name that is not taken
    have hjlt : j < s.program.symbols.length := Nat.lt_trans hlt hk
    have hown : s.program.symbols[j]? = some s.program.symbols[j] := getElem?_eq_getElem hjlt
    have hlookup := h.counters j _ hown (s.program.globalName k)
    let f : Symbol → Symbol := fun self => (self.freshGuid (s.program.globalName k)).2
    have hcard : ∀ self, (f self).card = self.card := fun _ => rfl
    have hmembers : ∀ self, (f self).members = self.members := fun _ => rfl
    have hheading : ∀ self, (f self).heading = self.heading := fun _ => rfl
    refine ⟨s.program.modifySymbol j f, s.program.symbols[j].stored.map .object, ?_,
      Program.sameTable_modifySymbol hcard hmembers j, rfl, fun i => ?_,
      fun i self hself name => ?_, fun hzero => ?_, fun i hi => ?_⟩
    · unfold Scan.placeObject
      refine runs_bind.mpr ⟨s.program, s, rfl, runs_ofExcept_bind.mpr ⟨_, hguid, ?_⟩⟩
      refine runs_symbol_bind.mpr ⟨_, hs, ?_⟩
      rw [hj]
      refine runs_symbol_bind.mpr ⟨_, hown,
        runs_bind.mpr ⟨(), ⟨s.program.modifySymbol j f, s.events⟩, rfl, ?_⟩⟩
      refine runs_pure.mpr ⟨Prod.ext ?_ rfl, rfl⟩
      unfold Program.guidAfter
      rw [howner, hj]
      exact Counts.freshName_fst hlookup
    · exact Program.objectOf_modifySymbol hheading j i
    · rw [Program.getElem?_modifySymbol] at hself
      rw [copies_append, howner, hj]
      by_cases hij : j = i
      · -- the owner has counted one name more, and no other name
        subst hij
        rw [if_pos rfl, hown] at hself
        rw [← Option.some.inj hself]
        change ((s.program.symbols[j].guids.freshName (s.program.globalName k)).2).lookup name = _
        rw [Counts.lookup_freshName hlookup]
        by_cases hname : name = s.program.globalName k
        · rw [if_pos hname, if_pos ⟨rfl, hname.symm⟩, hname]
        · rw [if_neg hname, if_neg fun hboth => hname hboth.2.symm, Nat.add_zero]
          exact h.counters j _ hown name
      · rw [if_neg hij] at hself
        rw [if_neg fun hboth => hij (Option.some.inj hboth.1), Nat.add_zero]
        exact h.counters i self hself name
    · rw [hzero] at hlt
      exact absurd hlt (Nat.not_lt_zero j)
    · rw [howner, hj] at hi
      rw [← Option.some.inj hi, Program.objectOf, hown]
      rfl

/-- From `s` to `t`, objects were made for the symbols in `new`, in this order, after those in
`done`. Links start from queries only. -/
structure Stores (path : String) (done new : List Nat) (s t : Scan) : Prop where
  holds : t.Holds path (done ++ new)
  table : s.program.SameTable t.program
  resolved : t.program.resolved = s.program.resolved
  others : ∀ j, j ∉ new → t.program.objectOf j = s.program.objectOf j
  quiet : (∀ k ∈ new, ∀ c, s.program.cards[k]? = some c → c.kind ≠ .query) → Adds isNoLink s t

theorem Holds.stores_nil (h : s.Holds path done) : s.Stores path done [] s :=
  ⟨by rwa [append_nil], Program.SameTable.refl _, rfl, fun _ _ => rfl, fun _ => Adds.refl _ s⟩

/-- What is stored in two steps is stored in one. -/
theorem Stores.trans {as bs : List Nat} (hst : s.Stores path done as t)
    (htu : t.Stores path (done ++ as) bs u) : s.Stores path done (as ++ bs) u := by
  refine ⟨?_, hst.table.trans htu.table, htu.resolved.trans hst.resolved, fun j hj => ?_,
    fun hquiet => ?_⟩
  · rw [← append_assoc]
    exact htu.holds
  · -- what neither step stores keeps its object
    rw [mem_append, not_or] at hj
    rw [htu.others j hj.2, hst.others j hj.1]
  · refine (hst.quiet fun k hk => hquiet k (mem_append_left _ hk)).trans (htu.quiet fun k hk => ?_)
    rw [hst.table.cards]
    exact hquiet k (mem_append_right _ hk)

/-- Changes that leave the table, the objects and the counters of names alone do no harm. -/
theorem Holds.congr (h : s.Holds path done) (htable : s.program.SameTable t.program)
    (hstored : ∀ j, t.program.objectOf j = s.program.objectOf j)
    (hguids : ∀ j : Nat, (t.program.symbols[j]?).map Symbol.guids =
      (s.program.symbols[j]?).map Symbol.guids)
    (hobjects : t.objects = s.objects) : t.Holds path done := by
  have hcards : s.program.cards <+: t.program.cards := by rw [htable.cards]
  have hstorable := htable.storable h.storable
  refine ⟨hstorable, ?_, ?_, fun j own hown name => ?_, ?_, ?_⟩
  · rw [htable.length_eq]
    exact h.within
  · rw [htable.length_eq]
    intro j hj
    rw [hstored]
    exact h.stored j hj
  · -- a symbol may have changed otherwise, but not in its counters
    have hmap := hguids j
    rw [hown] at hmap
    obtain ⟨own', hown', hsame⟩ := Option.map_eq_some_iff.mp hmap.symm
    rw [← hsame, h.counters j own' hown' name,
      Program.copies_of_isPrefix h.storable hstorable hcards h.within]
  · rw [hobjects, h.guids, Program.guidsFrom_of_isPrefix h.storable hstorable hcards h.within]
  · rw [hobjects]
    exact h.data.imp fun _ _ hd => describes_of_isPrefix hcards hd

theorem Holds.of_adds (h : s.Holds path done) (hprogram : t.program = s.program)
    (hadds : Adds Event.isNoObject s t) : t.Holds path done := by
  refine h.congr ?_ (fun j => ?_) (fun j => ?_) (objects_of_adds hadds) <;> rw [hprogram]
  exact Program.SameTable.refl _

/-- More may be reported about what was stored. -/
theorem Stores.of_adds {new : List Nat} (hst : s.Stores path done new t)
    (hprogram : u.program = t.program) (hadds : Adds Event.isNoObject t u)
    (hquiet : (∀ k ∈ new, ∀ c, s.program.cards[k]? = some c → c.kind ≠ .query) →
      Adds isNoLink t u) :
    s.Stores path done new u := by
  refine ⟨hst.holds.of_adds hprogram hadds, hprogram ▸ hst.table, hprogram ▸ hst.resolved, ?_,
    fun h => (hst.quiet h).trans (hquiet h)⟩
  rw [hprogram]
  exact hst.others

/-- What was reported from `s` to `t` on behalf of a symbol refers to what has been reported, if the
owner of the symbol has been stored. -/
def Refers (path : String) (done : List Nat) (k : Nat) (s t : Scan) : Prop :=
  (∀ j, s.program.ownerAt k = some j → j ∈ done) → s.Backed path → t.Backed path

theorem Holds.reported (h : s.Holds path done) (hbacked : s.Backed path) (hk : k ∈ done) :
    ∃ o, s.program.objectOf k = some o ∧ Reported s.events.toList o := by
  obtain ⟨o, ho⟩ := Option.isSome_iff_exists.mp ((h.stored k (h.within k hk)).mpr hk)
  obtain ⟨data, hmem, -⟩ := hbacked.objects k o ho
  exact ⟨o, ho, data, hmem⟩

/-- **What storing a symbol does.** Its object is reported and counts for the symbol `counter`; all
else are remarks. -/
theorem runs_store (hstorable : p.Storable path) (hk : k < p.symbols.length) {guid : String}
    {parent : Option Ref} (hplace : Runs (placeObject k (some path)) s (guid, parent) ⟨p, s.events⟩)
    (counter : Nat) :
    ∃ t data remarks more, Runs (store k (some path) counter) s ⟨p.id, p.made⟩ t ∧
      t.program = (p.allot k).modifySymbol counter
        (fun self => { self with made := self.made.add data.type 1 }) ∧
      t.events.toList = s.events.toList ++ remarks ++ [.object ⟨p.id, p.made⟩ data] ++ more ∧
      (∀ e ∈ remarks, e.isRemark = true) ∧ (∀ e ∈ more, e.isRemark = true) ∧
      data.guid = guid ∧ data.parent = parent ∧
      ∃ c, p.cards[k]? = some c ∧ c.kind.objectType = .ok data.type := by
  obtain ⟨self, hself⟩ : ∃ self, (p.allot k).symbols[k]? = some self :=
    ⟨_, getElem?_eq_getElem ((p.sameTable_allot k).length_eq ▸ hk)⟩
  have hcard : p.cards[k]? = some self.card := by
    rw [← (p.sameTable_allot k).cards]
    exact Program.cards_of_getElem? hself
  -- only plain symbols have no type, and there are none of these
  obtain ⟨type, htype⟩ : ∃ type, self.kind.objectType = .ok type := by
    have hplain := hstorable.typed k _ hcard
    rw [Symbol.card_kind] at hplain
    cases hkind : self.kind with
    | plain => exact absurd hkind hplain
    | _ => exact ⟨_, rfl⟩
  obtain ⟨n, htree, hlast⟩ := hstorable.tree k _ hcard
  rw [Symbol.card_tree] at htree
  obtain ⟨t, data, remarks, hmake, hprogram, hremarks, hevents, hguid, rfl, hparent⟩ :=
    runs_makeObject p s.events hself htype guid parent
  -- whatever comes behind the object is a remark about it
  let object : ObjectId := ⟨p.id, p.made⟩
  have hlater := (remarks_reportComments object htree).bind fun _ =>
    (remarks_reportPosition object htree hlast (some path)).bind fun _ =>
      remarks_pure (Q := (· = object)) rfl
  have hreports : RemarksTo (· = object) (reportCode object self >>=
      fun _ => if self.kind = .program then _ else _) :=
    (remarks_reportCode object htree).bind fun _ => by
      split
      · exact (remarks_reportFile htree path).bind fun _ => hlater
      · exact hlater
  obtain ⟨_, t₂, ht₂, rfl, hprogram₂, more, hevents₂, hmore⟩ :=
    hreports ⟨t.program.modifySymbol counter
      (fun self => { self with made := self.made.add data.type 1 }), t.events⟩
  refine ⟨t₂, data, remarks, more, ?_, by rw [hprogram₂, hprogram], by rw [hevents₂, ← hevents],
    hremarks, hmore, hguid, hparent, _, hcard, htype⟩
  exact runs_bind.mpr ⟨_, _, hplace, runs_bind.mpr ⟨_, _, hmake, runs_bind.mpr ⟨(), _, rfl, ht₂⟩⟩⟩

/-- **Storing a symbol** adds it to those that are stored. -/
theorem Holds.store (h : s.Holds path done) (hk : k < s.program.symbols.length) (hnew : k ∉ done)
    (counter : Nat) :
    ∃ object t, Runs (store k (some path) counter) s object t ∧ s.Stores path done [k] t ∧
      t.program.objectOf k = some object ∧ Refers path done k s t := by
  obtain ⟨p, parent, hplace, htable, hresolved, hobjects, hcounters, hparent, howner⟩ :=
    h.placeObject hk hnew
  have hkp : k < p.symbols.length := htable.length_eq ▸ hk
  obtain ⟨t, data, remarks, more, hrun, hfinal, hall, hremarks, hmore, hguid, rfl, c, hcard,
    htype⟩ := runs_store (htable.storable h.storable) hkp hplace counter
  -- the table is the same, and only `k` has a new object
  have htable₂ : s.program.SameTable t.program := by
    rw [hfinal]
    refine htable.trans ((p.sameTable_allot k).trans (Program.sameTable_modifySymbol ?_ ?_ counter))
    · exact fun _ => rfl
    · exact fun _ => rfl
  have hcards : s.program.cards <+: t.program.cards := by rw [htable₂.cards]
  have hstored : ∀ j, t.program.objectOf j = if k = j then some ⟨p.id, p.made⟩
      else s.program.objectOf j := by
    intro j
    rw [hfinal, Program.objectOf_modifySymbol, p.objectOf_allot_eq hkp, hobjects]
    exact fun _ => rfl
  have hnone {es : List Event} (hes : ∀ e ∈ es, e.isRemark = true) :
      es.filterMap Event.data? = [] :=
    filterMap_eq_nil_iff.mpr fun e he =>
      Option.isNone_iff_eq_none.mp (Event.isNoObject_of_isRemark e (hes e he))
  have hobjects₂ : t.objects = s.objects ++ [data] := by
    unfold objects
    rw [hall, filterMap_append, filterMap_append, filterMap_append, hnone hremarks,
      hnone hmore, append_nil, append_nil]
    rfl
  have hwithin : ∀ j ∈ done ++ [k], j < s.program.symbols.length :=
    forall_mem_append.mpr ⟨h.within, fun j hj => mem_singleton.mp hj ▸ hk⟩
  -- first what is stored now, then what is said about the work as a whole, and at last that the
  -- events refer to what has been reported
  refine ⟨_, t, hrun,
    ⟨⟨htable₂.storable h.storable, ?_, fun j hj => ?_, fun j own hown name => ?_, ?_, ?_⟩, htable₂,
      hfinal ▸ hresolved, fun j hj => ?_, fun _ => ?_⟩, by rw [hstored, if_pos rfl],
    fun hfirst hbacked => hbacked.object htable₂.id hstored hall hremarks hmore
      (fun hzero => ⟨?_, hparent hzero⟩) ?_⟩
  · rw [htable₂.length_eq]
    exact hwithin
  · rw [hstored, mem_append, mem_singleton]
    by_cases hkj : k = j
    · rw [if_pos hkj]
      exact ⟨fun _ => .inr hkj.symm, fun _ => rfl⟩
    · rw [if_neg hkj, h.stored j (htable₂.length_eq ▸ hj)]
      exact ⟨.inl, fun hmem => hmem.resolve_right fun hjk => hkj hjk.symm⟩
  · -- neither the object nor the count of objects changes the counters
    obtain ⟨own', hown', hsame⟩ : ∃ own', p.symbols[j]? = some own' ∧ own'.guids = own.guids := by
      have hmap := congrArg (Option.map Symbol.guids) hown
      rw [hfinal, Program.map_modifySymbol, Program.guids_allot] at hmap
      · exact Option.map_eq_some_iff.mp hmap
      · exact fun _ => rfl
    rw [← hsame, hcounters j own' hown' name,
      Program.copies_of_isPrefix h.storable (htable₂.storable h.storable) hcards hwithin]
  · -- the new object comes last, and its name depends on those in front of it
    rw [hobjects₂, map_append, h.guids,
      Program.guidsFrom_of_isPrefix h.storable (htable₂.storable h.storable) hcards hwithin,
      Program.guidsFrom_append, map_singleton, hguid]
    rfl
  · rw [hobjects₂]
    refine rel_append (h.data.imp fun _ _ hd => describes_of_isPrefix hcards hd)
      (Forall₂.cons ⟨?_, hparent⟩ .nil)
    rw [htable₂.cards, ← htable.cards]
    exact ⟨c, hcard, htype⟩
  · rw [hstored, if_neg]
    exact fun hkj => hj (mem_singleton.mpr hkj.symm)
  · refine ⟨remarks ++ .object ⟨p.id, p.made⟩ data :: more, by
      rw [hall, append_assoc, append_assoc]; rfl, ?_⟩
    refine forall_mem_append.mpr ⟨fun e he => isNoLink_of_isRemark e (hremarks e he),
      forall_mem_cons.mpr ⟨rfl, ?_⟩⟩
    exact fun e he => isNoLink_of_isRemark e (hmore e he)
  · -- the object of the program itself has the type of programs
    obtain ⟨c', hc, hkind, -⟩ := h.storable.own
    rw [hzero, htable.cards, hc] at hcard
    obtain rfl := Option.some.inj hcard
    rw [hkind] at htype
    exact (Except.ok.inj htype).symm
  · -- it stands under its file or under its owner, which is stored already
    rcases h.storable.cases (getElem?_eq_getElem hk) with ⟨rfl, -⟩ | ⟨j, -, hj⟩
    · exact ⟨_, hparent rfl, fun o ho => by cases ho⟩
    · have hj : s.program.ownerAt k = some j :=
        (Program.ownerAt_eq (getElem?_eq_getElem hk)).trans hj
      obtain ⟨o, ho, hreported⟩ := h.reported hbacked (hfirst j hj)
      refine ⟨_, (howner j hj).trans (by rw [ho]; rfl), fun o' ho' => ?_⟩
      rwa [← Ref.object.inj ho']

/-! ### Storing all -/

theorem Storable.ofExcept_topOf (h : p.Storable path) (hk : k < p.symbols.length) :
    p.topOf k >>= p.fileOf = .ok (some path) := by
  obtain ⟨top, htop, heq⟩ := h.topOf_eq k (getElem?_eq_getElem hk)
  rw [heq]
  exact h.fileOf_top htop

/-- What is reported about a query: a link from its owner, and its text. -/
theorem Holds.reportQuery (h : s.Holds path done) (hself : s.program.symbols[k]? = some self)
    (hkind : self.kind = .query) {object : ObjectId}
    (hobject : s.program.objectOf k = some object) :
    ∃ t, Runs (reportQuery k (some object)) s () t ∧ t.program = s.program ∧
      Adds Event.isNoObject s t ∧ Refers path done k s t := by
  have hcard := Program.cards_of_getElem? hself
  obtain ⟨hline, n, text, htree, htext⟩ := h.storable.query k _ hcard hkind
  obtain ⟨line, hline⟩ := Option.isSome_iff_exists.mp hline
  rw [Symbol.card_tree] at htree
  have hlt := (List.getElem?_eq_some_iff.mp hself).1
  -- a query is no program, so it has an owner, and the link starts there
  rcases h.storable.cases hself with ⟨-, hprogram, -⟩ | ⟨j, hj, hparent⟩
  · rw [hkind] at hprogram
    cases hprogram
  have howner : s.program.symbols[j]? = some s.program.symbols[j] :=
    getElem?_eq_getElem (Nat.lt_trans hj hlt)
  let linked : Event := .link .call s.program.symbols[j].stored (some object)
    ⟨some path, ⟨some line, some 1, some (line + 1), some 1⟩⟩
  have hlink : Runs (linkQuery k self (some object)) s () ⟨s.program, s.events.push linked⟩ := by
    have hparent' : Runs (ownerOf self) s s.program.symbols[j] s := by
      unfold ownerOf
      rw [hparent]
      exact runs_symbol.mpr ⟨howner, rfl⟩
    refine runs_bind.mpr ⟨_, s, hparent', runs_bind.mpr ⟨s.program, s, rfl, ?_⟩⟩
    refine runs_ofExcept_bind.mpr ⟨some path, Storable.ofExcept_topOf h.storable hlt, ?_⟩
    rw [show self.line = some line from hline]
    rfl
  let described : Event :=
    .property (.object object) "CAST_SQL_MetricableQuery.sqlQuery" (.text text)
  refine ⟨⟨s.program, (s.events.push linked).push described⟩, ?_, rfl, ?_, fun hfirst hbacked => ?_⟩
  · refine runs_symbol_bind.mpr ⟨self, hself, runs_bind.mpr ⟨(), _, hlink, ?_⟩⟩
    refine runs_ofExcept_bind.mpr ⟨n, by rw [htree]; rfl, ?_⟩
    exact runs_ofExcept_bind.mpr ⟨some text, htext, rfl⟩
  · -- a link and a property
    exact (adds_push rfl s s.program).trans (adds_push rfl _ _)
  · -- the owner is stored before its members, and so reported
    obtain ⟨o, ho, hreported⟩ :=
      h.reported hbacked (hfirst j ((Program.ownerAt_eq hself).trans hparent))
    obtain ⟨data, hmem, -⟩ := hbacked.objects k object hobject
    rw [Program.objectOf, howner] at ho
    have hlinked : Backed path ⟨s.program, s.events.push linked⟩ :=
      hbacked.append rfl (fun _ => rfl) Array.toList_push
        ⟨⟨⟨o, ho, hreported⟩, object, rfl, .inl ⟨data, hmem⟩⟩, trivial⟩
    exact hlinked.of_adds rfl (adds_push rfl ⟨s.program, s.events.push linked⟩ _)

/-- What only queries and unknown programs have makes no objects. Only a query has a link. -/
theorem Holds.reportParticulars (h : s.Holds path done) (hself : s.program.symbols[k]? = some self)
    {object : ObjectId} (hobject : s.program.objectOf k = some object) :
    ∃ result t, Runs (reportParticulars k self.kind (some object)) s result t ∧
      t.program = s.program ∧ Adds Event.isNoObject s t ∧
      (self.kind ≠ .query → Adds isNoLink s t) ∧ Refers path done k s t := by
  cases hkind : self.kind with
  | query =>
    obtain ⟨t, ht, hprogram, hadds, hrefers⟩ := h.reportQuery hself hkind hobject
    exact ⟨none, t, runs_bind.mpr ⟨(), t, ht, rfl⟩, hprogram, hadds, fun hne => absurd rfl hne,
      hrefers⟩
  | unknownProgram =>
    refine ⟨none, ⟨s.program, s.events.push
      (.property (.object object) "CAST_CallToProgram.programName" (.text self.name))⟩,
      ?_, rfl, adds_push rfl s _, fun _ => adds_push rfl s _,
      fun _ hbacked => hbacked.of_adds rfl (adds_push rfl s _)⟩
    refine runs_bind.mpr ⟨(), _, runs_symbol_bind.mpr ⟨self, hself, rfl⟩, rfl⟩
  | _ => exact ⟨_, s, rfl, rfl, Adds.refl _ s, fun _ => Adds.refl _ s, fun _ => id⟩

/-- If members are stored one by one, so are all of them. -/
theorem Holds.saveMembers {fuel counter : Nat}
    (hsave : ∀ {done : List Nat} {s : Scan}, s.Holds path done →
      ∀ {k : Nat}, k < s.program.symbols.length → (done ++ s.program.subtree fuel k).Nodup →
      ∃ object t, Runs (saveWithin fuel k (some path) (some counter)) s object t ∧
      s.Stores path done (s.program.subtree fuel k) t ∧ Refers path done k s t) :
    ∀ (ms : List Nat) {done : List Nat} {s : Scan}, s.Holds path done →
      (∀ m ∈ ms, m < s.program.symbols.length) →
      (done ++ ms.flatMap (s.program.subtree fuel)).Nodup →
      ∃ t, Runs (ms.forM fun m => discard (saveWithin fuel m (some path) (some counter))) s () t ∧
        s.Stores path done (ms.flatMap (s.program.subtree fuel)) t ∧
        ((∀ m ∈ ms, ∀ j, s.program.ownerAt m = some j → j ∈ done) → s.Backed path →
          t.Backed path) := by
  intro ms
  induction ms with
  | nil => exact fun {done s} h _ _ => ⟨s, rfl, h.stores_nil, fun _ => id⟩
  | cons m ms ih =>
    intro done s h hms hnodup
    obtain ⟨hm, hms⟩ := forall_mem_cons.mp hms
    rw [flatMap_cons, ← append_assoc] at hnodup
    obtain ⟨object, t, ht, hst, hrefers⟩ := hsave h hm (nodup_append.mp hnodup).1
    rw [← hst.table.length_eq] at hms
    obtain ⟨u, hu, htu, hrefers'⟩ := ih hst.holds hms (by rw [hst.table.subtree_eq]; exact hnodup)
    refine ⟨u, runs_bind.mpr ⟨(), t, runs_discard.mpr ⟨object, ht⟩, hu⟩, ?_,
      fun howners hbacked => ?_⟩
    · rw [hst.table.subtree_eq] at htu
      rw [flatMap_cons]
      exact hst.trans htu
    · -- the owners of those that follow are stored all the more
      obtain ⟨howner, howners⟩ := forall_mem_cons.mp howners
      refine hrefers' (fun m hm j hj => ?_) (hrefers howner hbacked)
      rw [hst.table.ownerAt_eq] at hj
      exact mem_append_left _ (howners m hm j hj)

/-- **Storing a symbol and all under it** makes an object for each of them, on the way down. -/
theorem Holds.saveWithin :
    ∀ (fuel : Nat) {done : List Nat} {s : Scan}, s.Holds path done → ∀ {k : Nat},
    k < s.program.symbols.length → (done ++ s.program.subtree fuel k).Nodup →
    ∀ {file : Option String}, file = some path ∨ file = none ∧ k = 0 → ∀ counter : Option Nat,
    ∃ object t, Runs (Scan.saveWithin fuel k file counter) s object t ∧
      s.Stores path done (s.program.subtree fuel k) t ∧ Refers path done k s t := by
  intro fuel
  induction fuel with
  | zero =>
    exact fun {done s} h {k} _ _ {file} _ counter => ⟨none, s, rfl, h.stores_nil, fun _ => id⟩
  | succ fuel ih =>
    intro done s h k hk hnodup file hfile counter
    have hself : s.program.symbols[k]? = some s.program.symbols[k] := getElem?_eq_getElem hk
    obtain ⟨n, htree, -⟩ := h.storable.tree k _ (Program.cards_of_getElem? hself)
    rw [Symbol.card_tree] at htree
    have hnew : k ∉ done := by
      intro hdone
      exact (disjoint_of_nodup_append hnodup) hdone mem_cons_self
    have hnone : s.program.symbols[k].stored = none := by
      have hobject := (h.stored k hk).not.mpr hnew
      unfold Program.objectOf at hobject
      rw [hself, Option.bind_some] at hobject
      exact Option.not_isSome_iff_eq_none.mp hobject
    -- the symbol itself
    obtain ⟨object, t, ht, hst, hobject, hrefers⟩ := h.store hk hnew (counter.getD k)
    -- its members
    rw [Program.subtree, ← singleton_append, ← append_assoc, ← hst.table.subtree_eq,
      ← hst.table.members] at hnodup
    have hmembers : ∀ m ∈ (t.program.membersOf k).all, m < t.program.symbols.length := by
      intro m hm
      exact Program.lt_of_ownerAt (hst.holds.storable.indexed.mem_all.mp hm)
    obtain ⟨u, hu, htu, hrefers'⟩ := Holds.saveMembers
      (fun {_ _} h {_} hm hnodup => ih h hm hnodup (.inl rfl) (some (counter.getD k)))
      (t.program.membersOf k).all hst.holds hmembers hnodup
    -- members do not take the object of their owner
    have hobject : u.program.objectOf k = some object := by
      rw [htu.others k fun hmem => disjoint_of_nodup_append hnodup
        (mem_append_right _ mem_cons_self) hmem]
      exact hobject
    have hsu := hst.trans htu
    rw [hst.table.subtree_eq, hst.table.members, singleton_append, ← Program.subtree] at hsu
    -- what only queries and unknown programs have
    obtain ⟨own, hown, hcard⟩ :=
      Program.getElem?_of_cards (hsu.table.cards ▸ Program.cards_of_getElem? hself)
    have hkind : own.kind = s.program.symbols[k].kind := by
      change own.card.kind = s.program.symbols[k].card.kind
      rw [hcard]
    obtain ⟨result, v, hv, hprogram, hadds, hquiet, hrefers''⟩ :=
      hsu.holds.reportParticulars hown hobject
    rw [hkind] at hv hquiet
    refine ⟨result, v, ?_, hsu.of_adds hprogram hadds fun h => hquiet ?_, fun howner hbacked =>
      hrefers'' (fun j hj => ?_) (hrefers' (fun m hm j hj => ?_) (hrefers howner hbacked))⟩
    · refine runs_symbol_bind.mpr ⟨_, hself, runs_bind.mpr ⟨some object, u, ?_, hv⟩⟩
      unfold saveTree
      rw [htree]
      have hfor : Runs (fileFor s.program.symbols[k] file) s (some path) s := by
        rcases hfile with rfl | ⟨rfl, rfl⟩
        · rfl
        · exact runs_bind.mpr ⟨_, s, rfl, runs_ofExcept.mpr ⟨h.storable.fileOf_top hself, rfl⟩⟩
      refine runs_bind.mpr ⟨some path, s, hfor, runs_bind.mpr ⟨some object, t, ?_, ?_⟩⟩
      · unfold storeOnce
        rw [hnone]
        exact runs_bind.mpr ⟨object, t, ht, rfl⟩
      · exact runs_bind.mpr ⟨t.program, t, rfl, runs_bind.mpr ⟨(), u, hu, rfl⟩⟩
    · exact h k mem_cons_self s.program.symbols[k].card (Program.cards_of_getElem? hself)
    · rw [hsu.table.ownerAt_eq] at hj
      exact mem_append_left _ (howner j hj)
    · rw [← Option.some.inj ((hst.holds.storable.indexed.mem_all.mp hm).symm.trans hj)]
      exact mem_append_right _ mem_cons_self

/-! ### Storing a program -/

variable {i : ProgramId} {origin : Origin} {root : Node}

/-- Of a program that was just read nothing is stored. -/
theorem holds_nil (h : s.program.Enrolled i (.file path) root root.declarations)
    (hroot : root.IsSource) (hobjects : s.objects = []) : s.Holds path [] := by
  refine ⟨h.storable hroot, fun k hk => absurd hk not_mem_nil, fun k hk => ?_,
    fun k self hself name => ?_, ?_, ?_⟩
  · have hself : s.program.symbols[k]? = some s.program.symbols[k] := getElem?_eq_getElem hk
    unfold Program.objectOf
    rw [hself, Option.bind_some, (h.fresh _ (getElem_mem hk)).1]
    exact iff_of_false Bool.false_ne_true not_mem_nil
  · rw [(h.fresh self (mem_of_getElem? hself)).2]
    rfl
  · rw [hobjects]
    rfl
  · rw [hobjects]
    exact .nil

/-- **Storing a program** makes an object for each of its symbols. -/
theorem runs_save (h : s.program.Enrolled i (.file path) root root.declarations)
    (hroot : root.IsSource) (hobjects : s.objects = []) :
    ∃ object t, Runs (save 0 none) s object t ∧
      s.Stores path [] (s.program.subtree s.program.symbols.length 0) t ∧
      (s.Backed path → t.Backed path) := by
  have hholds := holds_nil h hroot hobjects
  obtain ⟨object, t, ht, hst, hrefers⟩ := hholds.saveWithin s.program.symbols.length h.pos
    (hholds.storable.nodup_subtree _ _) (.inr ⟨rfl, rfl⟩) none
  refine ⟨object, t, runs_bind.mpr ⟨s.program, s, rfl, ht⟩, hst, hrefers fun j hj => ?_⟩
  -- the program has no owner
  obtain ⟨own, hown, -, hnone, -⟩ := hholds.storable.own
  rw [Program.ownerAt, hown, Option.bind_some, hnone] at hj
  cases hj

/-- Without a file of its own a program cannot be stored. -/
theorem exists_path_of_runs_save (h : s.program.Enrolled i origin root root.declarations)
    (hrun : Runs (save 0 none) s object t) : ∃ path, origin = .file path := by
  obtain ⟨self, hself, hcard⟩ := Program.getElem?_of_cards h.own
  have hkind : self.kind = .program := congrArg Symbol.kind hcard
  have horigin : self.origin = origin := congrArg Symbol.origin hcard
  have htree : self.tree = .root root := congrArg Symbol.tree hcard
  have hparent : self.parent = none := congrArg Symbol.parent hcard
  have hnone := (h.fresh self (mem_of_getElem? hself)).1
  have hrun := runs_program_bind.mp hrun
  rw [h.length] at hrun
  obtain ⟨_, hself', hrun⟩ := runs_symbol_bind.mp hrun
  obtain rfl := Option.some.inj (hself.symm.trans hself')
  obtain ⟨_, _, hsave, -⟩ := runs_bind.mp hrun
  unfold saveTree at hsave
  rw [htree] at hsave
  obtain ⟨file, s₁, hfor, hsave⟩ := runs_bind.mp hsave
  -- the file is asked for before anything is stored
  obtain ⟨hfile, rfl⟩ := runs_ofExcept.mp (runs_program_bind.mp hfor)
  cases origin with
  | file path => exact ⟨path, rfl⟩
  | nowhere =>
    -- there is no global name
    obtain ⟨_, _, honce, -⟩ := runs_bind.mp hsave
    unfold storeOnce at honce
    rw [hnone] at honce
    obtain ⟨_, _, hstore, -⟩ := runs_bind.mp honce
    obtain ⟨_, _, hplace, -⟩ := runs_bind.mp hstore
    obtain ⟨_, _, hguid, -⟩ := runs_bind.mp (runs_program_bind.mp hplace)
    obtain ⟨hguid, -⟩ := runs_ofExcept.mp hguid
    have htop : s.program.topOf 0 = .ok self := by
      unfold Program.topOf Program.lineage Program.lineageWithin
      rw [hself]
      dsimp only
      rw [hparent]
      rfl
    have hfile : s.program.fileOf self = .ok none := by
      simp [Program.fileOf, hkind, horigin]
    unfold Program.guid at hguid
    rw [htop] at hguid
    simp [bind, Except.bind, hfile] at hguid
  | beside m =>
    -- the file of another symbol is not known either
    have hpath : s.program.pathWithin (m + 1) m = .error .valueMissing := by
      unfold Program.pathWithin
      cases m with
      | zero =>
        rw [hself]
        obtain ⟨kind, name, parent, line, tree, source, members, stored, guids, names, made⟩ := self
        obtain rfl : kind = .program := hkind
        obtain rfl : source = .beside 0 := horigin
        rfl
      | succ m =>
        cases hother : s.program.symbols[m + 1]? with
        | none => rfl
        | some other =>
          obtain ⟨d, -, hentered⟩ := h.exists_entered (Program.cards_of_getElem? hother)
          have hne := Surroundings.declaredKind_ne_program hentered.kind
          obtain ⟨kind, name, parent, line, tree, source, members, stored, guids, names, made⟩ :=
            other
          cases kind with
          | program => exact absurd rfl hne
          | _ => rfl
    simp [Program.fileOf, hkind, horigin, hpath] at hfile

/-- What has been stored of a program. -/
theorem stores_of_runs_save (h : s.program.Enrolled i origin root root.declarations)
    (hroot : root.IsSource) (hobjects : s.objects = []) (hrun : Runs (save 0 none) s object t) :
    ∃ path, origin = .file path ∧ s.Stores path []
      (s.program.subtree s.program.symbols.length 0) t := by
  obtain ⟨path, rfl⟩ := exists_path_of_runs_save h hrun
  obtain ⟨object', t', ht', hst, -⟩ := runs_save h hroot hobjects
  obtain ⟨-, rfl⟩ := hrun.unique ht'
  exact ⟨path, rfl, hst⟩

end Scan

end EztScan
