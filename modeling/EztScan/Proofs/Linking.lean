import EztScan.Proofs.Resolution
import EztScan.Proofs.Storing

/-!
# What links change

Reporting the links of a program leaves its symbols and their objects as they are, and declares
called programs that are not known, behind the others (`Scan.Enlarges`). These are stored at once,
so that all symbols have objects at every moment (`Scan.IsStored`). A statement reports links from
one caller only, the symbol that the walk is inside of (`IsStored.linkVisit`).
-/

namespace EztScan

open Element EztScan.Language Work List Program

variable {owner : Nat} {self : Symbol} {t u : Scan} {o : Operand} {n root : Node} {known : Objects}
  {caller : Option ObjectId} {rs : List Reference} {stack stack' : Enclosing} {v : Visit}
  {i : ProgramId}

/-- Is the event, if it is a link, one from this object? -/
def Event.startsFrom (caller : Option ObjectId) : Event → Bool
  | .link _ start _ _ => decide (start = caller)
  | _ => true

/-! ### A program that is not known -/

namespace Program

variable {p : Program} {path : String}

/-- The owner of a new symbol gets a member and changes in nothing else, so a declaration only
appends to what is read from the symbols but from their members. -/
theorem map_declare {α : Type} {g : Symbol → α}
    (hg : ∀ (s : Symbol) members, g { s with members } = g s) (p : Program) (owner : Nat)
    (key : String) (self : Symbol) (j : Nat) :
    ((p.declare owner key self).1.symbols[j]?).map g = ((p.symbols ++ [self])[j]?).map g := by
  let f : Symbol → Symbol := fun s =>
    { s with members := s.members.insert (Text.upper key) p.symbols.length }
  have hf : ∀ s, g (f s) = g s := fun s => hg s _
  exact map_modifySymbol hf owner j

/-- The card of a symbol after a declaration is that of an old symbol, or of the new one. -/
theorem getElem?_cards_declare {key : String} {k : Nat} {c : Symbol}
    (hc : (p.declare owner key self).1.cards[k]? = some c) :
    p.cards[k]? = some c ∨ k = p.symbols.length ∧ c = self.card := by
  rw [cards_declare] at hc
  by_cases hk : k < p.cards.length
  · rw [getElem?_append_left hk] at hc
    exact .inl hc
  · rw [getElem?_append_right (Nat.le_of_not_lt hk)] at hc
    have hlt := (List.getElem?_eq_some_iff.mp hc).1
    rw [length_singleton, length_cards] at hlt
    rw [length_cards] at hk
    exact .inr ⟨by omega, mem_singleton.mp (mem_of_getElem? hc)⟩

/-- What is said of every card holds after a declaration if it holds for the new symbol. -/
theorem forall_cards_declare {key : String} {P : Symbol → Prop}
    (hold : ∀ (k : Nat) c, p.cards[k]? = some c → P c) (hself : P self.card) (k : Nat) (c : Symbol)
    (hc : (p.declare owner key self).1.cards[k]? = some c) : P c := by
  rcases getElem?_cards_declare hc with hc | ⟨-, rfl⟩
  · exact hold k c hc
  · exact hself

theorem isPrefix_declare (p : Program) (owner : Nat) (key : String) (self : Symbol) :
    p.cards <+: (p.declare owner key self).1.cards :=
  ⟨[self.card], (p.cards_declare owner key self).symm⟩

theorem length_declare (p : Program) (owner : Nat) (key : String) (self : Symbol) :
    (p.declare owner key self).1.symbols.length = p.symbols.length + 1 := by
  rw [← length_cards, cards_declare, length_append, length_cards]
  rfl

end Program

/-- The symbol of a program that is not known, as a member of another one. It has a tree with known
lines, and nothing else. -/
structure Symbol.IsUnknown (owner : Nat) (s : Symbol) : Prop where
  kind : s.kind = .unknownProgram
  parent : s.parent = some owner
  tree : ∃ n, s.tree = .root n ∧ n.span.endLine.isSome = true
  members : s.members = []
  stored : s.stored = none
  guids : s.guids = []

theorem Symbol.IsUnknown.card_kind_ne {s : Symbol} (h : s.IsUnknown owner) {kind : SymbolKind}
    (hkind : kind ≠ .unknownProgram) : s.card.kind ≠ kind := by
  rw [Symbol.card_kind, h.kind]
  exact hkind.symm

namespace Program

variable {p : Program} {path : String}

theorem Storable.declare (h : p.Storable path) (howner : owner < p.symbols.length)
    (hself : self.IsUnknown owner) : (p.declare owner self.name self).1.Storable path := by
  have hgrows := p.isPrefix_declare owner self.name self
  obtain ⟨own, hown, hkind⟩ := h.own
  refine ⟨h.indexed.declare howner hself.parent hself.members,
    ⟨own, getElem?_of_isPrefix hgrows hown, hkind⟩, fun k c hc => ?_,
    forall_cards_declare h.typed (hself.card_kind_ne (by decide)),
    forall_cards_declare h.tree hself.tree,
    forall_cards_declare h.query fun hquery => absurd hquery (hself.card_kind_ne (by decide))⟩
  rcases getElem?_cards_declare hc with hc | ⟨hk, rfl⟩
  · exact h.member k c hc
  · exact ⟨hself.card_kind_ne (by decide), owner, by omega, hself.parent⟩

/-- The object of a symbol after a declaration. The new symbol has none. -/
theorem objectOf_declare (p : Program) (hself : self.IsUnknown owner) (j : Nat) :
    (p.declare owner self.name self).1.objectOf j = p.objectOf j := by
  have hmap := map_declare (g := Symbol.stored) (fun _ _ => rfl) p owner self.name self j
  have hbind : ∀ symbol : Option Symbol, symbol.bind (·.stored) =
      (symbol.map Symbol.stored).join := by
    intro symbol
    cases symbol with
    | none | some => rfl
  unfold objectOf
  rw [hbind, hbind, hmap]
  by_cases hj : j < p.symbols.length
  · rw [getElem?_append_left hj]
  · rw [getElem?_append_right (Nat.le_of_not_lt hj),
      getElem?_eq_none (Nat.le_of_not_lt hj)]
    cases hat : [self][j - p.symbols.length]? with
    | none => rfl
    | some =>
      rw [mem_singleton.mp (mem_of_getElem? hat)]
      exact hself.stored

end Program

namespace Scan

variable {path : String} {done : List Nat} {s : Scan}
variable {refs : List SymbolRef} {kind : LinkKind}

/-- A declaration changes nothing about what is stored. -/
theorem Holds.declare (h : s.Holds path done) (howner : owner < s.program.symbols.length)
    (hself : self.IsUnknown owner) :
    Holds path done ⟨(s.program.declare owner self.name self).1, s.events⟩ := by
  have hstorable := h.storable.declare howner hself
  have hgrows := s.program.isPrefix_declare owner self.name self
  have hlength := s.program.length_declare owner self.name self
  refine ⟨hstorable, fun k hk => ?_, fun k hk => ?_, fun k own hown name => ?_, ?_, ?_⟩
  · rw [hlength]
    exact Nat.lt_succ_of_lt (h.within k hk)
  · rw [s.program.objectOf_declare hself]
    -- only the old symbols have objects, before and after
    by_cases hold : k < s.program.symbols.length
    · exact h.stored k hold
    · refine iff_of_false (fun hsome => ?_) fun hdone => hold (h.within k hdone)
      unfold Program.objectOf at hsome
      rw [getElem?_eq_none (Nat.le_of_not_lt hold)] at hsome
      cases hsome
  · rw [Program.copies_of_isPrefix h.storable hstorable hgrows h.within]
    have hmap := s.program.map_declare (g := Symbol.guids) (fun _ _ => rfl) owner self.name self k
    rw [hown, Option.map_some] at hmap
    obtain ⟨own', hown', hguids⟩ := Option.map_eq_some_iff.mp hmap.symm
    by_cases hold : k < s.program.symbols.length
    · rw [getElem?_append_left hold] at hown'
      rw [← hguids]
      exact h.counters k own' hown' name
    · -- the new symbol has no members yet
      rw [getElem?_append_right (Nat.le_of_not_lt hold)] at hown'
      rw [← hguids, mem_singleton.mp (mem_of_getElem? hown'), hself.guids]
      have hnone : s.program.copies done (some k) name = 0 := by
        refine countP_eq_zero.mpr fun j hj hboth => ?_
        rw [Bool.and_eq_true, beq_iff_eq] at hboth
        exact hold (Nat.lt_trans (h.storable.ownerAt_lt hboth.1) (h.within j hj))
      rw [hnone]
      rfl
  · rw [Program.guidsFrom_of_isPrefix h.storable hstorable hgrows h.within]
    exact h.guids
  · exact h.data.imp fun _ _ hd => describes_of_isPrefix hgrows hd

/-! ### Stored programs and called ones -/

/-- There are objects for all symbols. -/
def IsStored (path : String) (s : Scan) : Prop :=
  ∃ done, s.Holds path done ∧ done.Perm (List.range s.program.symbols.length)

theorem IsStored.storable (h : s.IsStored path) : s.program.Storable path := by
  obtain ⟨done, hholds, -⟩ := h
  exact hholds.storable

theorem IsStored.isSome (h : s.IsStored path) {k : Nat} (hk : k < s.program.symbols.length) :
    (s.program.objectOf k).isSome = true := by
  obtain ⟨done, hholds, hperm⟩ := h
  exact (hholds.stored k hk).mpr (hperm.mem_iff.mpr (mem_range.mpr hk))

/-- From `s` to `t`, unknown programs were declared behind the other symbols, whose objects are as
before. -/
structure Enlarges (s t : Scan) : Prop where
  cards : ∃ new, t.program.cards = s.program.cards ++ new ∧ ∀ c ∈ new, c.kind = .unknownProgram
  objects : ∀ k < s.program.symbols.length, t.program.objectOf k = s.program.objectOf k

theorem Enlarges.refl (s : Scan) : s.Enlarges s :=
  ⟨⟨[], (append_nil _).symm, forall_mem_nil _⟩, fun _ _ => rfl⟩

theorem Enlarges.isPrefix (h : s.Enlarges t) : s.program.cards <+: t.program.cards := by
  obtain ⟨new, hcards, -⟩ := h.cards
  exact ⟨new, hcards.symm⟩

theorem Enlarges.length_le (h : s.Enlarges t) :
    s.program.symbols.length ≤ t.program.symbols.length := by
  rw [← length_cards, ← length_cards]
  exact h.isPrefix.length_le

theorem Enlarges.trans (hst : s.Enlarges t) (htu : t.Enlarges u) : s.Enlarges u := by
  obtain ⟨as, has, hkinds⟩ := hst.cards
  obtain ⟨bs, hbs, hkinds'⟩ := htu.cards
  refine ⟨⟨as ++ bs, by rw [hbs, has, append_assoc], forall_mem_append.mpr ⟨hkinds, hkinds'⟩⟩,
    fun k hk => ?_⟩
  rw [htu.objects k (Nat.lt_of_lt_of_le hk hst.length_le), hst.objects k hk]

theorem enlarges_of_sameTable (htable : s.program.SameTable t.program)
    (hstored : ∀ j, t.program.objectOf j = s.program.objectOf j) : s.Enlarges t :=
  ⟨⟨[], by rw [htable.cards, append_nil], forall_mem_nil _⟩, fun k _ => hstored k⟩

/-- A new symbol has no members, so that nothing but itself is stored. -/
theorem subtree_declare {p : Program} (h : p.Storable path) (howner : owner < p.symbols.length)
    (hself : self.IsUnknown owner) (fuel : Nat) :
    (p.declare owner self.name self).1.subtree (fuel + 1) p.symbols.length =
      [p.symbols.length] := by
  have hstorable := h.declare howner hself
  have hnone : ((p.declare owner self.name self).1.membersOf p.symbols.length).all = [] := by
    refine eq_nil_iff_forall_not_mem.mpr fun m hm => ?_
    have howned := hstorable.indexed.mem_all.mp hm
    have hlt := hstorable.ownerAt_lt howned
    have hm' := lt_of_ownerAt howned
    rw [length_declare] at hm'
    omega
  rw [subtree, hnone, flatMap_nil]

/-- The symbol that is declared for a program that is not known. -/
theorem isUnknown_of_word {t : Token} (ht : t.HasLines) (owner : Nat) (name : String) :
    Symbol.IsUnknown owner
      { kind := .unknownProgram, name, parent := some owner, tree := operandTree (.word t) } := by
  refine ⟨rfl, rfl, ⟨_, rfl, ?_⟩, rfl, rfl, rfl⟩
  have hlines : Element.HasLines (Node.toElement ⟨{ kind := wordKind }, [.token t]⟩) :=
    hasLines_node (cons_ne_nil _ _) (forall_mem_singleton.mpr (hasLines_token ht))
  exact hlines.2

/-- A symbol for a program that is not known can be declared and stored. -/
theorem IsStored.declare (h : s.IsStored path) (howner : owner < s.program.symbols.length)
    (hself : self.IsUnknown owner) :
    ∃ object u, Runs (save s.program.symbols.length (some path))
      ⟨(s.program.declare owner self.name self).1, s.events⟩ object u ∧
      u.IsStored path ∧ s.Enlarges u ∧ Adds isNoLink s u ∧
        u.program.cards = s.program.cards ++ [self.card] ∧
      u.program.resolved = s.program.resolved ∧ u.program.id = s.program.id ∧
        (s.Backed path → u.Backed path) := by
  obtain ⟨done, hholds, hperm⟩ := h
  have hlength := s.program.length_declare owner self.name self
  -- nothing has been declared in the new symbol, so that only it is saved
  have hsubtree := subtree_declare hholds.storable howner hself s.program.symbols.length
  have hnodup : (done ++ [s.program.symbols.length]).Nodup := by
    have hnew : s.program.symbols.length ∉ done :=
      fun hmem => Nat.lt_irrefl _ (hholds.within _ hmem)
    exact nodup_append.mpr ⟨hperm.nodup_iff.mpr nodup_range, nodup_singleton _,
      fun a ha b hb hab => hnew (mem_singleton.mp hb ▸ hab ▸ ha)⟩
  obtain ⟨object, u, hu, hstores, hrefers⟩ := (hholds.declare howner hself).saveWithin
    (s.program.symbols.length + 1) (hlength ▸ Nat.lt_succ_self _) (hsubtree.symm ▸ hnodup)
    (.inl rfl) none
  rw [hsubtree] at hstores
  have hcards : u.program.cards = s.program.cards ++ [self.card] := by
    rw [hstores.table.cards]
    exact s.program.cards_declare owner self.name self
  refine ⟨object, u, runs_program_bind.mpr (hlength ▸ hu), ⟨_, hstores.holds, ?_⟩,
    ⟨⟨_, hcards, fun c hc => ?_⟩, fun k hk => ?_⟩,
    hstores.quiet fun k hk c hc => ?_, hcards, hstores.resolved, hstores.table.id,
    fun hbacked => hrefers (fun j hj => ?_)
      (hbacked.congr rfl (s.program.objectOf_declare hself) rfl)⟩
  · rw [hstores.table.length_eq, hlength, range_succ]
    exact hperm.append_right _
  · rw [mem_singleton.mp hc]
    exact hself.kind
  · rw [hstores.others k fun hmem => Nat.lt_irrefl _ (mem_singleton.mp hmem ▸ hk)]
    exact s.program.objectOf_declare hself k
  · -- the only symbol that is saved is not a query
    rcases getElem?_cards_declare hc with hold | ⟨-, rfl⟩
    · rw [mem_singleton.mp hk, ← length_cards, getElem?_eq_none (Nat.le_refl _)] at hold
      cases hold
    · exact hself.card_kind_ne (by decide)
  · -- its owner is stored, as all symbols are
    rw [ownerAt, cards_declare, ← length_cards, getElem?_concat_length] at hj
    obtain rfl : owner = j := Option.some.inj (hself.parent.symm.trans hj)
    exact hperm.mem_iff.mpr (mem_range.mpr howner)

/-- From `s` to `t`, a program that is not known was found by its name among the members of a
symbol, or else declared as one of them. -/
structure Provides (owner : Nat) (name : String) (k : Nat) (s t : Scan) : Prop where
  id : t.program.id = s.program.id
  resolved : t.program.resolved = s.program.resolved
  cards : s.program.findOne owner (some name) [.unknownProgram] none = some k ∧
    t.program.cards = s.program.cards ∨
    s.program.findOne owner (some name) [.unknownProgram] none = none ∧ k = s.program.cards.length ∧
      ∃ own, t.program.cards = s.program.cards ++ [own] ∧ own.kind = .unknownProgram ∧
      own.name = name ∧ own.parent = some owner

/-- **A program that is not known** is stored as soon as it is declared. -/
theorem IsStored.runs_unknownProgram (h : s.IsStored path)
    (howner : owner < s.program.symbols.length) {t : Token} (ht : t.HasLines) {name : String}
    (hname : (Operand.word t).name = some name) :
    ∃ id u, Runs (unknownProgram owner (.word t)) s id u ∧ u.IsStored path ∧ s.Enlarges u ∧
      Adds isNoLink s u ∧ (s.Backed path → u.Backed path) ∧ Provides owner name id s u := by
  cases hfound : s.program.findOne owner (Operand.word t).name [.unknownProgram] none with
  | some found =>
    refine ⟨found, s, runs_program_bind.mpr ?_, h, Enlarges.refl s, Adds.refl _ s, id, rfl, rfl,
      .inl ⟨hname ▸ hfound, rfl⟩⟩
    rw [hfound]
    rfl
  | none =>
    have hself := isUnknown_of_word ht owner name
    obtain ⟨object, u, hu, hstored, henlarges, hadds, hcards, hresolved, hid, hbacked⟩ :=
      h.declare howner hself
    -- it is stored for the file of the program
    have hstorable := h.storable.declare howner hself
    obtain ⟨own, hown, -⟩ := hstorable.own
    obtain ⟨own, hown, -⟩ := getElem?_of_cards hown
    refine ⟨s.program.symbols.length, u, runs_program_bind.mpr ?_, hstored, henlarges, hadds,
      hbacked, hid, hresolved,
      .inr ⟨hname ▸ hfound, s.program.length_cards.symm, _, hcards, rfl, rfl, rfl⟩⟩
    rw [hfound, hname]
    refine runs_bind.mpr ⟨s.program.symbols.length, ⟨_, s.events⟩, rfl, runs_program_bind.mpr ?_⟩
    refine runs_symbol_bind.mpr ⟨own, hown, ?_⟩
    refine runs_ofExcept_bind.mpr ⟨some path, hstorable.fileOf_top hown, ?_⟩
    exact runs_bind.mpr ⟨(), u, runs_discard.mpr ⟨object, hu⟩, rfl⟩

/-- The same for a run that is given, which can only be this one. -/
theorem IsStored.unknownProgram (h : s.IsStored path) (howner : owner < s.program.symbols.length)
    (ho : ∃ t, o = .word t ∧ t.HasLines) {id : Nat} (hrun : Runs (unknownProgram owner o) s id u) :
    u.IsStored path ∧ s.Enlarges u ∧ Adds isNoLink s u ∧ (s.Backed path → u.Backed path) ∧
      ∃ name, o.name = some name ∧ Provides owner name id s u := by
  obtain ⟨t, rfl, ht⟩ := ho
  cases hname : (Operand.word t).name with
  | none =>
    -- nothing is found without a name
    have hrun := runs_program_bind.mp hrun
    rw [hname] at hrun
    exact absurd hrun not_runs_throw
  | some name =>
    obtain ⟨id', u', hrun', hstored, henlarges, hadds, hbacked, hprovides⟩ :=
      h.runs_unknownProgram howner ht hname
    obtain ⟨rfl, rfl⟩ := hrun.unique hrun'
    exact ⟨hstored, henlarges, hadds, hbacked, name, rfl, hprovides⟩

/-! ### Links of a statement -/

/-- Programs are called by words whose lines are known. -/
def CallsByWord (n : Node) (rs : List Reference) : Prop :=
  ∀ r ∈ rs, r.expects = .program → ∀ o, n.operand? r.role = some o → ∃ t, o = .word t ∧ t.HasLines

theorem isNoLink_startsFrom (caller : Option ObjectId) (e : Event) (h : isNoLink e = true) :
    e.startsFrom caller = true := by
  cases e with
  | link => cases h
  | _ => rfl

theorem IsStored.of_adds (h : s.IsStored path) (hprogram : t.program = s.program)
    (hadds : Adds Event.isNoObject s t) : t.IsStored path := by
  obtain ⟨done, hholds, hperm⟩ := h
  exact ⟨done, hholds.of_adds hprogram hadds, hprogram ▸ hperm⟩

theorem IsStored.setResolved (h : s.IsStored path) (statement : Nat) (role : Role)
    (refs : List SymbolRef) :
    IsStored path ⟨s.program.setResolved statement role refs, s.events⟩ ∧
      s.Enlarges ⟨s.program.setResolved statement role refs, s.events⟩ := by
  have htable : s.program.SameTable (s.program.setResolved statement role refs) :=
    ⟨rfl, rfl, fun _ => rfl⟩
  obtain ⟨done, hholds, hperm⟩ := h
  exact ⟨⟨done, hholds.congr htable (fun _ => rfl) (fun _ => rfl) rfl, hperm⟩,
    enlarges_of_sameTable htable fun _ => rfl⟩

/-! Linking may stop with a fault. So what is said of its outcome has to hold wherever it stops. -/

section Asking

variable {R : Scan → Scan → Prop} [Std.Refl R] [Trans R R R]

theorem keeps_program : Keeps R program? :=
  Keeps.bind keeps_get fun _ => keeps_pure _

theorem keeps_symbol (id : Nat) : Keeps R (symbol id) :=
  Keeps.bind keeps_program fun _ => keeps_ofExcept _

theorem keeps_bookmark (span : Span) : Keeps R (bookmark span) := by
  refine Keeps.bind keeps_program fun p => (keeps_symbol 0).bind fun self => ?_
  exact (keeps_ofExcept _).bind fun _ => keeps_pure _

end Asking

/-! What linking keeps is said once for each step, and so for the whole walk. -/

section Links

variable {P : Scan → Prop} {path : String} {known : Objects} {owner : Nat}

/-- Looking for a program that is not known, what its runs keep holds also where there is a fault:
then nothing was done. -/
theorem keeps_unknownProgram (ho : ∃ t, o = .word t ∧ t.HasLines)
    (hready : ∀ {s}, P s → s.IsStored path ∧ owner < s.program.symbols.length)
    (hstep : ∀ {s id u}, P s → Runs (unknownProgram owner o) s id u → P u) :
    Keeps (Preserves P) (unknownProgram owner o) := by
  intro s h
  obtain ⟨t, rfl, ht⟩ := ho
  cases hname : (Operand.word t).name with
  | some =>
    obtain ⟨id, u, hrun, -⟩ := (hready h).1.runs_unknownProgram (hready h).2 ht hname
    rw [hrun]
    exact hstep h hrun
  | none =>
    -- nothing is found without a name, and nothing is declared
    have hstop : (unknownProgram owner (.word t)).runOn s = (.error .textMissing, s) := by
      unfold unknownProgram
      rw [hname]
      rfl
    rw [hstop]
    exact h

theorem keeps_targetsOf {r : Reference}
    (hunknown : r.expects = .program → Keeps (Preserves P) (unknownProgram owner o))
    (hset : r.expects = .program → ∀ {s} id, P s →
      P ⟨s.program.setResolved n.head.number r.role [⟨s.program.id, id⟩], s.events⟩) :
    Keeps (Preserves P) (targetsOf owner n r o) := by
  refine Keeps.bind keeps_program fun p => ?_
  dsimp only
  split
  next hcond =>
    rw [Bool.and_eq_true, decide_eq_true_iff] at hcond
    exact (hunknown hcond.1).bind fun id =>
      Keeps.bind (keeps_modify fun s h => hset hcond.1 id h) fun _ => keeps_pure _
  · exact keeps_pure _

/-- A link to what an operand stands for is one more event, if that has an object. -/
theorem keeps_linkTarget {ref : SymbolRef}
    (hlink : ∀ {s callee} mark, P s → objectOf known s.program ref = some callee →
      P ⟨s.program, s.events.push (.link kind caller (some callee) mark)⟩) :
    Keeps (Preserves P) (linkTarget known kind caller o ref) := by
  intro s h
  refine of_runOn_bind (P := P) h fun p s₁ hprogram => ?_
  obtain ⟨rfl, rfl⟩ := (show Runs program? s s.program s from rfl).unique hprogram
  cases hobject : objectOf known s.program ref with
  | none => exact h
  | some callee =>
    -- asking for the place may stop the walk, and changes nothing
    have hsame := keeps_bookmark (R := Eq) o.span s
    refine of_runOn_bind (P := P) (hsame ▸ h) fun mark s₁ hmark => ?_
    rw [hmark] at hsame
    obtain rfl := hsame
    exact hlink mark h hobject

theorem program_of_runs_linkTargets
    (hrun : Runs (refs.forM (linkTarget known kind caller o)) s () u) : u.program = s.program := by
  have hkeeps : Keeps (Preserves fun t => t.program = s.program)
      (refs.forM (linkTarget known kind caller o)) :=
    keeps_forM fun _ _ => keeps_linkTarget fun _ h _ => h
  exact hkeeps.of_runs hrun rfl

/-- It is enough that every operand is looked up and linked so. The links may use what is known of
the references that were found. -/
theorem keeps_linkReferences
    (htargets : ∀ r ∈ rs, ∀ o, n.operand? r.role = some o →
      Keeps (Preserves P) (targetsOf owner n r o))
    (hlink : ∀ r ∈ rs, ∀ o, n.operand? r.role = some o → ∀ {s refs t}, P s →
      Runs (targetsOf owner n r o) s refs t → ∀ ref ∈ refs,
      Keeps (Preserves P) (linkTarget known r.link caller o ref)) :
    Keeps (Preserves P) (linkReferences known owner caller n rs) := by
  induction rs with
  | nil => exact keeps_pure _
  | cons r rs ih =>
    obtain ⟨htarget, htargets⟩ := forall_mem_cons.mp htargets
    obtain ⟨hfirst, hlink⟩ := forall_mem_cons.mp hlink
    refine keeps_ofExcept_bind fun operand hoperand => ?_
    cases operand with
    | none => exact keeps_pure _
    | some o =>
      have ho := (operandIn_eq hoperand).symm
      intro s h
      -- a fault may come with the references or with one of their links
      have ht := htarget o ho s h
      refine of_runOn_bind (P := P) ht fun refs t hrun => ?_
      rw [hrun] at ht
      exact ((keeps_forM (hfirst o ho h hrun)).bind fun _ => ih htargets hlink) t ht

/-- From `s` to `u` links were reported, all of them from this object. There are objects for all
symbols, and those of `s` are as they were. -/
structure LinksOnly (path : String) (caller : Option ObjectId) (s u : Scan) : Prop where
  stored : u.IsStored path
  enlarges : s.Enlarges u
  adds : Adds (Event.startsFrom caller) s u

theorem LinksOnly.refl (h : s.IsStored path) : LinksOnly path caller s s :=
  ⟨h, Enlarges.refl s, Adds.refl _ s⟩

/-- **The links of a statement** start from its caller. -/
theorem keeps_linkReferences_stored (howner : owner < s.program.symbols.length)
    (hcalls : CallsByWord n rs) :
    Keeps (Preserves (LinksOnly path caller s)) (linkReferences known owner caller n rs) := by
  have howner' : ∀ {t}, LinksOnly path caller s t → owner < t.program.symbols.length :=
    fun h => Nat.lt_of_lt_of_le howner h.enlarges.length_le
  refine keeps_linkReferences (fun r hr o ho => keeps_targetsOf (fun hexpects => ?_)
    fun _ {t} id h => ?_) fun r _ o _ _ _ _ _ _ ref _ => keeps_linkTarget fun {t _} mark h _ => ?_
  · -- a program that is not known is stored, and nothing is linked by that
    have hword := hcalls r hr hexpects o ho
    refine keeps_unknownProgram hword (fun h => ⟨h.stored, howner' h⟩) fun h hrun => ?_
    obtain ⟨hstored, henlarges, hadds, -⟩ := h.stored.unknownProgram (howner' h) hword hrun
    exact ⟨hstored, h.enlarges.trans henlarges,
      h.adds.trans (hadds.mono (isNoLink_startsFrom caller))⟩
  · obtain ⟨hstored, henlarges⟩ := h.stored.setResolved n.head.number r.role [⟨t.program.id, id⟩]
    exact ⟨hstored, h.enlarges.trans henlarges, h.adds⟩
  · exact ⟨h.stored.of_adds rfl (adds_push rfl t _), ⟨h.enlarges.cards, h.enlarges.objects⟩,
      h.adds.trans (adds_push (decide_eq_true rfl) t _)⟩

/-- The links of a statement start from a symbol that is there. -/
theorem keeps_linkStatement (stack : Enclosing)
    (hlinks : ∀ {s owner self}, P s → s.program.symbols[owner]? = some self →
      P ((linkReferences known owner self.stored n rs).runOn s).2) :
    Keeps (Preserves P) (linkStatement known stack n rs) := by
  refine (keeps_ofExcept _).bind fun idle => ?_
  cases idle with
  | true => exact keeps_pure _
  | false =>
    refine (keeps_ofExcept _).bind fun owner => ?_
    intro s h
    refine of_runOn_bind (P := P) (keeps_symbol (R := Preserves P) owner s h) fun self t hrun => ?_
    obtain ⟨hself, rfl⟩ := runs_symbol.mp hrun
    exact hlinks h hself

theorem keeps_linkVisit (stack : Enclosing) (hstatement : ∀ n, v = .entering n → ∀ rs,
      linked? n.head.kind.name = some rs → Keeps (Preserves P) (linkStatement known stack n rs)) :
    Keeps (Preserves P) (linkVisit known stack v) := by
  cases v with
  | leaving => exact keeps_pure _
  | entering n =>
    rw [linkVisit]
    split
    · refine (keeps_ofExcept _).bind fun outer => (keeps_ofExcept _).bind fun name => ?_
      exact Keeps.bind keeps_program fun p => keeps_pure _
    · cases hrs : linked? n.head.kind.name with
      | none => exact keeps_pure _
      | some rs => exact (hstatement n rfl rs hrs).bind fun _ => keeps_pure _

/-- **What the links of each statement keep, the walk keeps.** -/
theorem keeps_linkVisits {vs : List Visit}
    (hstatement : ∀ n, .entering n ∈ vs → ∀ rs, linked? n.head.kind.name = some rs →
      ∀ stack, Keeps (Preserves P) (linkStatement known stack n rs)) :
    ∀ stack, Keeps (Preserves P) (linkVisits known stack vs) := by
  induction vs with
  | nil => exact fun _ => keeps_pure _
  | cons v vs ih =>
    intro stack
    refine (keeps_linkVisit stack fun n hn rs hrs =>
      hstatement n (hn ▸ mem_cons_self) rs hrs stack).bind fun stack' => ?_
    exact ih (fun n hn => hstatement n (mem_cons_of_mem v hn)) stack'

theorem keeps_linkStatement_stored (stack : Enclosing) (hcalls : CallsByWord n rs) :
    Keeps (Preserves (IsStored path)) (linkStatement known stack n rs) :=
  keeps_linkStatement stack fun {s _ _} h hself =>
    (keeps_linkReferences_stored (List.getElem?_eq_some_iff.mp hself).1 hcalls s (.refl h)).stored

end Links

/-- The links that were reported start from the symbol that the walk is inside of, if there are
any. -/
def LinksFrom (stack : Enclosing) (s t : Scan) : Prop :=
  Adds isNoLink s t ∨ ∃ k, current stack = .ok k ∧
    Adds (Event.startsFrom (s.program.objectOf k)) s t

/-- A statement that is not idle is linked from the symbol that the walk is inside of. -/
theorem of_runs_linkStatement (hrun : Runs (linkStatement known stack n rs) s () u) :
    isIdle n rs = .ok true ∧ s = u ∨ ∃ k, current stack = .ok k ∧ k < s.program.symbols.length ∧
      Runs (linkReferences known k (s.program.objectOf k) n rs) s () u := by
  obtain ⟨idle, hidle, hrun⟩ := runs_ofExcept_bind.mp hrun
  cases idle with
  | true => exact .inl ⟨hidle, (runs_pure.mp hrun).2⟩
  | false =>
    obtain ⟨k, hcurrent, hrun⟩ := runs_ofExcept_bind.mp hrun
    obtain ⟨self, hself, hrun⟩ := runs_symbol_bind.mp hrun
    refine .inr ⟨k, hcurrent, (List.getElem?_eq_some_iff.mp hself).1, ?_⟩
    unfold Program.objectOf
    rw [hself]
    exact hrun

theorem IsStored.linkStatement (h : s.IsStored path) (hcalls : CallsByWord n rs)
    (hrun : Runs (linkStatement known stack n rs) s () u) :
    u.IsStored path ∧ s.Enlarges u ∧ LinksFrom stack s u := by
  rcases of_runs_linkStatement hrun with ⟨-, rfl⟩ | ⟨owner, hcurrent, howner, hrun⟩
  · exact ⟨h, Enlarges.refl s, .inl (Adds.refl _ s)⟩
  · obtain ⟨hstored, henlarges, hadds⟩ :=
      (keeps_linkReferences_stored howner hcalls).of_runs hrun (.refl h)
    exact ⟨hstored, henlarges, .inr ⟨owner, hcurrent, hadds⟩⟩

/-- On the way into a procedure its symbol is looked up, and nothing else happens. -/
theorem of_runs_enterProcedure (hn : n.head.kind.name = "Procedure")
    (hrun : Runs (linkVisit known stack (.entering n)) s stack' u) :
    s = u ∧ ∃ outer name, current stack = .ok outer ∧ declaredName n = .ok name ∧
      stack' = s.program.findOne outer name [.procedure] n.span.beginLine :: stack := by
  rw [linkVisit, if_pos hn] at hrun
  obtain ⟨outer, houter, hrun⟩ := runs_ofExcept_bind.mp hrun
  obtain ⟨name, hname, hrun⟩ := runs_ofExcept_bind.mp hrun
  have hrun := runs_program_bind.mp hrun
  obtain ⟨rfl, rfl⟩ := runs_pure.mp hrun
  exact ⟨rfl, outer, name, houter, hname, rfl⟩

/-- A visit links a statement, or nothing happens but that procedures are entered and left. -/
theorem of_runs_linkVisit (hrun : Runs (linkVisit known stack v) s stack' u) :
    s = u ∧ (v.node.head.kind.name ≠ "Procedure" → stack' = stack) ∨ ∃ n rs, v = .entering n ∧
      linked? n.head.kind.name = some rs ∧ stack' = stack ∧
        Runs (linkStatement known stack n rs) s () u := by
  cases v with
  | leaving =>
    obtain ⟨rfl, rfl⟩ := runs_pure.mp hrun
    exact .inl ⟨rfl, fun hother => if_neg hother⟩
  | entering n =>
    by_cases hprocedure : n.head.kind.name = "Procedure"
    · exact .inl ⟨(of_runs_enterProcedure hprocedure hrun).1, absurd hprocedure⟩
    · rw [linkVisit, if_neg hprocedure] at hrun
      cases hlinked : linked? n.head.kind.name with
      | none =>
        rw [hlinked] at hrun
        obtain ⟨rfl, rfl⟩ := runs_pure.mp hrun
        exact .inl ⟨rfl, fun _ => rfl⟩
      | some rs =>
        rw [hlinked] at hrun
        obtain ⟨_, hstatement, rfl⟩ := runs_bind_pure.mp hrun
        exact .inr ⟨n, rs, rfl, hlinked, rfl, hstatement⟩

/-- **One visit of a walk** leaves the symbols and their objects as they are, and reports links from
one symbol only. -/
theorem IsStored.linkVisit (h : s.IsStored path)
    (hcalls : ∀ n, v = .entering n → ∀ rs, linked? n.head.kind.name = some rs → CallsByWord n rs)
    (hrun : Runs (linkVisit known stack v) s stack' u) :
    u.IsStored path ∧ s.Enlarges u ∧ LinksFrom stack s u := by
  rcases of_runs_linkVisit hrun with ⟨rfl, -⟩ | ⟨n, rs, rfl, hlinked, -, hstatement⟩
  · exact ⟨h, Enlarges.refl s, .inl (Adds.refl _ s)⟩
  · exact h.linkStatement (hcalls n rfl rs hlinked) hstatement

end Scan

/-! ### From the source to the links -/

theorem Program.root?_eq_cards (p : Program) : p.root? = (p.cards[0]?).bind (·.tree.root?) := by
  unfold root?
  rw [getElem?_cards]
  cases p.symbols[0]? with
  | none | some => rfl

theorem Program.SameTable.root?_eq {p q : Program} (h : p.SameTable q) : q.root? = p.root? := by
  rw [root?_eq_cards, h.cards, ← root?_eq_cards]

namespace Scan

variable {s : Scan} {path : String}
variable {files : SourceFiles} {library : Option Library} {origin : Origin} {text : Option String}

theorem ofStatement?_of_linked? {kind : String} (h : linked? kind = some rs) :
    Reference.ofStatement? kind = some rs := by
  unfold linked? at h
  split at h
  · cases h
  · exact h

/-- The statements of a source call programs by words. -/
theorem callsByWord_of_isSource (hroot : root.IsSource) (hn : n ∈ allNodes [root.toElement])
    (hrs : linked? n.head.kind.name = some rs) : CallsByWord n rs := by
  rw [hroot.allNodes_eq] at hn
  rcases mem_cons.mp hn with rfl | hn
  · -- programs and macros have no links
    rw [hroot.of_names (P := fun name => linked? name = none) rfl rfl] at hrs
    cases hrs
  · obtain ⟨d, hd, rfl⟩ := mem_map.mp hn
    intro r hr hexpects o ho
    rcases hroot.of_mem_placed hd with hterm | ⟨-, hsection⟩
    · -- a word of a statement is one of its tokens, and these have lines
      obtain ⟨t, rfl, ht⟩ := hterm.words r.role o ho
      exact ⟨t, rfl, hroot.lines_of_mem_placed hd t (mem_leavesOfList_of_token ht)⟩
    · -- sections call nothing
      have hrules : ∀ rule ∈ sectionRules, ∀ rs ∈ (linked? rule.kind.name).toList, ∀ r ∈ rs,
        r.expects ≠ .program := by decide
      obtain ⟨rule, hrule, hkind⟩ := hsection.kind
      exact absurd hexpects (hrules rule hrule rs
        (by rw [← hkind, hrs]; exact mem_singleton_self rs) r hr)

/-- A walk goes through the tree of the program. -/
theorem runs_visits (hroot : s.program.root? = some root) :
    Runs visits s root.toElement.walk s := by
  unfold root? at hroot
  obtain ⟨self, hself, htree⟩ := Option.bind_eq_some_iff.mp hroot
  refine runs_symbol_bind.mpr ⟨self, hself, ?_⟩
  rw [htree]
  rfl

/-- **Linking** leaves all symbols of a source stored, wherever it stops. -/
theorem keeps_saveLinks (hroot : root.IsSource) (hs : s.program.root? = some root)
    (h : s.IsStored path) : ((saveLinks known).runOn s).2.IsStored path := by
  have hvisits := (runs_visits hs).runOn_bind fun vs => discard (linkVisits known [some 0] vs)
  have hcalls : ∀ n, .entering n ∈ root.toElement.walk → ∀ rs, linked? n.head.kind.name = some rs →
      CallsByWord n rs :=
    fun n hn rs hrs => callsByWord_of_isSource hroot (mem_allNodes_of_entering hn) hrs
  unfold saveLinks
  rw [hvisits]
  exact (keeps_linkVisits (fun n hn rs hrs stack =>
    keeps_linkStatement_stored stack (hcalls n hn rs hrs)) [some 0]).discard s h

section Bare

variable {i : ProgramId} {origin : Origin} {text : Option String}

theorem exists_self_of_isBare (h : s.program.IsBare i origin text) :
    ∃ self : Symbol, s.program.symbols = [self] ∧ self.kind = .program ∧
      self.tree.isEmpty = true := by
  obtain ⟨tree, hempty, hprogram⟩ := h
  rw [hprogram, withTree_unread]
  exact ⟨_, rfl, rfl, hempty⟩

/-- Of a program without a tree nothing is stored. -/
theorem runs_save_bare (h : s.program.IsBare i origin text) : Runs (save 0 none) s none s := by
  obtain ⟨self, hsymbols, hkind, hempty⟩ := exists_self_of_isBare h
  have hself : s.program.symbols[0]? = some self := by
    rw [hsymbols]
    rfl
  refine runs_program_bind.mpr ?_
  rw [hsymbols]
  refine runs_symbol_bind.mpr ⟨self, hself, runs_bind.mpr ⟨none, s, ?_, ?_⟩⟩
  · unfold saveTree
    rw [hempty]
    rfl
  · rw [hkind]
    rfl

/-- Neither does it have links. -/
theorem runs_saveLinks_bare (h : s.program.IsBare i origin text) :
    Runs (saveLinks known) s () s := by
  obtain ⟨self, hsymbols, -⟩ := exists_self_of_isBare h
  have hself : s.program.symbols[0]? = some self := by
    rw [hsymbols]
    rfl
  have hnone : self.tree.root? = none := by
    have hroot := h.root?_eq
    unfold root? at hroot
    rwa [hself, Option.bind_some] at hroot
  have hvisits : Runs visits s [] s := by
    refine runs_symbol_bind.mpr ⟨self, hself, ?_⟩
    rw [hnone]
    rfl
  exact runs_bind.mpr ⟨[], s, hvisits, runs_discard.mpr ⟨[some 0], runs_pure.mpr ⟨rfl, rfl⟩⟩⟩

end Bare

theorem Stores.isStored (h : s.Stores path [] (s.program.subtree s.program.symbols.length 0) t)
    (henrolled : s.program.Enrolled i (.file path) root root.declarations) (hroot : root.IsSource) :
    t.IsStored path := by
  refine ⟨_, h.holds, ?_⟩
  rw [h.table.length_eq]
  exact (henrolled.storable hroot).subtree_perm

variable
  (hrun : Runs (do readProgram files; resolve files library; discard (save 0 none))
    ⟨unread i origin text, #[]⟩ () s)

include hrun

/-- **A program that has been stored** is one of a source, with objects for all symbols and with
operands that stand for what was found, or it has no tree. -/
theorem exists_settled_of_runs_saved : (s.program.IsBare i origin text ∧ s.objects = []) ∨
      ∃ root path, ∃ p : Program, (unread i origin text).Reads files root ∧ root.IsSource ∧
        p.Enrolled i (.file path) root root.declarations ∧ p.SameTable s.program ∧ s.IsStored path ∧
        origin = .file path ∧ s.program.resolved = p.resolved ∧ ∀ n ∈ allNodes [root.toElement],
          ∀ rs, Reference.ofStatement? n.head.kind.name = some rs → p.Settles library n rs := by
  obtain ⟨_, s₁, hread, hrun⟩ := runs_bind.mp hrun
  obtain ⟨_, s₂, hresolve, hsave⟩ := runs_bind.mp hrun
  obtain ⟨object, hsave⟩ := runs_discard.mp hsave
  obtain ⟨hlogs, hhas, hsettles⟩ :=
    settles_of_runs_resolve (runs_bind.mpr ⟨(), s₁, hread, hresolve⟩)
  have hnone : s₂.objects = [] := hlogs.objects_eq
  rcases hhas with ⟨hbare, -⟩ | ⟨root, hreads, -, henrolled⟩
  · -- a program that could not be read is not stored
    obtain ⟨-, rfl⟩ := hsave.unique (runs_save_bare hbare)
    exact .inl ⟨hbare, hnone⟩
  · obtain ⟨source, hsource, htree⟩ := id hreads
    have hroot := isSource_of_treeOf htree
    obtain ⟨path, rfl, hstores⟩ := stores_of_runs_save henrolled hroot hnone hsave
    exact .inr ⟨root, path, s₂.program, hreads, hroot, henrolled, hstores.table,
      hstores.isStored henrolled hroot, rfl, hstores.resolved, hsettles root henrolled.root?_eq⟩

theorem of_runs_saved : (s.program.IsBare i origin text ∧ s.objects = []) ∨
      ∃ root path, ∃ p : Program, (unread i origin text).Reads files root ∧ root.IsSource ∧
        p.Enrolled i (.file path) root root.declarations ∧ p.SameTable s.program ∧
          s.IsStored path := by
  refine (exists_settled_of_runs_saved hrun).imp_right fun hsettled => ?_
  obtain ⟨root, path, p, hreads, hroot, henrolled, htable, hstored, -⟩ := hsettled
  exact ⟨root, path, p, hreads, hroot, henrolled, htable, hstored⟩

end Scan

end EztScan
