import EztScan.Proofs.Declaring

/-!
# The way up and the way down

The symbols of a program form a tree: each but the program itself is a member of one that was
declared before it. The way up from a symbol ends in the program, and what stands on it makes the
global name of the symbol (`Storable.guid_eq`). The way down goes through the members, in the order
in which they are stored (`Program.subtree`); it comes to each symbol once
(`Storable.subtree_perm`).

`Program.Storable` says what all of this rests on. It speaks of the cards of symbols only, and so is
kept by everything that happens to a program once it has been read.
-/

namespace EztScan

open Element EztScan.Language List

variable {root : Node} {fuel j k m : Nat} {s : Symbol}

/-! ### Symbols that can be stored -/

/-- What a symbol adds to global names. -/
def Symbol.part (s : Symbol) : String :=
  "." ++ s.kind.objectType.toOption.getD "" ++ "." ++ Text.upper s.name

namespace Program

/-- The program at this path, and its members. There are objects for all kinds of symbols, all have
trees whose lines are known, and queries have texts. -/
structure Storable (path : String) (p : Program) : Prop where
  indexed : p.Indexed
  own : ∃ c, p.cards[0]? = some c ∧ c.kind = .program ∧ c.parent = none ∧ c.origin = .file path
  member : ∀ (k : Nat) c, p.cards[k + 1]? = some c → c.kind ≠ .program ∧ ∃ j ≤ k, c.parent = some j
  typed : ∀ (k : Nat) c, p.cards[k]? = some c → c.kind ≠ .plain
  tree : ∀ (k : Nat) c, p.cards[k]? = some c → ∃ n, c.tree = .root n ∧ n.span.endLine.isSome = true
  query : ∀ (k : Nat) c, p.cards[k]? = some c → c.kind = .query →
    c.line.isSome = true ∧ ∃ n text, c.tree = .root n ∧ queryText n = .ok (some text)

/-- The symbol that the one with this number is a member of. -/
def ownerAt (p : Program) (k : Nat) : Option Nat :=
  (p.cards[k]?).bind (·.parent)

end Program

/-- The lines of all tokens are known, wherever they stand. -/
theorem Node.IsSource.lines_of_mem_placed (h : root.IsSource) {d : Option Node × Node}
    (hd : d ∈ root.placed) : ∀ t ∈ leavesOfList d.2.children, t.HasLines := by
  have hdown : ∀ {m n : Node}, m ∈ nodes n.children →
      leavesOfList m.children ⊆ leavesOfList n.children :=
    fun hm => leavesOfList_subset_of_mem (mem_nodes.mp hm)
  obtain ⟨n, hn, hd⟩ := mem_flatMap.mp hd
  rcases mem_cons.mp hd with rfl | hd
  · exact fun t ht => h.lines t (hdown hn ht)
  · obtain ⟨m, hm, rfl⟩ := mem_map.mp hd
    exact fun t ht => h.lines t (hdown hn (hdown hm ht))

/-- The lines of every declaration are known. -/
theorem Node.IsSource.hasLines_of_mem_placed (h : root.IsSource) {d : Option Node × Node}
    (hd : d ∈ root.placed) : d.2.toElement.HasLines := by
  rcases h.of_mem_placed hd with hterm | ⟨-, hsection⟩
  · exact hterm.hasLines (h.lines_of_mem_placed hd)
  · exact hsection.hasLines (h.lines_of_mem_placed hd)

theorem queryText_of_declaredName {n : Node} (hkind : n.head.kind.name = "SQL") {name : String}
    (h : declaredName n = .ok (some name)) : ∃ text, queryText n = .ok (some text) := by
  unfold declaredName at h
  rw [hkind] at h
  cases hq : queryText n with
  | error =>
    rw [hq] at h
    cases h
  | ok text =>
    cases text with
    | none =>
      rw [hq] at h
      cases h
    | some text => exact ⟨text, rfl⟩

theorem mem_of_declaredKind {n : Node} {kind : SymbolKind} (h : Scan.declaredKind n = some kind) :
    kind ∈ [SymbolKind.file, .procedure, .report, .query] := by
  unfold Scan.declaredKind at h
  repeat' split at h
  all_goals cases h
  all_goals decide

/-- What a source declares can be stored. -/
theorem Program.Enrolled.storable {p : Program} {i : ProgramId} {path : String}
    (h : p.Enrolled i (.file path) root root.declarations) (hroot : root.IsSource) :
    p.Storable path := by
  have hown : ∀ c, p.cards[0]? = some c → c = i.card (.file path) root := by
    intro c hc
    exact Option.some.inj (hc.symm.trans h.own)
  -- symbol 0 is the program, and each other one was entered for a declaration
  refine ⟨h.indexed, ⟨_, h.own, rfl, rfl, rfl⟩, fun k c hc => ?_, fun k c hc => ?_,
    fun k c hc => ?_, fun k c hc hquery => ?_⟩
  · obtain ⟨d, -, hentered⟩ := h.exists_entered hc
    obtain ⟨j, hj, hparent, -⟩ := hentered.parent
    exact ⟨Surroundings.declaredKind_ne_program hentered.kind, j, hj, hparent⟩
  · cases k with
    | zero =>
      rw [hown c hc]
      exact fun hplain => by cases hplain
    | succ =>
      obtain ⟨d, -, hentered⟩ := h.exists_entered hc
      have hmem := mem_of_declaredKind hentered.kind
      intro hplain
      rw [hplain] at hmem
      exact absurd hmem (by decide)
  · cases k with
    | zero =>
      rw [hown c hc]
      exact ⟨root, rfl, hroot.hasLines.2⟩
    | succ =>
      obtain ⟨d, hd, hentered⟩ := h.exists_entered hc
      exact ⟨d.2, hentered.tree, (hroot.hasLines_of_mem_placed (mem_placed_of_getElem? hd)).2⟩
  · cases k with
    | zero =>
      rw [hown c hc] at hquery
      cases hquery
    | succ =>
      obtain ⟨d, hd, hentered⟩ := h.exists_entered hc
      have hplaced := mem_placed_of_getElem? hd
      have hkind := hentered.kind
      rw [hquery] at hkind
      refine ⟨by rw [hentered.line]; exact (hroot.hasLines_of_mem_placed hplaced).1, ?_⟩
      rcases hroot.of_mem_placed hplaced with hterm | ⟨-, hsection⟩
      · have hdeclares : d.2.declares = true := by
          unfold Node.declares
          rw [hkind]
          rfl
        obtain ⟨text, htext⟩ :=
          queryText_of_declaredName (hterm.declaredKind_eq hdeclares).2 hentered.name
        exact ⟨d.2, text, hentered.tree, htext⟩
      · exact absurd hkind hsection.declaredKind_iff.2

/-! ### The way up -/

theorem mapM_eq_ok {α β : Type} {f : α → Except Fault β} {g : α → β} {as : List α}
    (h : ∀ a ∈ as, f a = .ok (g a)) : as.mapM f = .ok (as.map g) := by
  induction as with
  | nil => rfl
  | cons a as ih =>
    obtain ⟨ha, has⟩ := forall_mem_cons.mp h
    rw [mapM_cons, ha, ih has]
    rfl

namespace Program

variable {p q : Program} {path : String}

theorem getElem?_of_cards {c : Symbol} (hc : p.cards[k]? = some c) :
    ∃ s, p.symbols[k]? = some s ∧ s.card = c := by
  rw [getElem?_cards] at hc
  exact Option.map_eq_some_iff.mp hc

theorem cards_of_getElem? (hs : p.symbols[k]? = some s) : p.cards[k]? = some s.card := by
  rw [getElem?_cards, hs]
  rfl

theorem ownerAt_eq (hs : p.symbols[k]? = some s) : p.ownerAt k = s.parent := by
  unfold ownerAt
  rw [cards_of_getElem? hs]
  rfl

namespace Storable

variable (h : p.Storable path)

include h

theorem lineage_zero (hs : p.symbols[0]? = some s) : p.lineage 0 = [s] := by
  obtain ⟨c, hc, -, hparent, -⟩ := h.own
  obtain rfl : s.card = c := Option.some.inj ((cards_of_getElem? hs).symm.trans hc)
  rw [Symbol.card_parent] at hparent
  unfold lineage lineageWithin
  rw [hs]
  dsimp only
  rw [hparent]

theorem parent_lt (hs : p.symbols[k]? = some s) (hj : s.parent = some j) : j < k := by
  have hc := cards_of_getElem? hs
  cases k with
  | zero =>
    obtain ⟨c, hc', -, hparent, -⟩ := h.own
    rw [← Option.some.inj (hc.symm.trans hc'), Symbol.card_parent, hj] at hparent
    cases hparent
  | succ k =>
    obtain ⟨-, j', hj', hparent⟩ := h.member k _ hc
    rw [Symbol.card_parent, hj] at hparent
    rw [Option.some.inj hparent]
    exact Nat.lt_succ_of_le hj'

/-- With more steps than the number says, the way up is the same. -/
theorem lineageWithin_eq :
    ∀ (k : Nat) {fuel : Nat}, k < fuel → p.lineageWithin fuel k = p.lineage k := by
  intro k
  induction k using Nat.strong_induction_on with
  | _ k ih =>
    intro fuel hfuel
    obtain ⟨fuel, rfl⟩ : ∃ n, fuel = n + 1 := ⟨fuel - 1, by omega⟩
    unfold lineage lineageWithin
    cases hs : p.symbols[k]? with
    | none => rfl
    | some s =>
      dsimp only
      cases hj : s.parent with
      | none => rfl
      | some j =>
        have hlt := h.parent_lt hs hj
        dsimp only
        rw [ih j hlt (by omega), ih j hlt hlt]

theorem lineage_member (hs : p.symbols[k]? = some s) (hj : s.parent = some j) :
    p.lineage k = s :: p.lineage j := by
  rw [← h.lineageWithin_eq j (h.parent_lt hs hj)]
  unfold lineage
  rw [lineageWithin, hs]
  dsimp only
  rw [hj]

theorem cases (hs : p.symbols[k]? = some s) :
    (k = 0 ∧ s.kind = .program ∧ s.parent = none ∧ s.origin = .file path) ∨ ∃ j < k,
      s.parent = some j := by
  have hc := cards_of_getElem? hs
  cases k with
  | zero =>
    obtain ⟨c, hc', hcard⟩ := h.own
    rw [← Option.some.inj (hc.symm.trans hc')] at hcard
    exact .inl ⟨rfl, hcard⟩
  | succ k =>
    obtain ⟨-, j, hj, hparent⟩ := h.member k _ hc
    exact .inr ⟨j, Nat.lt_succ_of_le hj, hparent⟩

/-- The way up ends in the program. -/
theorem topOf_eq : ∀ (k : Nat) {s : Symbol}, p.symbols[k]? = some s →
    ∃ top, p.symbols[0]? = some top ∧ p.topOf k = .ok top := by
  intro k
  induction k using Nat.strong_induction_on with
  | _ k ih =>
    intro s hs
    rcases h.cases hs with ⟨rfl, -⟩ | ⟨j, hlt, hj⟩
    · refine ⟨s, hs, ?_⟩
      unfold topOf
      rw [h.lineage_zero hs]
      rfl
    · obtain ⟨t, ht⟩ : ∃ t, p.symbols[j]? = some t := by
        have hk := (List.getElem?_eq_some_iff.mp hs).1
        exact ⟨_, getElem?_eq_getElem (Nat.lt_trans hlt hk)⟩
      obtain ⟨top, htop, heq⟩ := ih j hlt ht
      refine ⟨top, htop, ?_⟩
      rw [← heq]
      unfold topOf
      have hne : p.lineage j ≠ [] := by
        unfold lineage lineageWithin
        rw [ht]
        exact cons_ne_nil _ _
      rw [h.lineage_member hs hj, getLast?_cons_of_ne_nil hne]

theorem fileOf_top {top : Symbol} (htop : p.symbols[0]? = some top) :
    p.fileOf top = .ok (some path) := by
  rcases h.cases htop with ⟨-, hkind, -, horigin⟩ | ⟨j, hlt, -⟩
  · simp [fileOf, hkind, horigin]
  · exact absurd hlt (Nat.not_lt_zero j)

/-- **The global name of a symbol**: the path of the source, and what the symbols on the way down
add to it. -/
theorem guid_eq (hs : p.symbols[k]? = some s) :
    p.guid k = .ok (path ++ String.join ((p.lineage k).reverse.map Symbol.part)) := by
  obtain ⟨top, htop, heq⟩ := h.topOf_eq k hs
  have hparts : (p.lineage k).reverse.mapM guidPart =
      .ok ((p.lineage k).reverse.map Symbol.part) := by
    refine mapM_eq_ok fun t ht => ?_
    obtain ⟨j, hj⟩ := mem_iff_getElem?.mp (mem_of_mem_lineageWithin (mem_reverse.mp ht))
    have hplain := h.typed j _ (cards_of_getElem? hj)
    rw [Symbol.card_kind] at hplain
    unfold guidPart Symbol.part
    cases hkind : t.kind with
    | plain => exact absurd hkind hplain
    | _ => rfl
  unfold guid
  rw [heq]
  simp only [bind, Except.bind, pure, Except.pure]
  rw [h.fileOf_top htop, hparts]

/-- A member adds its part to the global name of its owner. -/
theorem guid_member (hs : p.symbols[k]? = some s) (hj : s.parent = some j) {g : String}
    (hg : p.guid j = .ok g) : p.guid k = .ok (g ++ s.part) := by
  obtain ⟨t, ht⟩ : ∃ t, p.symbols[j]? = some t := by
    have hk := (List.getElem?_eq_some_iff.mp hs).1
    exact ⟨_, getElem?_eq_getElem (Nat.lt_trans (h.parent_lt hs hj) hk)⟩
  rw [h.guid_eq ht] at hg
  rw [h.guid_eq hs, h.lineage_member hs hj, reverse_cons, map_append, String.join_append,
    ← Except.ok.inj hg, String.append_assoc]
  simp

theorem guid_zero (hs : p.symbols[0]? = some s) : p.guid 0 = .ok (path ++ s.part) := by
  rw [h.guid_eq hs, h.lineage_zero hs]
  simp

/-- The global name of a symbol does not change when others are declared. -/
theorem guid_of_isPrefix (hq : q.Storable path) (hcards : p.cards <+: q.cards) :
    ∀ k < p.symbols.length, q.guid k = p.guid k := by
  intro k
  induction k using Nat.strong_induction_on with
  | _ k ih =>
    intro hk
    have hs : p.symbols[k]? = some p.symbols[k] := getElem?_eq_getElem hk
    obtain ⟨t, ht, heq⟩ := getElem?_of_cards (getElem?_of_isPrefix hcards (cards_of_getElem? hs))
    have hpart : t.part = p.symbols[k].part := by
      change t.card.part = p.symbols[k].card.part
      rw [heq]
    have hparent : t.parent = p.symbols[k].parent := by
      change t.card.parent = p.symbols[k].card.parent
      rw [heq]
    rcases h.cases hs with ⟨rfl, -⟩ | ⟨j, hlt, hj⟩
    · rw [h.guid_zero hs, hq.guid_zero ht, hpart]
    · have hsame := ih j hlt (Nat.lt_trans hlt hk)
      have hg := h.guid_eq (getElem?_eq_getElem (Nat.lt_trans hlt hk))
      rw [h.guid_member hs hj hg, hq.guid_member ht (hparent.trans hj) (hsame.trans hg), hpart]

end Storable

/-! ### The way down -/

/-- A symbol and those under it, at most `fuel` deep, each before its members. -/
def subtree (p : Program) : Nat → Nat → List Nat
  | 0, _ => []
  | fuel + 1, k => k :: (p.membersOf k).all.flatMap (p.subtree fuel)

/-- The symbol that is some steps up from another one. -/
def rise (p : Program) : Nat → Nat → Option Nat
  | 0, k => some k
  | d + 1, k => (p.rise d k).bind p.ownerAt

theorem Indexed.mem_all (h : p.Indexed) : m ∈ (p.membersOf k).all ↔ p.ownerAt m = some k := by
  rw [(h.all k).mem_iff, mem_numbersOf]
  unfold ownerAt
  cases p.cards[m]? with
  | none | some => simp

theorem rise_add (p : Program) (d e k : Nat) : p.rise (d + e) k = (p.rise d k).bind (p.rise e) := by
  induction e with
  | zero =>
    rw [Nat.add_zero]
    cases p.rise d k with
    | none | some => rfl
  | succ e ih =>
    rw [← Nat.add_assoc, rise, ih, Option.bind_assoc]
    rfl

/-- **What is under a symbol has it on its way up**, and the other way round. -/
theorem Indexed.mem_subtree (h : p.Indexed) :
    m ∈ p.subtree fuel k ↔ ∃ d < fuel, p.rise d m = some k := by
  induction fuel generalizing k with
  | zero => simp [subtree]
  | succ fuel ih =>
    rw [subtree, mem_cons, mem_flatMap]
    constructor
    · rintro (rfl | ⟨j, hj, hm⟩)
      · exact ⟨0, Nat.succ_pos _, rfl⟩
      · obtain ⟨d, hlt, hd⟩ := ih.mp hm
        refine ⟨d + 1, Nat.succ_lt_succ hlt, ?_⟩
        rw [rise, hd]
        exact h.mem_all.mp hj
    · rintro ⟨d, hlt, hd⟩
      cases d with
      | zero => exact .inl (Option.some.inj hd)
      | succ d =>
        obtain ⟨j, hj, howner⟩ := Option.bind_eq_some_iff.mp hd
        exact .inr ⟨j, h.mem_all.mpr howner, ih.mpr ⟨d, Nat.lt_of_succ_lt_succ hlt, hj⟩⟩

theorem rise_succ_of_ownerAt (h : p.ownerAt k = some j) (d : Nat) :
    p.rise (d + 1) k = p.rise d j := by
  rw [Nat.add_comm, rise_add, rise, rise, Option.bind_some, h, Option.bind_some]

theorem lt_of_ownerAt (h : p.ownerAt k = some j) : k < p.symbols.length := by
  obtain ⟨c, hc, -⟩ := Option.bind_eq_some_iff.mp h
  rw [← length_cards]
  exact (List.getElem?_eq_some_iff.mp hc).1

namespace Storable

variable (h : p.Storable path)

include h

theorem ownerAt_lt (hj : p.ownerAt k = some j) : j < k := by
  obtain ⟨c, hc, hparent⟩ := Option.bind_eq_some_iff.mp hj
  obtain ⟨s, hs, rfl⟩ := getElem?_of_cards hc
  exact h.parent_lt hs hparent

theorem rise_le {d : Nat} (hj : p.rise d k = some j) : j + d ≤ k := by
  induction d generalizing j with
  | zero => exact Nat.le_of_eq (Option.some.inj hj).symm
  | succ d ih =>
    obtain ⟨m, hm, hj⟩ := Option.bind_eq_some_iff.mp hj
    have := h.ownerAt_lt hj
    have := ih hm
    omega

/-- No symbol is under two members of another one. -/
theorem eq_of_mem_subtree {a b : Nat} (ha : p.ownerAt a = some k) (hb : p.ownerAt b = some k)
    (hma : m ∈ p.subtree fuel a) (hmb : m ∈ p.subtree fuel b) : a = b := by
  -- it is as many steps from it to the one member as to the other, and so both are the same
  have hle : ∀ {a b d e : Nat}, p.ownerAt a = some k → p.ownerAt b = some k →
      p.rise d m = some a → p.rise e m = some b → e ≤ d := by
    intro a b d e ha hb hd he
    by_contra hlt
    have hup : p.rise (d + 1) m = some k := by
      rw [rise, hd]
      exact ha
    have hup' : p.rise (e + 1) m = some k := by
      rw [rise, he]
      exact hb
    obtain ⟨n, rfl⟩ : ∃ n, e = d + 1 + n := ⟨e - d - 1, by omega⟩
    rw [Nat.add_assoc, rise_add, hup] at hup'
    have := h.rise_le hup'
    omega
  obtain ⟨d, -, hd⟩ := h.indexed.mem_subtree.mp hma
  obtain ⟨e, -, he⟩ := h.indexed.mem_subtree.mp hmb
  obtain rfl : d = e := Nat.le_antisymm (hle hb ha he hd) (hle ha hb hd he)
  exact Option.some.inj (hd.symm.trans he)

theorem nodup_members (k : Nat) : (p.membersOf k).all.Nodup :=
  (h.indexed.all k).nodup_iff.mpr (nodup_numbersOf p _)

theorem nodup_subtree (fuel k : Nat) : (p.subtree fuel k).Nodup := by
  induction fuel generalizing k with
  | zero => exact nodup_nil
  | succ fuel ih =>
    refine nodup_cons.mpr ⟨fun hk => ?_, nodup_flatMap.mpr ⟨fun j _ => ih j, ?_⟩⟩
    · -- what is under a member is not its owner
      obtain ⟨j, hj, hk⟩ := mem_flatMap.mp hk
      obtain ⟨d, -, hd⟩ := h.indexed.mem_subtree.mp hk
      have := h.rise_le hd
      have := h.ownerAt_lt (h.indexed.mem_all.mp hj)
      omega
    · refine (h.nodup_members k).imp_of_mem fun ha hb hne => ?_
      refine disjoint_left.mpr fun m hma hmb => ?_
      exact hne (h.eq_of_mem_subtree (h.indexed.mem_all.mp ha) (h.indexed.mem_all.mp hb) hma hmb)

/-- The way up from a symbol ends at the program, and is no longer than its number. -/
theorem exists_rise (k : Nat) (hk : k < p.symbols.length) : ∃ d ≤ k, p.rise d k = some 0 := by
  induction k using Nat.strong_induction_on with
  | _ k ih =>
    have hs : p.symbols[k]? = some p.symbols[k] := getElem?_eq_getElem hk
    rcases h.cases hs with ⟨rfl, -⟩ | ⟨j, hlt, hj⟩
    · exact ⟨0, Nat.le_refl 0, rfl⟩
    · obtain ⟨d, hle, hd⟩ := ih j hlt (Nat.lt_trans hlt hk)
      exact ⟨d + 1, by omega, (rise_succ_of_ownerAt ((ownerAt_eq hs).trans hj) d).trans hd⟩

/-- **The way down from the program** comes to every symbol once. -/
theorem subtree_perm : (p.subtree p.symbols.length 0).Perm (List.range p.symbols.length) := by
  refine (perm_ext_iff_of_nodup (h.nodup_subtree _ _) nodup_range).mpr fun k => ?_
  obtain ⟨c, hc, -⟩ := h.own
  have hpositive : 0 < p.symbols.length := by
    rw [← length_cards]
    exact (List.getElem?_eq_some_iff.mp hc).1
  rw [mem_range, h.indexed.mem_subtree]
  constructor
  · rintro ⟨d, -, hd⟩
    cases d with
    | zero => exact Option.some.inj hd ▸ hpositive
    | succ d =>
      rw [Nat.add_comm, rise_add] at hd
      obtain ⟨j, hj, -⟩ := Option.bind_eq_some_iff.mp hd
      exact lt_of_ownerAt hj
  · intro hk
    obtain ⟨d, hle, hd⟩ := h.exists_rise k hk
    exact ⟨d, Nat.lt_of_le_of_lt hle hk, hd⟩

end Storable

end Program

end EztScan
