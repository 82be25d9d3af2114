import EztScan.Proofs.Scanning
import Mathlib.Data.List.Forall2

/-!
# The symbols of a program

What is written on the card of a symbol when it is declared, its kind, name, owner, line and tree
(`Symbol.card`), stays for good; what comes later are members, an object, and counts. So the table
of a program is the list of its cards, to which declarations add at the end (`cards_declare`).

The members of a symbol are kept by name. They are those symbols whose card names it as their owner,
in the order of their declarations (`Program.Indexed`), and this is what looking up a name gives
(`Indexed.find`).
-/

namespace EztScan

open List

instance SymbolKind.lawfulBEq : LawfulBEq SymbolKind where
  eq_of_beq {a b} h := by cases a <;> cases b <;> first | rfl | cases h
  rfl {a} := by cases a <;> rfl

/-! ### Cards -/

/-- What is known about a symbol when it is declared, and does not change. -/
def Symbol.card (s : Symbol) : Symbol :=
  { s with members := [], stored := none, guids := [], names := [], made := [] }

namespace Symbol

variable (s : Symbol)

@[simp] theorem card_kind : s.card.kind = s.kind := rfl

@[simp] theorem card_name : s.card.name = s.name := rfl

@[simp] theorem card_parent : s.card.parent = s.parent := rfl

@[simp] theorem card_tree : s.card.tree = s.tree := rfl

end Symbol

namespace Program

variable {p q : Program}
variable {f : Symbol → Symbol}

/-- The cards of all symbols. -/
def cards (p : Program) : List Symbol :=
  p.symbols.map Symbol.card

@[simp] theorem length_cards (p : Program) : p.cards.length = p.symbols.length :=
  length_map _

theorem getElem?_cards (p : Program) (i : Nat) : p.cards[i]? = (p.symbols[i]?).map Symbol.card :=
  getElem?_map

theorem cards_modifySymbol (hf : ∀ s, (f s).card = s.card) (i : Nat) :
    (p.modifySymbol i f).cards = p.cards := by
  apply ext_getElem?
  intro k
  rw [getElem?_cards, getElem?_cards, modifySymbol, getElem?_modify]
  cases p.symbols[k]? with
  | none => rfl
  | some =>
    by_cases hik : i = k
    · simp [hik, hf]
    · simp [hik]

/-- A declaration adds a card at the end. -/
theorem cards_declare (p : Program) (parent : Nat) (key : String) (s : Symbol) :
    (p.declare parent key s).1.cards = p.cards ++ [s.card] := by
  dsimp only [Program.declare]
  rw [cards_modifySymbol]
  · exact map_append
  · exact fun _ => rfl

theorem membersOf_modifySymbol (hf : ∀ s, (f s).members = s.members) (i k : Nat) :
    (p.modifySymbol i f).membersOf k = p.membersOf k := by
  unfold membersOf modifySymbol
  rw [getElem?_modify]
  cases p.symbols[k]? with
  | none => rfl
  | some =>
    by_cases hik : i = k
    · simp [hik, hf]
    · simp [hik]

/-- A declaration adds a member to one symbol only. -/
theorem membersOf_declare {parent : Nat} (hparent : parent < p.symbols.length) {s : Symbol}
    (hs : s.members = []) (key : String) (k : Nat) : (p.declare parent key s).1.membersOf k =
      if k = parent then (p.membersOf parent).insert (Text.upper key) p.symbols.length
        else p.membersOf k := by
  unfold membersOf
  dsimp only [Program.declare, modifySymbol]
  rw [getElem?_modify]
  by_cases hk : k = parent
  · subst hk
    rw [getElem?_append_left hparent, getElem?_eq_getElem hparent, if_pos rfl]
    simp
  · rw [if_neg hk]
    have hne : ¬ parent = k := fun h => hk h.symm
    by_cases hlt : k < p.symbols.length
    · rw [getElem?_append_left hlt, getElem?_eq_getElem hlt]
      simp [hne]
    · have hnone : p.symbols[k]? = none := getElem?_eq_none (Nat.le_of_not_lt hlt)
      rw [getElem?_append_right (Nat.le_of_not_lt hlt), hnone]
      -- the new symbol has no members, and behind it there is none
      cases hat : [s][k - p.symbols.length]? with
      | none => rfl
      | some =>
        rw [mem_singleton.mp (mem_of_getElem? hat)]
        simp [hne, hs]

end Program

/-! ### Members -/

open scoped List in
/-- All symbols are there after an insertion, and the new one. -/
theorem Members.all_insert (m : Members) (key : String) (id : Nat) :
    (m.insert key id).all.Perm (m.all ++ [id]) := by
  induction m with
  | nil => exact List.Perm.refl _
  | cons entry rest ih =>
    obtain ⟨k, ids⟩ := entry
    by_cases hk : k = key
    · have hall : (Members.insert ((k, ids) :: rest) key id).all =
          ids ++ [id] ++ Members.all rest := by
        simp [Members.insert, Members.all, hk]
      rw [hall, append_assoc]
      calc ids ++ ([id] ++ Members.all rest)
        _ ~ ids ++ (Members.all rest ++ [id]) := perm_append_comm.append_left ids
        _ = Members.all ((k, ids) :: rest) ++ [id] := by simp [Members.all]
    · have hall : (Members.insert ((k, ids) :: rest) key id).all =
          ids ++ (Members.insert rest key id).all := by
        simp [Members.insert, Members.all, hk]
      rw [hall]
      calc ids ++ (Members.insert rest key id).all
        _ ~ ids ++ (Members.all rest ++ [id]) := ih.append_left ids
        _ = Members.all ((k, ids) :: rest) ++ [id] := by simp [Members.all]

namespace Program

variable {p : Program}
variable {test : Symbol → Bool} {q : Program} {new : List Symbol}

/-- The numbers of the symbols whose cards pass a test, in the order of their declarations. -/
def numbersOf (p : Program) (test : Symbol → Bool) : List Nat :=
  (List.range p.cards.length).filter fun i => p.cards[i]?.any test

theorem mem_numbersOf {i : Nat} :
    i ∈ p.numbersOf test ↔ ∃ c, p.cards[i]? = some c ∧ test c = true := by
  unfold numbersOf
  rw [mem_filter, mem_range, Option.any_eq_true]
  constructor
  · exact And.right
  · rintro ⟨c, hc, htest⟩
    exact ⟨(List.getElem?_eq_some_iff.mp hc).1, c, hc, htest⟩

theorem nodup_numbersOf (p : Program) (test : Symbol → Bool) : (p.numbersOf test).Nodup :=
  nodup_range.filter _

/-- New symbols come behind the old ones. -/
theorem numbersOf_append (hcards : q.cards = p.cards ++ new) (test : Symbol → Bool) :
    q.numbersOf test =
      p.numbersOf test ++ ((List.range new.length).filter fun i => new[i]?.any test).map
        (p.cards.length + ·) := by
  unfold numbersOf
  rw [hcards, length_append, range_add, filter_append, filter_map]
  congr 1
  · -- for the symbols that were there, nothing has changed
    refine filter_congr fun i hi => ?_
    rw [getElem?_append_left (mem_range.mp hi)]
  · congr 1
    refine filter_congr fun i _ => ?_
    rw [Function.comp_apply, getElem?_append_right (Nat.le_add_right _ _),
      Nat.add_sub_cancel_left]

theorem numbersOf_eq_of_append (hcards : q.cards = p.cards ++ new)
    (hnew : ∀ c ∈ new, test c = false) : q.numbersOf test = p.numbersOf test := by
  have hnone : ((List.range new.length).filter fun i => new[i]?.any test) = [] := by
    refine filter_eq_nil_iff.mpr fun i _ hany => ?_
    obtain ⟨c, hc, htest⟩ := (Option.any_eq_true _ _).mp hany
    rw [hnew c (mem_of_getElem? hc)] at htest
    cases htest
  rw [numbersOf_append hcards, hnone, map_nil, append_nil]

theorem numbersOf_declare (p : Program) (parent : Nat) (key : String) (s : Symbol)
    (test : Symbol → Bool) :
    (p.declare parent key s).1.numbersOf test =
      p.numbersOf test ++ if test s.card then [p.symbols.length] else [] := by
  rw [numbersOf_append (p.cards_declare parent key s), length_cards]
  congr 1
  cases h : test s.card <;> simp [h]

theorem filter_numbersOf (p : Program) (test other : Symbol → Bool) :
    (p.numbersOf test).filter (fun i => p.cards[i]?.any other) =
      p.numbersOf fun c => test c && other c := by
  unfold numbersOf
  rw [filter_filter]
  refine filter_congr fun i _ => ?_
  cases p.cards[i]? with
  | none => rfl
  | some => exact Bool.and_comm _ _

theorem numbersOf_congr {other : Symbol → Bool}
    (h : ∀ (i : Nat) c, p.cards[i]? = some c → test c = other c) :
    p.numbersOf test = p.numbersOf other := by
  unfold numbersOf
  refine filter_congr fun i _ => ?_
  cases hc : p.cards[i]? with
  | none => rfl
  | some c => exact h i c hc

/-- The members of a symbol are those that name it as their owner, by their names and in the order
of their declarations. -/
structure Indexed (p : Program) : Prop where
  get : ∀ owner key, (p.membersOf owner).get key =
    p.numbersOf fun c => c.parent == some owner && Text.upper c.name == key
  all : ∀ owner, (p.membersOf owner).all.Perm (p.numbersOf fun c => c.parent == some owner)

/-- Changes of symbols that leave cards and members alone leave the index alone. -/
theorem Indexed.congr (h : p.Indexed) (hcards : q.cards = p.cards)
    (hmembers : ∀ i, q.membersOf i = p.membersOf i) : q.Indexed where
  get owner key := by
    unfold numbersOf
    rw [hmembers, hcards]
    exact h.get owner key
  all owner := by
    unfold numbersOf
    rw [hmembers, hcards]
    exact h.all owner

/-- A symbol that is all alone has no members. -/
theorem indexed_of_alone {self : Symbol} (hsymbols : p.symbols = [self]) (hself : self.members = [])
    (hparent : self.parent = none) : p.Indexed := by
  have hmembers : ∀ i, p.membersOf i = [] := by
    intro i
    unfold membersOf
    rw [hsymbols]
    cases i with
    | zero => exact hself
    | succ => rfl
  -- the only symbol has no owner
  have hnone : ∀ (owner : Nat) (key : Symbol → Bool),
      (p.numbersOf fun c => c.parent == some owner && key c) = [] := by
    intro owner key
    refine eq_nil_iff_forall_not_mem.mpr fun i hi => ?_
    obtain ⟨c, hc, htest⟩ := mem_numbersOf.mp hi
    have hmem := mem_of_getElem? hc
    rw [cards, hsymbols, map_singleton, mem_singleton] at hmem
    rw [hmem, Symbol.card_parent, hparent] at htest
    cases htest
  constructor
  · intro owner key
    rw [hmembers, hnone owner fun c => Text.upper c.name == key]
    rfl
  · intro owner
    have hall := hnone owner fun _ => true
    simp only [Bool.and_true] at hall
    rw [hmembers, hall]
    exact List.Perm.refl _

/-- A declaration under the name of the symbol keeps the index. -/
theorem Indexed.declare (h : p.Indexed) {parent : Nat} (hparent : parent < p.symbols.length)
    {s : Symbol} (hs : s.parent = some parent) (hmembers : s.members = []) :
    (p.declare parent s.name s).1.Indexed := by
  have howner : ∀ owner, (s.card.parent == some owner) = decide (owner = parent) := by
    intro owner
    rw [show s.card.parent = some parent from hs, Bool.eq_iff_iff, beq_iff_eq, decide_eq_true_iff,
      Option.some.injEq]
    exact eq_comm
  -- only the members of the new owner change, under the name of the symbol
  constructor
  · intro owner key
    rw [membersOf_declare hparent hmembers, numbersOf_declare, ← h.get owner key, howner]
    by_cases ho : owner = parent
    · subst ho
      rw [if_pos rfl, Members.get_insert, decide_eq_true rfl, Bool.true_and, Symbol.card_name]
      congr 1
      by_cases hkey : key = Text.upper s.name
      · rw [if_pos hkey, if_pos (beq_iff_eq.mpr hkey.symm)]
      · rw [if_neg hkey, if_neg fun hbeq => hkey (beq_iff_eq.mp hbeq).symm]
    · rw [if_neg ho, decide_eq_false ho, Bool.false_and, if_neg Bool.false_ne_true, append_nil]
  · intro owner
    rw [membersOf_declare hparent hmembers, numbersOf_declare, howner]
    by_cases ho : owner = parent
    · subst ho
      rw [if_pos rfl, decide_eq_true rfl, if_pos rfl]
      exact (Members.all_insert _ _ _).trans ((h.all owner).append_right _)
    · rw [if_neg ho, decide_eq_false ho, if_neg Bool.false_ne_true, append_nil]
      exact h.all owner

theorem filter_isOneOf (p : Program) (test : Symbol → Bool) (kind : SymbolKind) :
    (p.numbersOf test).filter (p.isOneOf [kind]) =
      p.numbersOf fun c => test c && c.kind == kind := by
  rw [← filter_numbersOf]
  refine filter_congr fun i _ => ?_
  unfold isOneOf
  rw [getElem?_cards]
  cases p.symbols[i]? with
  | none => rfl
  | some s =>
    change [kind].contains s.kind = (s.kind == kind)
    rw [contains_cons, contains_nil, Bool.or_false]

/-- **Looking up a name** gives the symbols of that name and kind, case put aside, in the order of
their declarations. -/
theorem Indexed.find (h : p.Indexed) {name : String} (hname : name ≠ "") (owner : Nat)
    (kind : SymbolKind) :
    p.find owner (some name) [kind] =
      p.numbersOf fun c => c.parent == some owner && Text.upper c.name == Text.upper name &&
        c.kind == kind := by
  unfold Program.find
  split
  · next hnone => cases hnone
  · next hempty => exact absurd (Option.some.inj hempty) hname
  · next found _ hsome =>
    obtain rfl := Option.some.inj hsome
    rw [if_neg (by simp), h.get]
    exact p.filter_isOneOf _ kind

end Program

end EztScan
