import EztScan.Proofs.Linking

/-!
# Global names of objects

The global name of an object is the path of the source, followed by the kinds and names on the way
down to its symbol, and by a number if members of the same owner have the same global name. Members
of another owner are not looked at, and neither are names that end in a number of their own. So
global names can clash in two ways (`Program.Clashes`): two owners of one name may have members of
one kind and name, and the name of a symbol may be that of another one with a number behind it.
These are all ways (`guids_nodup_iff`).

* `nodup_guidsFrom_iff` says when the numbers keep names apart, whatever the names are.
* `addressText_injective` reads kinds and names off a global name: names are in capital letters, and
types are not.
-/

namespace EztScan

open Element EztScan.Language Work List

variable {j k n : Nat} {c : Char} {done : List Nat} {s : Symbol}

/-! ### Numbers behind names -/

section Splitting

variable {α : Type} {a : α}

/-- What stands in front of the first `a`, and what behind it. -/
theorem eq_of_append_cons {us vs : List α} :
    ∀ {xs ys : List α}, a ∉ xs → a ∉ ys → xs ++ a :: us = ys ++ a :: vs →
    xs = ys ∧ us = vs := by
  intro xs
  induction xs with
  | nil =>
    intro ys _ hys h
    cases ys with
    | nil => exact ⟨rfl, (List.cons.inj h).2⟩
    | cons => exact absurd (mem_cons.mpr (.inl (List.cons.inj h).1)) hys
  | cons x xs ih =>
    intro ys hxs hys h
    cases ys with
    | nil => exact absurd (mem_cons.mpr (.inl (List.cons.inj h).1.symm)) hxs
    | cons =>
      obtain ⟨rfl, hrest⟩ := List.cons.inj h
      obtain ⟨rfl, rfl⟩ := ih (fun hm => hxs (mem_cons_of_mem _ hm))
        (fun hm => hys (mem_cons_of_mem _ hm)) hrest
      exact ⟨rfl, rfl⟩

/-- What stands in front of the last `a`, and what behind it. -/
theorem eq_of_append_cons_last {xs ys us vs : List α} (hus : a ∉ us) (hvs : a ∉ vs)
    (h : xs ++ a :: us = ys ++ a :: vs) : xs = ys ∧ us = vs := by
  have hrev : us.reverse ++ a :: xs.reverse = vs.reverse ++ a :: ys.reverse := by
    have h := congrArg List.reverse h
    simpa using h
  obtain ⟨hu, hx⟩ := eq_of_append_cons (mem_reverse.not.mpr hus) (mem_reverse.not.mpr hvs) hrev
  exact ⟨reverse_injective hx, reverse_injective hu⟩

end Splitting

namespace Program

theorem toList_numbered (name : String) (n : Nat) :
    (numbered name (n + 1)).toList = name.toList ++ '_' :: (toString (n + 1)).toList := by
  rw [numbered, String.toList_append, String.toList_append, append_assoc]
  rfl

theorem isDigit_of_mem_toString (h : c ∈ (toString n).toList) : c.isDigit = true :=
  Nat.isDigit_of_mem_toDigits (by decide) (by decide) (Nat.toList_repr ▸ h)

theorem not_mem_toList_toString (n : Nat) : '_' ∉ (toString n).toList :=
  fun h => absurd (isDigit_of_mem_toString h) (by decide)

theorem toString_inj {m : Nat} (h : (toString m).toList = (toString n).toList) : m = n := by
  have hdigits : Nat.toDigits 10 m = Nat.toDigits 10 n := by
    rw [← Nat.toList_repr, ← Nat.toList_repr]
    exact h
  have hvalue := congrArg (fun ds => Nat.ofDigitChars 10 ds 0) hdigits
  simpa [Nat.ofDigitChars_toDigits] using hvalue

/-- A name with a number behind it gives the name and the number. -/
theorem numbered_succ_inj {x y : String} {m : Nat} (h : numbered x (m + 1) = numbered y (n + 1)) :
    x = y ∧ m = n := by
  have hlist := congrArg String.toList h
  rw [toList_numbered, toList_numbered] at hlist
  obtain ⟨hname, hnumber⟩ := eq_of_append_cons_last (not_mem_toList_toString _)
    (not_mem_toList_toString _) hlist
  exact ⟨String.toList_inj.mp hname, Nat.succ.inj (toString_inj hnumber)⟩

theorem numbered_succ_ne (x : String) (n : Nat) : numbered x (n + 1) ≠ x := by
  intro h
  have hlength := congrArg (fun s => s.toList.length) h
  simp only [toList_numbered, length_append, length_cons] at hlength
  omega

/-! ### Which numbers keep names apart -/

variable {p : Program}

/-- The name of each object depends on what comes before it, and on nothing else. -/
theorem getElem?_guidsFrom (p : Program) (ks : List Nat) : ∀ (done : List Nat) (i : Nat),
    (p.guidsFrom done ks)[i]? = (ks[i]?).map fun k => p.guidAfter (done ++ ks.take i) k := by
  induction ks with
  | nil => exact fun _ _ => rfl
  | cons k ks ih =>
    intro done i
    cases i with
    | zero =>
      rw [guidsFrom, take_zero, append_nil]
      rfl
    | succ =>
      rw [guidsFrom, getElem?_cons_succ, ih, getElem?_cons_succ, take_succ_cons,
        append_assoc]
      rfl

/-- If a test is passed more than `n` times, then there is an element that is the first one after
`n` of them. -/
theorem exists_countP_take {α : Type} {test : α → Bool} :
    ∀ {as : List α} {n : Nat}, n < as.countP test →
    ∃ i a, as[i]? = some a ∧ test a = true ∧ (as.take i).countP test = n := by
  intro as
  induction as with
  | nil => exact fun h => absurd h (Nat.not_lt_zero _)
  | cons a as ih =>
    intro n h
    by_cases ha : test a = true
    · rw [countP_cons_of_pos ha] at h
      cases n with
      | zero => exact ⟨0, a, rfl, ha, rfl⟩
      | succ =>
        obtain ⟨i, b, hb, htest, hcount⟩ := ih (Nat.lt_of_succ_lt_succ h)
        refine ⟨i + 1, b, hb, htest, ?_⟩
        rw [take_succ_cons, countP_cons_of_pos ha, hcount]
    · rw [countP_cons_of_neg ha] at h
      obtain ⟨i, b, hb, htest, hcount⟩ := ih h
      refine ⟨i + 1, b, hb, htest, ?_⟩
      rw [take_succ_cons, countP_cons_of_neg ha, hcount]

/-- The symbols in `done` that have the same owner and global name as another one are told apart by
numbers. All others have to have other names, and no name may be one that was made by a number. -/
def IsApart (p : Program) (done : List Nat) : Prop :=
  ∀ i ∈ done, ∀ j ∈ done, (p.globalName i = p.globalName j → p.ownerAt i = p.ownerAt j) ∧
    ∀ n, 0 < n → n < p.copies done (p.ownerAt j) (p.globalName j) →
      p.globalName i ≠ numbered (p.globalName j) n

/-- Every number below the count of symbols of an owner and a name is given to one of them. -/
theorem exists_guidAfter (hn : n < p.copies done (p.ownerAt j) (p.globalName j)) :
    ∃ i k, done[i]? = some k ∧ p.ownerAt k = p.ownerAt j ∧ p.globalName k = p.globalName j ∧
      p.guidAfter (done.take i) k = numbered (p.globalName j) n := by
  obtain ⟨i, k, hk, htest, hcount⟩ := exists_countP_take hn
  rw [Bool.and_eq_true, beq_iff_eq, beq_iff_eq] at htest
  refine ⟨i, k, hk, htest.1, htest.2, ?_⟩
  unfold guidAfter copies
  rw [htest.1, htest.2, hcount]

theorem copies_pos (hj : j ∈ done) : 0 < p.copies done (p.ownerAt j) (p.globalName j) := by
  refine countP_pos_iff.mpr ⟨j, hj, ?_⟩
  rw [beq_self_eq_true, beq_self_eq_true]
  rfl

/-- The number of a symbol is smaller than those that come later under the same owner and name. -/
theorem copies_take_lt {i : Nat} (hk : done[i]? = some k) (hij : i < j) {l : Nat}
    (howner : p.ownerAt k = p.ownerAt l) (hname : p.globalName k = p.globalName l) :
    p.copies (done.take i) (p.ownerAt l) (p.globalName l) <
      p.copies (done.take j) (p.ownerAt l) (p.globalName l) := by
  have htake : (done.take j).take (i + 1) = done.take i ++ [k] := by
    rw [take_take, Nat.min_eq_left hij, take_add_one, hk]
    rfl
  calc p.copies (done.take i) (p.ownerAt l) (p.globalName l)
    _ < p.copies (done.take i ++ [k]) (p.ownerAt l) (p.globalName l) := by
      rw [Scan.copies_append, if_pos ⟨howner, hname⟩]
      exact Nat.lt_succ_self _
    _ ≤ p.copies (done.take j) (p.ownerAt l) (p.globalName l) := by
      rw [← htake]
      exact (take_sublist _ _).countP_le

/-- **Global names are told apart** by their numbers exactly if nothing else takes them. -/
theorem nodup_guidsFrom_iff (p : Program) (done : List Nat) :
    (p.guidsFrom [] done).Nodup ↔ p.IsApart done := by
  have hat : ∀ {i k : Nat}, done[i]? = some k →
      (p.guidsFrom [] done)[i]? = some (p.guidAfter (done.take i) k) := by
    intro i k hk
    rw [getElem?_guidsFrom, hk]
    rfl
  constructor
  · -- two places with one global name are the same place
    intro hnodup i hi j hj
    have hsame : ∀ {a b k l : Nat}, done[a]? = some k → done[b]? = some l →
        p.guidAfter (done.take a) k = p.guidAfter (done.take b) l → k = l := by
      intro a b k l hk hl hguid
      have hlt := (List.getElem?_eq_some_iff.mp (hat hk)).1
      have hab : a = b := (getElem?_inj hlt hnodup).mp (by rw [hat hk, hat hl, hguid])
      rw [hab, hl] at hk
      exact (Option.some.inj hk).symm
    obtain ⟨a, k, hk, howner, hname, hguid⟩ := exists_guidAfter (copies_pos hi)
    refine ⟨fun heq => ?_, fun n hpositive hn heq => ?_⟩
    · -- each of two equal names is given once without a number, and so to one symbol
      obtain ⟨b, l, hl, howner', hname', hguid'⟩ := exists_guidAfter (copies_pos hj)
      have hkl := hsame hk hl (by rw [hguid, hguid', heq])
      rw [← howner, ← howner', hkl]
    · -- a name that looks numbered would be given to two symbols
      obtain ⟨b, l, hl, howner', hname', hguid'⟩ := exists_guidAfter hn
      have hkl := hsame hk hl (by rw [hguid, hguid', heq]; rfl)
      obtain ⟨n, rfl⟩ : ∃ m, n = m + 1 := ⟨n - 1, by omega⟩
      rw [← hname, hkl, hname'] at heq
      exact numbered_succ_ne _ _ heq.symm
  · intro hapart
    refine nodup_iff_getElem?_ne_getElem?.mpr fun i j hij hj heq => ?_
    obtain ⟨l, hl⟩ : ∃ l, done[j]? = some l := by
      have hsome := getElem?_eq_getElem hj
      rw [getElem?_guidsFrom] at hsome
      obtain ⟨l, hl, -⟩ := Option.map_eq_some_iff.mp hsome
      exact ⟨l, hl⟩
    have hlt := (List.getElem?_eq_some_iff.mp hl).1
    have hk : done[i]? = some done[i] := getElem?_eq_getElem (Nat.lt_trans hij hlt)
    generalize done[i] = k at hk
    rw [hat hk, hat hl, Option.some.injEq] at heq
    obtain ⟨hnames, hnumbers⟩ := hapart k (mem_of_getElem? hk) l (mem_of_getElem? hl)
    obtain ⟨-, hnumbers'⟩ := hapart l (mem_of_getElem? hl) k (mem_of_getElem? hk)
    -- numbers stay below the counts
    have hcount : ∀ {i k : Nat}, done[i]? = some k →
        p.copies (done.take i) (p.ownerAt k) (p.globalName k) <
          p.copies done (p.ownerAt k) (p.globalName k) := by
      intro i k hk
      have hlt := copies_take_lt (p := p) hk (List.getElem?_eq_some_iff.mp hk).1 rfl rfl
      rw [take_length] at hlt
      exact hlt
    -- under one owner and name, the later number is larger
    have hother : p.globalName k = p.globalName l →
        p.copies (done.take i) (p.ownerAt k) (p.globalName k) ≠
        p.copies (done.take j) (p.ownerAt l) (p.globalName l) := by
      intro hname
      have hlt := copies_take_lt hk hij (hnames hname) hname
      rw [hnames hname, hname]
      exact Nat.ne_of_lt hlt
    have hk' := hcount hk
    have hl' := hcount hl
    unfold guidAfter at heq
    generalize p.copies (done.take i) (p.ownerAt k) (p.globalName k) = a at heq hother hk'
    generalize p.copies (done.take j) (p.ownerAt l) (p.globalName l) = b at heq hother hl'
    -- with a number or without, on either side
    cases a with
    | zero =>
      cases b with
      | zero => exact hother heq rfl
      | succ b => exact hnumbers (b + 1) (Nat.succ_pos b) hl' heq
    | succ a =>
      cases b with
      | zero => exact hnumbers' (a + 1) (Nat.succ_pos a) hk' heq.symm
      | succ =>
        obtain ⟨hname, hab⟩ := numbered_succ_inj heq
        exact hother hname (by rw [hab])

end Program

/-! ### Capital letters -/

namespace Text

theorem code_of_isLower (h : c.isLower = true) : 97 ≤ c.toNat ∧ c.toNat ≤ 122 := by
  unfold Char.isLower at h
  rw [Bool.and_eq_true, decide_eq_true_iff, decide_eq_true_iff] at h
  exact h

theorem isLower_of_isDigit (h : c.isDigit = true) : c.isLower = false := by
  by_contra hsmall
  have hcode := code_of_isLower (Bool.not_eq_false _ ▸ hsmall)
  unfold Char.isDigit at h
  rw [Bool.and_eq_true, decide_eq_true_iff, decide_eq_true_iff] at h
  have hupper : c.toNat ≤ 57 := h.2
  omega

theorem toUpper_ne_small : ∀ n ∈ List.range 128, (Char.ofNat n).toUpper.isLower = false := by
  decide +kernel

/-- No character has small letters in its capital form. This is computed for those that are letters
by themselves, and read off a table for the others. -/
theorem isLower_of_mem_upperChar {d : Char} (h : d ∈ upperChar c) : d.isLower = false := by
  by_cases hascii : c.toNat < 128
  · have hcode := toUpper_ne_small c.toNat (mem_range.mpr hascii)
    rw [Char.ofNat_toNat] at hcode
    unfold upperChar at h
    rw [if_pos hascii] at h
    rwa [mem_singleton.mp h]
  · by_contra hsmall
    have hcode := code_of_isLower (Bool.not_eq_false _ ▸ hsmall)
    have hcapital := code_of_mem_upperChar (Nat.not_lt.mp hascii) h
    simp only [isCapitalCode, Bool.or_eq_true, Bool.and_eq_true, beq_iff_eq,
      decide_eq_true_eq] at hcapital
    omega

/-- There are no small letters in a capital form. -/
theorem isLower_of_mem_upper {s : String} (h : c ∈ (upper s).toList) : c.isLower = false := by
  unfold upper at h
  rw [String.toList_ofList] at h
  obtain ⟨d, -, hc⟩ := mem_flatMap.mp h
  exact isLower_of_mem_upperChar hc

end Text

/-! ### Kinds and names in global names -/

/-- The kind of a symbol and its name, case put aside. -/
def Symbol.tag (s : Symbol) : SymbolKind × String :=
  (s.kind, Text.upper s.name)

/-- The type of the objects of a kind, as it is written. -/
def SymbolKind.typeText (kind : SymbolKind) : List Char :=
  (kind.objectType.toOption.getD "").toList

/-- What is written in a global name for a kind and a name. -/
def tagText (t : SymbolKind × String) : List Char :=
  '.' :: (t.1.typeText ++ '.' :: t.2.toList)

theorem toList_part (s : Symbol) : s.part.toList = tagText s.tag := by
  unfold Symbol.part
  rw [String.toList_append, String.toList_append, String.toList_append, append_assoc]
  rfl

/-- A kind that has objects, and a name without small letters. -/
def IsCapital (t : SymbolKind × String) : Prop :=
  t.1 ≠ .plain ∧ ∀ c ∈ t.2.toList, c.isLower = false

namespace SymbolKind

theorem not_mem_typeText : ∀ kind : SymbolKind, '.' ∉ kind.typeText := by
  intro kind
  cases kind <;> decide

/-- Types begin with a capital letter and a small one. -/
theorem typeText_eq_cons {kind : SymbolKind} (h : kind ≠ .plain) :
    ∃ c rest, kind.typeText = 'E' :: c :: rest ∧ c.isLower = true := by
  cases kind with
  | plain => exact absurd rfl h
  | program => exact ⟨'z', _, rfl, rfl⟩
  | _ => exact ⟨'a', _, rfl, rfl⟩

theorem typeText_injective : ∀ {a b : SymbolKind}, a.typeText = b.typeText → a = b := by
  intro a b
  cases a <;> cases b <;> decide

end SymbolKind

/-- What is written for kinds and names is empty, or begins with a type. -/
theorem flatMap_tagText_cases {ts : List (SymbolKind × String)} (hts : ∀ t ∈ ts, IsCapital t) :
    ts.flatMap tagText = [] ∨ ∃ c rest, ts.flatMap tagText = '.' :: 'E' :: c :: rest ∧
      c.isLower = true := by
  cases ts with
  | nil => exact .inl rfl
  | cons t ts =>
    obtain ⟨c, rest, htype, hc⟩ := SymbolKind.typeText_eq_cons (hts t mem_cons_self).1
    refine .inr ⟨c, rest ++ '.' :: t.2.toList ++ ts.flatMap tagText, ?_, hc⟩
    rw [flatMap_cons, tagText, htype]
    simp

/-- A name ends where a small letter comes next but one. -/
theorem eq_of_append_flatMap {us vs : List Char} (hus : ∀ c ∈ us, c.isLower = false)
    (hvs : ∀ c ∈ vs, c.isLower = false) {xs ys : List (SymbolKind × String)}
    (hxs : ∀ t ∈ xs, IsCapital t) (hys : ∀ t ∈ ys, IsCapital t)
    (h : us ++ xs.flatMap tagText = vs ++ ys.flatMap tagText) :
    us = vs ∧ xs.flatMap tagText = ys.flatMap tagText := by
  -- all in front of the small letter
  have htake : ∀ {ws rest : List Char} {c : Char}, (∀ d ∈ ws, d.isLower = false) →
      c.isLower = true →
      (ws ++ '.' :: 'E' :: c :: rest).takeWhile (fun d => !d.isLower) = ws ++ ['.', 'E'] := by
    intro ws rest c hws hc
    rw [takeWhile_append_of_pos fun d hd => by rw [hws d hd]; rfl]
    simp [hc]
  have hall : ∀ {ws : List Char}, (∀ d ∈ ws, d.isLower = false) → ∀ c ∈ ws, c.isLower = true →
      False :=
    fun hws c hc hsmall => Bool.false_ne_true ((hws c hc).symm.trans hsmall)
  rcases flatMap_tagText_cases hxs with hx | ⟨c, rest, hx, hc⟩
  · rcases flatMap_tagText_cases hys with hy | ⟨d, rest', hy, hd⟩
    · rw [hx, hy, append_nil, append_nil] at h
      exact ⟨h, hx.trans hy.symm⟩
    · rw [hx, hy, append_nil] at h
      exact (hall hus d (by rw [h]; simp) hd).elim
  · rcases flatMap_tagText_cases hys with hy | ⟨d, rest', hy, hd⟩
    · rw [hx, hy, append_nil] at h
      exact (hall hvs c (by rw [← h]; simp) hc).elim
    · -- both texts go on with a type, whose second letter is the first small one
      have hfront := congrArg (List.takeWhile fun d => !d.isLower) h
      rw [hx, hy, htake hus hc, htake hvs hd] at hfront
      have heq := append_cancel_right hfront
      rw [heq] at h
      exact ⟨heq, append_cancel_left h⟩

/-- **Kinds and names can be read off** what is written for them. -/
theorem addressText_injective :
    ∀ {xs ys : List (SymbolKind × String)}, (∀ t ∈ xs, IsCapital t) → (∀ t ∈ ys, IsCapital t) →
    xs.flatMap tagText = ys.flatMap tagText → xs = ys := by
  intro xs
  induction xs with
  | nil =>
    intro ys _ _ h
    cases ys with
    | nil => rfl
    | cons => cases h
  | cons x xs ih =>
    intro ys hxs hys h
    cases ys with
    | nil => cases h
    | cons y =>
      obtain ⟨hx, hxs⟩ := forall_mem_cons.mp hxs
      obtain ⟨hy, hys⟩ := forall_mem_cons.mp hys
      rw [flatMap_cons, flatMap_cons, tagText, tagText, cons_append, cons_append, append_assoc,
        append_assoc, cons_append, cons_append] at h
      -- the type ends at the first dot, and the name before the next type
      obtain ⟨htype, hrest⟩ :=
        eq_of_append_cons x.1.not_mem_typeText y.1.not_mem_typeText (List.cons.inj h).2
      obtain ⟨hname, hrest⟩ := eq_of_append_flatMap hx.2 hy.2 hxs hys hrest
      rw [ih hxs hys hrest]
      congr 1
      exact Prod.ext (SymbolKind.typeText_injective htype) (String.toList_inj.mp hname)

/-! ### Clashes -/

namespace Program

variable {p : Program} {path : String}

/-- The kinds of the symbols above one and their names, case put aside, the nearest first. -/
def above (p : Program) (k : Nat) : List (SymbolKind × String) :=
  (p.lineage k).tail.map Symbol.tag

/-- How many symbols have the owner, the kind and the name of a symbol, case put aside. -/
def twins (p : Program) (s : Symbol) : Nat :=
  (p.numbersOf fun c => c.parent == s.parent && decide (c.tag = s.tag)).length

/-- Two symbols of one kind, under symbols that look the same, have one name but two owners, or the
name of one of them is that of the other one with a number behind it, which is given to one of those
with this name. -/
def Clashes (p : Program) : Prop :=
  ∃ (i j : Nat) (a b : Symbol), p.symbols[i]? = some a ∧ p.symbols[j]? = some b ∧ a.kind = b.kind ∧
    p.above i = p.above j ∧
    (a.parent ≠ b.parent ∧ Text.upper a.name = Text.upper b.name ∨
      ∃ n, 0 < n ∧ n < p.twins b ∧ Text.upper a.name = numbered (Text.upper b.name) n)

theorem isCapital_tag (hs : s.kind ≠ .plain) : IsCapital s.tag :=
  ⟨hs, fun _ hc => Text.isLower_of_mem_upper hc⟩

theorem isLower_of_mem_numbered {name : String} (hname : ∀ c ∈ name.toList, c.isLower = false)
    (n : Nat) : ∀ c ∈ (numbered name n).toList, c.isLower = false := by
  cases n with
  | zero => exact hname
  | succ =>
    rw [toList_numbered]
    exact forall_mem_append.mpr ⟨hname, forall_mem_cons.mpr
      ⟨rfl, fun _ hc => Text.isLower_of_isDigit (isDigit_of_mem_toString hc)⟩⟩

namespace Storable

variable (h : p.Storable path)

include h

theorem lineage_eq (hs : p.symbols[k]? = some s) :
    p.lineage k = s :: ((s.parent.map p.lineage).getD []) := by
  rcases h.cases hs with ⟨rfl, -, hparent, -⟩ | ⟨j, -, hj⟩
  · rw [h.lineage_zero hs, hparent]
    rfl
  · rw [h.lineage_member hs hj, hj]
    rfl

theorem above_eq (hs : p.symbols[k]? = some s) :
    p.above k = ((s.parent.map p.lineage).getD []).map Symbol.tag := by
  unfold above
  rw [h.lineage_eq hs, tail_cons]

/-- A global name is the path, and then kinds and names from the top down. -/
theorem toList_globalName (hs : p.symbols[k]? = some s) :
    (p.globalName k).toList = path.toList ++ ((p.above k).reverse ++ [s.tag]).flatMap tagText := by
  have hparts : ∀ ss : List Symbol, (ss.map Symbol.part).flatMap String.toList =
      (ss.map Symbol.tag).flatMap tagText := by
    intro ss
    rw [flatMap_map, flatMap_map]
    exact flatMap_congr fun s _ => toList_part s
  unfold globalName
  rw [h.guid_eq hs]
  change (path ++ String.join _).toList = _
  rw [String.toList_append, String.toList_join, hparts, h.above_eq hs, h.lineage_eq hs,
    reverse_cons, map_append, map_reverse]
  rfl

theorem isCapital_above (k : Nat) : ∀ t ∈ p.above k, IsCapital t := by
  intro t ht
  obtain ⟨s, hs, rfl⟩ := mem_map.mp ht
  obtain ⟨j, hj⟩ := mem_iff_getElem?.mp (mem_of_mem_lineageWithin (mem_of_mem_tail hs))
  exact isCapital_tag (h.typed j s.card (cards_of_getElem? hj))

/-- A number behind a global name is one behind the last name in it. -/
theorem toList_numbered_globalName (hs : p.symbols[k]? = some s) (n : Nat) :
    (numbered (p.globalName k) n).toList =
      path.toList ++ ((p.above k).reverse ++ [(s.kind, numbered (Text.upper s.name) n)]).flatMap
        tagText := by
  cases n with
  | zero => exact h.toList_globalName hs
  | succ =>
    rw [toList_numbered, h.toList_globalName hs, flatMap_append, flatMap_append, flatMap_singleton,
      flatMap_singleton, tagText, tagText, toList_numbered]
    simp [Symbol.tag]

/-- **Equal global names** are those of symbols of one kind and name, under symbols that look the
same. -/
theorem globalName_eq_iff {i : Nat} {a b : Symbol} (ha : p.symbols[i]? = some a)
    (hb : p.symbols[j]? = some b) (n : Nat) : p.globalName i = numbered (p.globalName j) n ↔
      a.kind = b.kind ∧ Text.upper a.name = numbered (Text.upper b.name) n ∧
        p.above i = p.above j := by
  rw [← String.toList_inj, h.toList_globalName ha, h.toList_numbered_globalName hb,
    append_cancel_left_eq]
  constructor
  · intro htext
    have hcapital : ∀ (k : Nat) t, IsCapital t → ∀ t' ∈ (p.above k).reverse ++ [t],
        IsCapital t' :=
      fun k t ht => forall_mem_append.mpr
        ⟨fun t' h' => h.isCapital_above k t' (mem_reverse.mp h'), forall_mem_singleton.mpr ht⟩
    have hlast : IsCapital (b.kind, numbered (Text.upper b.name) n) :=
      ⟨h.typed j b.card (cards_of_getElem? hb),
        isLower_of_mem_numbered (fun _ hc => Text.isLower_of_mem_upper hc) n⟩
    -- behind the path, both names can be read
    have heq := addressText_injective
      (hcapital i _ (isCapital_tag (h.typed i a.card (cards_of_getElem? ha)))) (hcapital j _ hlast)
      htext
    obtain ⟨habove, hlast⟩ := append_inj' heq rfl
    obtain ⟨hkind, hname⟩ := Prod.mk.inj (List.cons.inj hlast).1
    exact ⟨hkind, hname, reverse_injective habove⟩
  · rintro ⟨hkind, hname, habove⟩
    unfold Symbol.tag
    rw [hkind, hname, habove]

/-- The symbols of one owner with one global name are those with its owner, kind and name. -/
theorem copies_eq_twins (hperm : done.Perm (List.range p.symbols.length)) {b : Symbol}
    (hb : p.symbols[j]? = some b) : p.copies done (p.ownerAt j) (p.globalName j) = p.twins b := by
  unfold copies twins numbersOf
  rw [hperm.countP_eq, ← countP_eq_length_filter, length_cards]
  refine countP_congr fun k hk => ?_
  obtain ⟨c, hc⟩ : ∃ c, p.symbols[k]? = some c := ⟨_, getElem?_eq_getElem (mem_range.mp hk)⟩
  rw [cards_of_getElem? hc, Option.any_some, ownerAt_eq hc, ownerAt_eq hb, Symbol.card_parent,
    Bool.and_eq_true, Bool.and_eq_true, beq_iff_eq, beq_iff_eq, decide_eq_true_iff]
  refine and_congr_right fun hparent => ?_
  -- members of one owner have the same symbols above them
  have habove : p.above k = p.above j := by rw [h.above_eq hc, h.above_eq hb, hparent]
  calc p.globalName k = p.globalName j
    _ ↔ c.kind = b.kind ∧ Text.upper c.name = Text.upper b.name ∧ p.above k = p.above j :=
      h.globalName_eq_iff hc hb 0
    _ ↔ c.card.tag = b.tag := by
      rw [Symbol.tag, Symbol.tag, Prod.mk.injEq]
      simp [habove]

/-- The global names of all symbols are told apart exactly if there is no clash. -/
theorem isApart_iff (hperm : done.Perm (List.range p.symbols.length)) :
    p.IsApart done ↔ ¬ p.Clashes := by
  have hdone : ∀ {k : Nat} {c : Symbol}, p.symbols[k]? = some c → k ∈ done := by
    intro k c hc
    exact hperm.mem_iff.mpr (mem_range.mpr (List.getElem?_eq_some_iff.mp hc).1)
  constructor
  · -- each of the two ways to clash is one in which names are not apart
    rintro hapart ⟨i, j, a, b, ha, hb, hkind, habove, hclash⟩
    obtain ⟨hnames, hnumbers⟩ := hapart i (hdone ha) j (hdone hb)
    rcases hclash with ⟨hparents, hname⟩ | ⟨n, hpositive, hn, hname⟩
    · refine hparents ?_
      rw [← ownerAt_eq ha, ← ownerAt_eq hb]
      exact hnames ((h.globalName_eq_iff ha hb 0).mpr ⟨hkind, hname, habove⟩)
    · rw [← h.copies_eq_twins hperm hb] at hn
      exact hnumbers n hpositive hn ((h.globalName_eq_iff ha hb n).mpr ⟨hkind, hname, habove⟩)
  · intro hclear i hi j hj
    have hsymbol : ∀ {k : Nat}, k ∈ done → ∃ c, p.symbols[k]? = some c := by
      intro k hk
      exact ⟨_, getElem?_eq_getElem (mem_range.mp (hperm.mem_iff.mp hk))⟩
    obtain ⟨a, ha⟩ := hsymbol hi
    obtain ⟨b, hb⟩ := hsymbol hj
    refine ⟨fun hguid => ?_, fun n hpositive hn hguid => ?_⟩
    · obtain ⟨hkind, hname, habove⟩ := (h.globalName_eq_iff ha hb 0).mp hguid
      rw [ownerAt_eq ha, ownerAt_eq hb]
      by_contra hparents
      exact hclear ⟨i, j, a, b, ha, hb, hkind, habove, .inl ⟨hparents, hname⟩⟩
    · obtain ⟨hkind, hname, habove⟩ := (h.globalName_eq_iff ha hb n).mp hguid
      rw [h.copies_eq_twins hperm hb] at hn
      exact hclear ⟨i, j, a, b, ha, hb, hkind, habove, .inr ⟨n, hpositive, hn, hname⟩⟩

end Storable

/-- A symbol alone clashes with nothing. -/
theorem not_clashes_of_length_le {p : Program} (h : p.symbols.length ≤ 1) : ¬ p.Clashes := by
  rintro ⟨i, j, a, b, ha, hb, -, -, hclash⟩
  have hi := (List.getElem?_eq_some_iff.mp ha).1
  have hj := (List.getElem?_eq_some_iff.mp hb).1
  obtain rfl : i = j := by omega
  obtain rfl := Option.some.inj (ha.symm.trans hb)
  rcases hclash with ⟨hparents, -⟩ | ⟨n, hpositive, hn, -⟩
  · exact hparents rfl
  · have htwins : p.twins a ≤ p.symbols.length := by
      unfold twins numbersOf
      refine (length_filter_le _ _).trans ?_
      rw [length_range, length_cards]
    omega

end Program

namespace Scan

/-- Of a program whose symbols are all stored, the global names are told apart exactly if there is
no clash. -/
theorem IsStored.nodup_iff {path : String} {s : Scan} (h : s.IsStored path) :
    (s.objects.map (·.guid)).Nodup ↔ ¬ s.program.Clashes := by
  obtain ⟨done, hholds, hperm⟩ := h
  rw [hholds.guids, Program.nodup_guidsFrom_iff]
  exact hholds.storable.isApart_iff hperm

/-- **Global names of objects.** If a program has been read, resolved, stored and linked, then the
global names of its objects are pairwise distinct exactly if no two of its symbols clash. -/
theorem guids_nodup_iff {files : SourceFiles} {library : Option Library} {i : ProgramId}
    {origin : Origin} {text : Option String} {known : Objects} {s : Scan}
    (hrun : Runs
      (do readProgram files; resolve files library; discard (save 0 none); saveLinks known)
      ⟨Program.unread i origin text, #[]⟩ () s) :
    (s.objects.map (·.guid)).Nodup ↔ ¬ s.program.Clashes := by
  obtain ⟨_, s₁, hread, hrun⟩ := runs_bind.mp hrun
  obtain ⟨_, s₂, hresolve, hrun⟩ := runs_bind.mp hrun
  obtain ⟨_, s₃, hsave, hlink⟩ := runs_bind.mp hrun
  have hsaved : Runs (do readProgram files; resolve files library; discard (save 0 none))
      ⟨Program.unread i origin text, #[]⟩ () s₃ :=
    runs_bind.mpr ⟨(), s₁, hread, runs_bind.mpr ⟨(), s₂, hresolve, hsave⟩⟩
  rcases of_runs_saved hsaved with
    ⟨hbare, hnone⟩ | ⟨root, path, p, -, hroot, henrolled, htable, hstored⟩
  · -- there is nothing to walk through, and a single symbol
    obtain ⟨-, rfl⟩ := hlink.unique (runs_saveLinks_bare hbare)
    obtain ⟨tree, -, hprogram⟩ := hbare
    rw [hnone, hprogram, Program.withTree_unread]
    exact iff_of_true nodup_nil (Program.not_clashes_of_length_le (Nat.le_refl 1))
  · have hlinked : ((saveLinks known).runOn s₃).2.IsStored path :=
      keeps_saveLinks hroot (htable.root?_eq.trans henrolled.root?_eq) hstored
    rw [hlink] at hlinked
    exact hlinked.nodup_iff

/-- Two procedures and two queries of one name, and a procedure whose name ends in the number of a
third one. -/
def numberedNames : Scan :=
  ⟨Program.unread ⟨"A.ezt", 0⟩ (.file "A.ezt")
    (some "PARM\nX PROC\nSQL SELECT A\nSQL SELECT A\nx PROC\nSQL SELECT B\nX_2 PROC\nCALL B\n"),
      #[]⟩

theorem guids_nodup_iff_numberedNames :
    ∃ s, Runs
      (do readProgram []; resolve [] (some {}); discard (save 0 none); saveLinks fun _ => none)
      numberedNames () s ∧
      s.objects.length = 8 ∧ ¬ s.program.Clashes ∧ (s.objects.map (·.guid)).Nodup := by
  have hrun : Runs
      (do readProgram []; resolve [] (some {}); discard (save 0 none); saveLinks fun _ => none)
      numberedNames () _ :=
    runs_of_isOk (by decide +kernel)
  refine ⟨_, hrun, by decide +kernel, (guids_nodup_iff hrun).mp ?_, ?_⟩
  · decide +kernel
  · decide +kernel

/-- Two procedures of one name with the same query. -/
def queriedTwice : Scan :=
  ⟨Program.unread ⟨"A.ezt", 0⟩ (.file "A.ezt")
    (some "PARM\nX PROC\nSQL SELECT 1\nEND-PROC\nX PROC\nSQL SELECT 1\nEND-PROC\n"), #[]⟩

/-- The two queries have one global name, though their procedures have two. -/
theorem not_guids_nodup_of_queries :
    ∃ s, Runs
      (do readProgram []; resolve [] (some {}); discard (save 0 none); saveLinks fun _ => none)
      queriedTwice () s ∧
      ¬ (s.objects.map (·.guid)).Nodup := by
  have hrun : Runs
      (do readProgram []; resolve [] (some {}); discard (save 0 none); saveLinks fun _ => none)
      queriedTwice () _ :=
    runs_of_isOk (by decide +kernel)
  exact ⟨_, hrun, by decide +kernel⟩

end Scan

end EztScan
