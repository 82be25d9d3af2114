import EztScan.Proofs.Lineage

/-!
# The closest program

A call names a program by a path. The library narrows the programs of that name down in two steps,
first by the directory of the path and then by the distance from where the call stands, and it takes
a step only where several programs are left. Here is said without the steps which program is found:
`Library.IsMeant` says which programs a query can mean at all, and of these it is the first one from
which no other one is fewer steps away (`FirstLeast`, `Library.find_closest`).

Steps are counted along relative paths (`Text.Path.relative`), which lead from one path to the other
one (`Text.Path.foldl_enter_relative`).
-/

namespace EztScan

open List
variable {near : List Entry} {start : String}

/-! ### Relative paths -/

namespace Text.Path

/-- The relative path from one path to another: up to the last name that the ways to both have in
common, and down from there. -/
def relative (start p : String) : List String :=
  let common := commonLength (fromRoot start) (fromRoot p)
  List.replicate ((fromRoot start).length - common) ".." ++ (fromRoot p).drop common

theorem length_relative (start p : String) : (relative start p).length = distance p start := by
  unfold relative distance
  rw [length_append, length_replicate, length_drop]

/-- The name is that of a file or directory, and does not stand for a place. -/
def LeadsDown (name : String) : Prop :=
  name ≠ "" ∧ name ≠ "." ∧ name ≠ ".."

theorem enter_of_leadsDown {name : String} (h : LeadsDown name) (place : List String) :
    enter place name = place ++ [name] := by
  obtain ⟨hempty, hdot, hup⟩ := h
  unfold enter
  rw [if_neg (by simp [hempty, hdot]), if_neg hup]

/-- The way to a path goes down only. -/
theorem leadsDown_fromRoot (p : String) : ∀ name ∈ fromRoot p, LeadsDown name := by
  have hstep : ∀ (place : List String) (name : String), (∀ x ∈ place, LeadsDown x) →
      ∀ x ∈ enter place name, LeadsDown x := by
    intro place name hplace x hx
    unfold enter at hx
    split at hx
    · exact hplace x hx
    next hstays =>
      split at hx
      · exact hplace x (mem_of_mem_dropLast hx)
      next hup =>
        rcases mem_append.mp hx with hx | hx
        · exact hplace x hx
        · obtain rfl := mem_singleton.mp hx
          simp only [Bool.or_eq_true, decide_eq_true_eq, not_or] at hstays
          exact ⟨hstays.1, hstays.2, hup⟩
  unfold fromRoot
  exact List.foldlRecOn _ enter (forall_mem_nil _) fun place hplace name _ =>
    hstep place name hplace

theorem foldl_enter_up (k : Nat) (place : List String) :
    (List.replicate k "..").foldl enter place = place.take (place.length - k) := by
  induction k generalizing place with
  | zero => simp
  | succ k ih =>
    have hup : enter place ".." = place.dropLast := rfl
    rw [replicate_succ, foldl_cons, hup, ih, length_dropLast, dropLast_eq_take, take_take]
    congr 1
    omega

theorem foldl_enter_down {names : List String} (h : ∀ name ∈ names, LeadsDown name)
    (place : List String) : names.foldl enter place = place ++ names := by
  induction names generalizing place with
  | nil => exact (append_nil place).symm
  | cons name names ih =>
    obtain ⟨hname, hnames⟩ := forall_mem_cons.mp h
    rw [foldl_cons, enter_of_leadsDown hname, ih hnames, append_assoc, singleton_append]

theorem take_commonLength :
    ∀ as bs : List String, as.take (commonLength as bs) = bs.take (commonLength as bs)
  | [], bs => by simp [commonLength]
  | a :: as, [] => by simp [commonLength]
  | a :: as, b :: bs => by
    unfold commonLength
    split
    next heq => rw [heq, take_succ_cons, take_succ_cons, take_commonLength as bs]
    · rfl

theorem commonLength_le : ∀ as bs : List String, commonLength as bs ≤ as.length
  | [], bs => Nat.le_of_eq (by simp [commonLength])
  | a :: as, [] => by simp [commonLength]
  | a :: as, b :: bs => by
    unfold commonLength
    split
    · exact Nat.succ_le_succ (commonLength_le as bs)
    · exact Nat.zero_le _

/-- **A relative path leads from the one path to the other.** -/
theorem foldl_enter_relative (start p : String) :
    (relative start p).foldl enter (fromRoot start) = fromRoot p := by
  have hle := commonLength_le (fromRoot start) (fromRoot p)
  have hdown : ∀ name ∈ (fromRoot p).drop (commonLength (fromRoot start) (fromRoot p)),
      LeadsDown name :=
    fun name hname => leadsDown_fromRoot p name (mem_of_mem_drop hname)
  unfold relative
  rw [foldl_append, foldl_enter_up, foldl_enter_down hdown, Nat.sub_sub_self hle, take_commonLength,
    take_append_drop]

end Text.Path

/-! ### The first least element -/

/-- Of the elements of a list that have a property, this is the first one whose measure is the
least. -/
def FirstLeast {α : Type} (P : α → Prop) (measure : α → Nat) (xs : List α) (x : α) : Prop :=
  P x ∧ ∃ before after, xs = before ++ x :: after ∧
    (∀ y ∈ before, P y → measure x < measure y) ∧ ∀ y ∈ after, P y → measure x ≤ measure y

/-- A search for an element that no other one is less than finds the first of them. -/
theorem find?_eq_some_iff_firstLeast {α : Type} {P : α → Prop} [DecidablePred P] {measure : α → Nat}
    {xs : List α} {x : α} :
    xs.find? (fun y => P y ∧ ∀ z ∈ xs, P z → measure y ≤ measure z) = some x ↔
      FirstLeast P measure xs x := by
  rw [List.find?_eq_some_iff_append]
  simp only [decide_eq_true_eq, Bool.not_eq_true', decide_eq_false_iff_not, not_and]
  constructor
  · rintro ⟨⟨hx, hleast⟩, before, after, rfl, hbefore⟩
    refine ⟨hx, before, after, rfl, fun y hy hPy => ?_, fun y hy => hleast y (by simp [hy])⟩
    -- one before it that is as near would have been found
    refine Nat.lt_of_le_of_ne (hleast y (by simp [hy]) hPy) fun heq =>
      hbefore y hy hPy fun z hz hPz => ?_
    rw [← heq]
    exact hleast z hz hPz
  · rintro ⟨hx, before, after, rfl, hbefore, hafter⟩
    refine ⟨⟨hx, fun z hz hPz => ?_⟩, before, after, rfl, fun y hy hPy hleast => ?_⟩
    · rcases mem_append.mp hz with hz | hz
      · exact Nat.le_of_lt (hbefore z hz hPz)
      · rcases mem_cons.mp hz with rfl | hz
        · exact Nat.le_refl _
        · exact hafter z hz hPz
    · exact Nat.not_le_of_lt (hbefore y hy hPy) (hleast x (by simp) hx)

/-! ### Looking for a program -/

namespace Library

/-- The program has the last name of the query, its extension put aside. -/
def HasName (query : String) (e : Entry) : Prop :=
  Text.upper e.name = Text.upper (Text.Path.splitExtension (Text.Path.basename query)).1

/-- The program is in a directory with the name of the one that the query leads through. -/
def SharesDirectory (query : String) (e : Entry) : Prop :=
  directoryName e.path = directoryName query

instance (query : String) : DecidablePred (HasName query) :=
  fun e => inferInstanceAs (Decidable (Text.upper e.name = _))

instance (query : String) : DecidablePred (SharesDirectory query) :=
  fun e => inferInstanceAs (Decidable (directoryName e.path = _))

/-- The query can mean the program: it has the name, and if several programs have it, the query
leads through a directory and one of them is in a directory of that name, then so is this one. -/
def IsMeant (es : List Entry) (query : String) (e : Entry) : Prop :=
  HasName query e ∧ (1 < es.countP (HasName query ·) → Text.Path.dirname query ≠ "" →
    (∃ x ∈ es, HasName query x ∧ SharesDirectory query x) → SharesDirectory query e)

instance (es : List Entry) (query : String) : DecidablePred (IsMeant es query) :=
  fun e => inferInstanceAs (Decidable (HasName query e ∧ _))

/-- The number of steps from a place to a program. -/
def steps (start : String) (e : Entry) : Nat :=
  (Text.Path.relative start e.path).length

theorem entries_insertAll (es : List Entry) (l : Library) :
    (es.foldl insert l).entries = l.entries ++ es := by
  induction es generalizing l with
  | nil => exact (append_nil _).symm
  | cons e es ih =>
    rw [foldl_cons, ih]
    exact append_assoc l.entries [e] es

theorem named_eq (l : Library) (query : String) :
    l.named (Text.Path.splitExtension (Text.Path.basename query)).1 =
      l.entries.filter (HasName query ·) := by
  unfold named
  refine filter_congr fun e _ => ?_
  unfold isNamed HasName
  exact beq_eq_decide _ _

/-- **The first step** leaves the programs that the query can mean. -/
theorem narrow_inDirectory (es : List Entry) (query : String) :
    narrow (fun es => .ok (inDirectory query es)) (es.filter (HasName query ·)) =
      .ok (es.filter (IsMeant es query ·)) := by
  have hall : ∀ {p : Entry → Bool},
    (∀ e ∈ es, HasName query e → (IsMeant es query e ↔ p e = true)) →
      es.filter (IsMeant es query ·) = (es.filter (HasName query ·)).filter p := by
    intro p hp
    rw [filter_filter]
    refine filter_congr fun e he => ?_
    by_cases hname : HasName query e
    · simp [hname, hp e he hname]
    · simp [hname, IsMeant]
  have hsame (h : ∀ e ∈ es, HasName query e → IsMeant es query e) :
      es.filter (IsMeant es query ·) = es.filter (HasName query ·) := by
    rw [hall (p := fun _ => true) fun e he hname => iff_of_true (h e he hname) rfl]
    exact filter_eq_self.mpr fun _ _ => rfl
  unfold narrow
  rw [← countP_eq_length_filter]
  by_cases hseveral : 1 < es.countP (HasName query ·)
  · rw [if_pos hseveral]
    unfold inDirectory
    dsimp only
    by_cases hdir : Text.Path.dirname query = ""
    · rw [if_pos (String.isEmpty_iff.mpr hdir),
        hsame fun e _ hname => ⟨hname, fun _ h => absurd hdir h⟩]
    · rw [if_neg (by rwa [String.isEmpty_iff])]
      by_cases hshared : ∃ x ∈ es, HasName query x ∧ SharesDirectory query x
      · -- some candidate is in such a directory, and only those that are stay
        have hkept := hall (p := fun e => directoryName query == directoryName e.path)
            fun e _ hname => by
          rw [beq_iff_eq]
          exact ⟨fun h => (h.2 hseveral hdir hshared).symm, fun h => ⟨hname, fun _ _ _ => h.symm⟩⟩
        rw [hkept]
        obtain ⟨x, hx, hname, hdirectory⟩ := hshared
        cases hfound : (es.filter (HasName query ·)).filter fun e =>
          directoryName query == directoryName e.path with
        | nil =>
          have hmem : x ∈ (es.filter (HasName query ·)).filter fun e =>
              directoryName query == directoryName e.path := by
            simp [hx, hname, show directoryName x.path = directoryName query from hdirectory]
          rw [hfound] at hmem
          exact absurd hmem not_mem_nil
        | cons found rest => rfl
      · have hnone : (es.filter (HasName query ·)).filter
            (fun e => directoryName query == directoryName e.path) = [] := by
          refine filter_eq_nil_iff.mpr fun e he heq => hshared ?_
          obtain ⟨hmem, hname⟩ := mem_filter.mp he
          exact ⟨e, hmem, of_decide_eq_true hname, (beq_iff_eq.mp heq).symm⟩
        rw [hnone, hsame fun e _ hname => ⟨hname, fun _ _ h => absurd h hshared⟩]
  · rw [if_neg hseveral, hsame fun e _ hname => ⟨hname, fun h => absurd h hseveral⟩]

/-- The candidates that are fewest steps away are those from which no other one is fewer steps
away. -/
theorem closest_eq (hpaths : ∀ e ∈ near, e.path ≠ "") (hstart : start ≠ "") :
    closest near start = .ok (near.filter fun e => ∀ x ∈ near, steps start e ≤ steps start x) := by
  -- no path is empty, so that all distances are known
  have hmeasured : near.mapM (fun e => return (← distance start e, e)) =
      Except.ok (near.map fun e => (steps start e, e)) := by
    refine mapM_eq_ok fun e he => ?_
    unfold distance steps
    rw [if_neg (by rw [String.isEmpty_iff]; exact hpaths e he), Text.Path.length_relative]
    rfl
  have hfirsts : (near.map fun e => (steps start e, e)).map (·.1) = near.map (steps start) := by
    simp
  unfold closest
  rw [if_neg (by rwa [String.isEmpty_iff]), hmeasured]
  simp only [bind, Except.bind]
  rw [hfirsts]
  cases hleast : (near.map (steps start)).min? with
  | none =>
    obtain rfl : near = [] := map_eq_nil_iff.mp (min?_eq_none_iff.mp hleast)
    rfl
  | some =>
    obtain ⟨hmem, hle⟩ := min?_eq_some_iff.mp hleast
    obtain ⟨nearest, hnearest, rfl⟩ := mem_map.mp hmem
    rw [forall_mem_map] at hle
    -- as near as the nearest is no farther than any
    have hfilter : near.filter (fun e => steps start e == steps start nearest) =
        near.filter fun e => ∀ x ∈ near, steps start e ≤ steps start x := by
      refine filter_congr fun e he => ?_
      rw [Bool.eq_iff_iff, beq_iff_eq, decide_eq_true_iff]
      refine ⟨fun heq x hx => heq.trans_le (hle x hx),
        fun h => Nat.le_antisymm (h nearest hnearest) (hle e he)⟩
    dsimp only
    rw [← hfilter, filter_map, map_map]
    exact congrArg Except.ok (map_id _)

/-- **The second step** leaves the candidates that are fewest steps away. -/
theorem narrow_closest (hpaths : ∀ e ∈ near, e.path ≠ "") (hstart : start ≠ "") :
    narrow (closest · start) near = .ok (near.filter fun e => ∀ x ∈ near,
      steps start e ≤ steps start x) := by
  unfold narrow
  split
  · exact closest_eq hpaths hstart
  next halone =>
    cases near with
    | nil => rfl
    | cons e rest =>
      obtain rfl : rest = [] :=
        eq_nil_of_length_eq_zero (by simp only [length_cons] at halone; omega)
      simp

/-- What is found is the first program that is meant and from which no other such one is fewer steps
away. -/
theorem find_eq (es : List Entry) (hpaths : ∀ e ∈ es, e.path ≠ "") (query : String)
    (hstart : start ≠ "") :
    (es.foldl insert {}).find query start = .ok (es.find? fun e =>
      IsMeant es query e ∧ ∀ x ∈ es, IsMeant es query x → steps start e ≤ steps start x) := by
  have hentries : (es.foldl insert {}).entries = es := by rw [entries_insertAll]; rfl
  have hmeant : ∀ e ∈ es.filter (IsMeant es query ·), e.path ≠ "" :=
    fun e he => hpaths e (mem_of_mem_filter he)
  unfold find
  dsimp only
  rw [named_eq, hentries, narrow_inDirectory]
  simp only [bind, Except.bind]
  rw [narrow_closest hmeant hstart]
  dsimp only
  rw [head?_filter, List.find?_filter]
  simp only [mem_filter, decide_eq_true_eq, and_imp, Bool.decide_and]
  rfl

/-- If a program has the name, then one is meant from which no other such one is fewer steps
away. -/
theorem exists_least_isMeant {es : List Entry} {query : String} {e : Entry} (he : e ∈ es)
    (hname : HasName query e) (start : String) :
    ∃ x ∈ es, IsMeant es query x ∧ ∀ y ∈ es, IsMeant es query y →
      steps start x ≤ steps start y := by
  have hmeant : ∃ x ∈ es, IsMeant es query x := by
    by_cases hshared : ∃ x ∈ es, HasName query x ∧ SharesDirectory query x
    · obtain ⟨x, hx, hx', hdirectory⟩ := hshared
      exact ⟨x, hx, hx', fun _ _ _ => hdirectory⟩
    · exact ⟨e, he, hname, fun _ _ h => absurd h hshared⟩
  cases hleast : ((es.filter (IsMeant es query ·)).map (steps start)).min? with
  | none =>
    obtain ⟨x, hx, hmeant⟩ := hmeant
    have hnil := map_eq_nil_iff.mp (min?_eq_none_iff.mp hleast)
    exact absurd (decide_eq_true hmeant) (filter_eq_nil_iff.mp hnil x hx)
  | some =>
    obtain ⟨hmem, hle⟩ := min?_eq_some_iff.mp hleast
    obtain ⟨x, hx, rfl⟩ := mem_map.mp hmem
    obtain ⟨hx, hmeant⟩ := mem_filter.mp hx
    refine ⟨x, hx, of_decide_eq_true hmeant, fun y hy hy' => hle _ (mem_map_of_mem ?_)⟩
    exact mem_filter.mpr ⟨hy, decide_eq_true hy'⟩

/-- **Which program is found.** Where every program has a path, a query from somewhere is always
answered: it finds nothing exactly if no program has its name, and otherwise the program that is
meant and fewest steps away, the first of them if there are several. The relative paths along which
steps are counted lead from where the query is made to the programs. -/
theorem find_closest (es : List Entry) (hpaths : ∀ e ∈ es, e.path ≠ "") (query : String)
    {start : String} (hstart : start ≠ "") :
    ∃ found, (es.foldl insert {}).find query start = .ok found ∧
      (found = none ↔ ∀ e ∈ es, ¬ HasName query e) ∧
      (∀ e, found = some e ↔ FirstLeast (IsMeant es query) (steps start) es e) ∧
      ∀ e ∈ es, (Text.Path.relative start e.path).foldl Text.Path.enter (Text.Path.fromRoot start) =
        Text.Path.fromRoot e.path := by
  refine ⟨_, find_eq es hpaths query hstart, ?_, fun e => find?_eq_some_iff_firstLeast,
    fun e _ => Text.Path.foldl_enter_relative start e.path⟩
  rw [find?_eq_none]
  constructor
  · intro hnone e he hname
    obtain ⟨x, hx, hleast⟩ := exists_least_isMeant he hname start
    exact hnone x hx (decide_eq_true hleast)
  · intro hnone e he hfound
    exact hnone e he (of_decide_eq_true hfound).1.1

/-- Of four programs of a name one is in another directory, and of the other three one is farther
away than the other two. -/
theorem find_closest_of_four :
    let es := ["/b/old/pay.ezt", "/a/lib/pay.ezt", "/b/lib/pay.ezt", "/b/LIB/pay.ezt"].map
      fun path => Entry.mk ⟨path, 0⟩ "Pay"
    (∀ e ∈ es, e.path ≠ "") ∧ "/b/main.ezt" ≠ "" ∧
      (es.foldl insert {}).find "lib/PAY.ezt" "/b/main.ezt" =
        .ok (some ⟨⟨"/b/lib/pay.ezt", 0⟩, "Pay"⟩) := by
  intro es
  have hpaths : ∀ e ∈ es, e.path ≠ "" := by decide +kernel
  have hstart : "/b/main.ezt" ≠ "" := by decide
  obtain ⟨found, hfind, -, hfound, -⟩ := find_closest es hpaths "lib/PAY.ezt" hstart
  refine ⟨hpaths, hstart, hfind.trans (congrArg Except.ok ((hfound _).mpr ?_))⟩
  exact ⟨by decide +kernel, es.take 2, es.drop 3, rfl, by decide +kernel, by decide +kernel⟩

end Library

end EztScan
