import EztScan.Proofs.Linking

/-!
# Where links start from

A walk through a source enters and leaves procedures one after the other, never one inside another.
So it is at any moment in one procedure or in none, and this is the procedure that the node stands
in which it enters next (`Visit.Fits`, `isRound_walk`).

The symbols that links start from follow the walk: the program alone outside of all procedures, and
the symbol of the procedure on top of it inside (`Stacked`). The symbol of a procedure is looked up
by its name and its first line. This gives the first one of all procedures that have both
(`head?_lookalikes`), and so the right one if no other procedure has them (`stands_of_findOne`).
-/

namespace EztScan

open Element EztScan.Language Work List Program

variable {n root : Node} {c : Option Node} {v : Visit} {p : Program} {name : Option String}
  {k : Nat} {stack stack' : Enclosing} {known : Objects} {s u : Scan} {vs : List Visit}
  {i : ProgramId} {origin : Origin}

/-! ### The walk through a source -/

namespace Visit

/-- The procedure that a walk is in after a visit. -/
def next (c : Option Node) : Visit → Option Node
  | .entering n => if n.isProcedure then some n else c
  | .leaving n => if n.isProcedure then none else c

theorem next_entering (c : Option Node) (n : Node) :
    next c (.entering n) = if n.isProcedure then some n else c := rfl

theorem next_leaving (c : Option Node) (n : Node) :
    next c (.leaving n) = if n.isProcedure then none else c := rfl

theorem next_of_not (h : ¬ v.node.isProcedure = true) : v.next c = c := by
  cases v with
  | entering | leaving => exact if_neg h

/-- Being in the procedure `c`, a walk enters nodes that stand in it, and leaves no other one. -/
def Fits (root : Node) (c : Option Node) : Visit → Prop
  | .entering n => (c, n) ∈ (none, root) :: root.placed
  | .leaving n => n.isProcedure = true → c = some n

end Visit

/-- Each of the visits fits in its place. -/
def Orderly (root : Node) : Option Node → List Visit → Prop
  | _, [] => True
  | c, v :: vs => v.Fits root c ∧ Orderly root (v.next c) vs

/-- The visits fit, and lead back to the procedure that they began in. -/
def IsRound (root : Node) (c : Option Node) (vs : List Visit) : Prop :=
  Orderly root c vs ∧ vs.foldl Visit.next c = c

theorem Node.IsSource.isProcedure_eq (h : root.IsSource) : root.isProcedure = false :=
  h.of_names (P := fun name => (name == "Procedure") = false) rfl rfl

section Rounds

variable {root : Node} {c : Option Node}
variable {as bs : List Visit}

theorem orderly_append :
    Orderly root c (as ++ bs) ↔ Orderly root c as ∧ Orderly root (as.foldl Visit.next c) bs := by
  induction as generalizing c with
  | nil => exact ⟨fun h => ⟨trivial, h⟩, And.right⟩
  | cons v as ih =>
    rw [cons_append, Orderly, Orderly, ih, foldl_cons, and_assoc]

theorem IsRound.append (has : IsRound root c as) (hbs : IsRound root c bs) :
    IsRound root c (as ++ bs) := by
  refine ⟨orderly_append.mpr ⟨has.1, ?_⟩, ?_⟩
  · rw [has.2]
    exact hbs.1
  · rw [foldl_append, has.2]
    exact hbs.2

theorem isRound_flatMap {α : Type} {f : α → List Visit} {as : List α}
    (h : ∀ a ∈ as, IsRound root c (f a)) : IsRound root c (as.flatMap f) := by
  induction as with
  | nil => exact ⟨trivial, rfl⟩
  | cons a as ih =>
    obtain ⟨ha, has⟩ := forall_mem_cons.mp h
    rw [flatMap_cons]
    exact ha.append (ih has)

theorem walkAll_eq_flatMap (es : List Element) :
    walkAll es = (nodes es).flatMap fun n => n.toElement.walk := by
  induction es with
  | nil => rw [walkAll]; rfl
  | cons e es ih =>
    rw [walkAll, ih]
    cases e with
    | token =>
      rw [walk]
      rfl
    | node => rfl

/-- A walk goes into a node, through the nodes in it, and out again. -/
theorem walk_toElement (n : Node) :
    n.toElement.walk = .entering n :: (nodes n.children).flatMap (fun m => m.toElement.walk) ++
      [.leaving n] := by
  rw [← walkAll_eq_flatMap]
  unfold Node.toElement
  rw [walk]

/-- A walk into a node and out of it again, if it fits what is in the node. -/
theorem isRound_node (hn : (c, n) ∈ (none, root) :: root.placed)
    (hprocedure : n.isProcedure = true → c = none)
    (hinner : ∀ m ∈ nodes n.children, IsRound root (Visit.next c (.entering n)) m.toElement.walk) :
    IsRound root c n.toElement.walk := by
  have hround := isRound_flatMap hinner
  have hback : Visit.next (Visit.next c (.entering n)) (.leaving n) = c := by
    rw [Visit.next_leaving, Visit.next_entering]
    by_cases h : n.isProcedure = true
    · rw [if_pos h, hprocedure h]
    · rw [if_neg h, if_neg h]
  have hleaving : Visit.Fits root (Visit.next c (.entering n)) (.leaving n) := by
    intro h
    rw [Visit.next_entering, if_pos h]
  -- the nodes inside lead back to where the first visit has led, and the last one back out
  rw [walk_toElement]
  refine ⟨⟨hn, orderly_append.mpr ⟨hround.1, ?_⟩⟩, ?_⟩
  · rw [hround.2]
    exact ⟨hleaving, trivial⟩
  · rw [cons_append, foldl_cons, foldl_append, hround.2]
    exact hback

/-- **The walk through a source** is orderly, and ends outside of all procedures. -/
theorem isRound_walk (hroot : root.IsSource) : IsRound root none root.toElement.walk := by
  refine isRound_node mem_cons_self (fun _ => rfl) fun n hn => ?_
  rw [Visit.next_entering, hroot.isProcedure_eq, if_neg Bool.false_ne_true]
  have hplaced : ∀ d ∈ (none, n) :: (nodes n.children).map (n.enclosure?, ·),
      d ∈ (none, root) :: root.placed :=
    fun d hd => mem_cons_of_mem _ (mem_flatMap.mpr ⟨n, hn, hd⟩)
  refine isRound_node (hplaced _ mem_cons_self) (fun _ => rfl) fun m hm => ?_
  -- what is in a section are terms, and nothing is in a term
  have hterm : m.IsTerm := hroot.isTerm hn hm
  refine isRound_node (hplaced _ (mem_cons_of_mem _ (mem_map.mpr ⟨m, hm, rfl⟩)))
    (fun h => ?_) fun l hl => ?_
  · rw [hterm.isProcedure_eq] at h
    cases h
  · rw [hterm.nodes_eq] at hl
    exact absurd hl not_mem_nil

end Rounds

/-! ### The procedure around a node -/

section Around

variable {root : Node} (hroot : root.IsSource) {c : Option Node} {n m : Node}

include hroot

theorem allNodes_eq_map : allNodes [root.toElement] = ((none, root) :: root.placed).map (·.2) :=
  hroot.allNodes_eq

theorem mem_allNodes_of_placed (hn : (c, n) ∈ (none, root) :: root.placed) :
    n ∈ allNodes [root.toElement] := by
  rw [allNodes_eq_map hroot]
  exact mem_map.mpr ⟨(c, n), hn, rfl⟩

/-- A node stands in one place only. -/
theorem eq_of_placed {d e : Option Node × Node} (hd : d ∈ (none, root) :: root.placed)
    (he : e ∈ (none, root) :: root.placed) (heq : d.2 = e.2) : d = e := by
  have hnodup := hroot.numbers
  rw [allNodes_eq_map hroot, map_map] at hnodup
  exact inj_on_of_nodup_map hnodup hd he (congrArg (fun n => n.head.number) heq)

/-- Procedures are sections of the source, right below its root. -/
theorem mem_nodes_of_isProcedure (hm : m ∈ allNodes [root.toElement])
    (hprocedure : m.isProcedure = true) : m ∈ nodes root.children ∧ m.IsSection := by
  rw [hroot.allNodes_eq] at hm
  rcases mem_cons.mp hm with rfl | hm
  · rw [hroot.isProcedure_eq] at hprocedure
    cases hprocedure
  · obtain ⟨d, hd, rfl⟩ := mem_map.mp hm
    rcases hroot.of_mem_placed hd with hterm | ⟨hnone, hsection⟩
    · rw [hterm.isProcedure_eq] at hprocedure
      cases hprocedure
    · refine ⟨?_, hsection⟩
      obtain ⟨l, hl, hd⟩ := mem_flatMap.mp hd
      rcases mem_cons.mp hd with rfl | hd
      · exact hl
      · -- what is in a section is no procedure
        obtain ⟨k, hk, rfl⟩ := mem_map.mp hd
        rw [(hroot.isTerm hl hk).isProcedure_eq] at hprocedure
        cases hprocedure

omit hroot in
/-- What stands in a procedure is one of its nodes. -/
theorem of_placed_some (hn : (some m, n) ∈ (none, root) :: root.placed) :
    m ∈ nodes root.children ∧ m.isProcedure = true ∧ n ∈ nodes m.children := by
  rcases mem_cons.mp hn with hself | hn
  · cases congrArg Prod.fst hself
  · obtain ⟨l, hl, hn⟩ := mem_flatMap.mp hn
    rcases mem_cons.mp hn with hself | hn
    · cases congrArg Prod.fst hself
    · obtain ⟨k, hk, hkn⟩ := mem_map.mp hn
      obtain ⟨hfst, rfl⟩ := Prod.mk.inj hkn
      unfold Node.enclosure? at hfst
      split at hfst
      · next hprocedure =>
        obtain rfl := Option.some.inj hfst
        exact ⟨hl, hprocedure, hk⟩
      · cases hfst

theorem mem_allNodes_of_encloses (hn : (some m, n) ∈ (none, root) :: root.placed) :
    m ∈ allNodes [root.toElement] ∧ m.isProcedure = true := by
  obtain ⟨hm, hprocedure, -⟩ := of_placed_some hn
  have hplaced : (none, m) ∈ root.placed := mem_flatMap.mpr ⟨m, hm, mem_cons_self⟩
  exact ⟨mem_allNodes_of_placed hroot (mem_cons_of_mem _ hplaced), hprocedure⟩

/-- A node is in a procedure exactly if it stands in it. -/
theorem mem_allNodes_iff (hn : (c, n) ∈ (none, root) :: root.placed)
    (hm : m ∈ allNodes [root.toElement]) (hprocedure : m.isProcedure = true) :
    n ∈ allNodes m.children ↔ c = some m := by
  obtain ⟨hpart, hsection⟩ := mem_nodes_of_isProcedure hroot hm hprocedure
  have hinner : allNodes m.children = nodes m.children := by
    rw [allNodes_eq_flatMap,
      flatMap_congr fun l hl => by rw [allNodes_of_tokens (hsection.isTerm hl).tokens],
      flatMap_singleton']
  have henclosure : m.enclosure? = some m := if_pos hprocedure
  rw [hinner]
  constructor
  · intro hmem
    have hplaced : (some m, n) ∈ root.placed := by
      refine mem_flatMap.mpr ⟨m, hpart, mem_cons_of_mem _ (mem_map.mpr ⟨n, hmem, ?_⟩)⟩
      rw [henclosure]
    exact congrArg Prod.fst (eq_of_placed hroot hn (mem_cons_of_mem _ hplaced) rfl)
  · rintro rfl
    exact (of_placed_some hn).2.2

end Around

/-- A walk through a source comes to statements that call programs by words. -/
theorem Visit.Fits.callsByWord (hroot : root.IsSource) (hv : v.Fits root c) (n : Node)
    (hn : v = .entering n) (rs : List Reference) (hrs : Scan.linked? n.head.kind.name = some rs) :
    Scan.CallsByWord n rs := by
  subst hn
  exact Scan.callsByWord_of_isSource hroot (mem_allNodes_of_placed hroot hv) hrs

/-! ### The symbol of a procedure -/

/-- What is found by a name is a member of that name and kind. -/
theorem Program.Indexed.of_mem_find (hp : p.Indexed) {id : Nat} {kind : SymbolKind}
    (h : k ∈ p.find id name [kind]) :
    ∃ own, p.cards[k]? = some own ∧ name.map Text.upper = some (Text.upper own.name) ∧
      own.kind = kind ∧ own.parent = some id := by
  cases name with
  | none => exact absurd h not_mem_nil
  | some name =>
    by_cases hname : name = ""
    · rw [hname] at h
      exact absurd h not_mem_nil
    · rw [hp.find hname, mem_numbersOf] at h
      obtain ⟨c, hc, htest⟩ := h
      rw [Bool.and_eq_true, Bool.and_eq_true, beq_iff_eq, beq_iff_eq, beq_iff_eq] at htest
      exact ⟨c, hc, congrArg some htest.1.2.symm, htest.2, htest.1.1⟩

/-- What procedures are looked up by: the name, case put aside, and the first line. -/
def Node.signature (n : Node) : Option String × Option Int :=
  ((declaredName n).toOption.join.map Text.upper, n.span.beginLine)

/-- The procedures that cannot be told from one by what procedures are looked up by, in the order of
their declarations. -/
def Program.lookalikes (p : Program) (n : Node) : List Nat :=
  p.numbersOf fun c => c.kind == .procedure && (some (Text.upper c.name), c.line) == n.signature

section Procedures

variable {p q : Program} {i : ProgramId} {origin : Origin} {root : Node}
  (henrolled : p.Enrolled i origin root root.declarations) (hroot : root.IsSource)
  (hcards : ∃ new, q.cards = p.cards ++ new ∧ ∀ c ∈ new, c.kind = .unknownProgram)
variable {own : Symbol} {m : Node}

include henrolled hroot hcards

/-- The symbol of a procedure is that of a procedure in the source, whatever programs were
called. -/
theorem exists_procedure (hown : q.cards[k]? = some own) (hkind : own.kind = .procedure) :
    ∃ j d, k = j + 1 ∧ root.declarations[j]? = some d ∧ d.2 ∈ allNodes [root.toElement] ∧
      d.2.isProcedure = true ∧ own.IsOf d.2 ∧ Stands p.cards (some d.2) k := by
  obtain ⟨new, hcards, hnew⟩ := hcards
  have hold : p.cards[k]? = some own := by
    rw [hcards] at hown
    by_cases hk : k < p.cards.length
    · rw [getElem?_append_left hk] at hown
      exact hown
    · rw [getElem?_append_right (Nat.le_of_not_lt hk)] at hown
      have hunknown := hnew own (mem_of_getElem? hown)
      rw [hkind] at hunknown
      cases hunknown
  -- the first symbol is the program, and the others are those of declarations
  cases k with
  | zero =>
    have heq := Option.some.inj (hold.symm.trans henrolled.own)
    rw [heq] at hkind
    cases hkind
  | succ j =>
    obtain ⟨d, hd, hentered⟩ := henrolled.exists_entered hold
    have hplaced := mem_placed_of_getElem? hd
    have hof := hentered.isOf hroot hplaced (hkind ▸ mem_cons_of_mem _ mem_cons_self)
    refine ⟨j, d, rfl, hd, ?_, ?_, hof, own, hold, hkind, hof.tree, hof.parent⟩
    · rw [hroot.allNodes_eq]
      exact mem_cons_of_mem _ (mem_map.mpr ⟨d, hplaced, rfl⟩)
    · have hdeclared := hentered.kind
      rw [hkind] at hdeclared
      -- a term that declares something is a query
      rcases hroot.of_mem_placed hplaced with hterm | ⟨-, hsection⟩
      · have hquery := hterm.declaredKind_eq (by unfold Node.declares; rw [hdeclared]; rfl)
        rw [hdeclared] at hquery
        cases hquery.1
      · exact hsection.declaredKind_iff.1.mp hdeclared

/-- The procedures of a source have one symbol each. -/
theorem eq_of_stands {k' : Nat} (hk : Stands p.cards (some m) k) (hown : q.cards[k']? = some own)
    (hkind : own.kind = .procedure) (htree : own.tree = .root m) : k' = k := by
  obtain ⟨new, hq, -⟩ := id hcards
  obtain ⟨own', hown', hkind', htree', -⟩ := hk
  have hown' : q.cards[k]? = some own' := getElem?_of_isPrefix ⟨new, hq.symm⟩ hown'
  -- both symbols are those of declarations, and of the same node
  obtain ⟨j, d, rfl, hd, hmem, -, hof, -⟩ := exists_procedure henrolled hroot hcards hown hkind
  obtain ⟨j', d', rfl, hd', hmem', -, hof', -⟩ :=
    exists_procedure henrolled hroot hcards hown' hkind'
  have hnode : d.2 = d'.2 := by
    have heq := hof.tree.symm.trans (htree.trans (htree'.symm.trans hof'.tree))
    exact SyntaxTree.root.inj heq
  -- declarations do not come twice
  have hnodup : (root.declarations.map (·.2.head.number)).Nodup := by
    have hnumbers := hroot.numbers
    rw [hroot.allNodes_eq, map_cons, map_map] at hnumbers
    exact (nodup_cons.mp hnumbers).2.sublist (filter_sublist.map _)
  have hat : (root.declarations.map (·.2.head.number))[j]? =
      (root.declarations.map (·.2.head.number))[j']? := by
    rw [getElem?_map, getElem?_map, hd, hd', Option.map_some, Option.map_some, hnode]
  have hlt : j < (root.declarations.map (·.2.head.number)).length := by
    rw [length_map]
    exact (List.getElem?_eq_some_iff.mp hd).1
  rw [(getElem?_inj hlt hnodup).mp hat]

/-- A symbol is the one of the procedure if its kind and its tree say so. -/
theorem stands_iff (hk : Stands p.cards (some m) k) (j : Nat) (self : Symbol)
    (hself : q.symbols[j]? = some self) : self.kind = .procedure ∧ self.tree = .root m ↔ j = k := by
  have hcard := cards_of_getElem? hself
  constructor
  · rintro ⟨hprocedure, hroot'⟩
    exact eq_of_stands henrolled hroot hcards hk hcard hprocedure hroot'
  · rintro rfl
    obtain ⟨new, hq, -⟩ := hcards
    obtain ⟨own, hown, hkind, htree, -⟩ := hk
    have hown : q.cards[j]? = some own := getElem?_of_isPrefix ⟨new, hq.symm⟩ hown
    obtain rfl := Option.some.inj (hown.symm.trans hcard)
    exact ⟨hkind, htree⟩

omit henrolled hroot in
/-- Programs that are called by their names look like no procedure. -/
theorem lookalikes_eq (n : Node) : q.lookalikes n = p.lookalikes n := by
  obtain ⟨new, hq, hnew⟩ := hcards
  refine numbersOf_eq_of_append hq fun c hc => ?_
  rw [hnew c hc]
  rfl

/-- A procedure is one of its lookalikes. -/
theorem exists_mem_lookalikes (hn : n ∈ nodes root.children) (hsection : n.IsSection)
    (hprocedure : n.isProcedure = true) : ∃ k ∈ q.lookalikes n, Stands p.cards (some n) k := by
  have hdeclared : Scan.declaredKind n = some .procedure :=
    hsection.declaredKind_iff.1.mpr hprocedure
  have hplaced : (none, n) ∈ root.placed := mem_flatMap.mpr ⟨n, hn, mem_cons_self⟩
  obtain ⟨j, hj⟩ : ∃ j, root.declarations[j]? = some (none, n) := by
    refine mem_iff_getElem?.mp (mem_filter.mpr ⟨hplaced, ?_⟩)
    unfold Node.declares
    rw [hdeclared]
    rfl
  obtain ⟨own, hown, hentered⟩ := henrolled.entered j _ hj
  have hkind : own.kind = .procedure := Option.some.inj (hentered.kind.symm.trans hdeclared)
  have hof := hentered.isOf hroot hplaced (hkind ▸ mem_cons_of_mem _ mem_cons_self)
  refine ⟨j + 1, ?_, own, hown, hkind, hof.tree, hof.parent⟩
  rw [lookalikes_eq hcards, lookalikes, mem_numbersOf]
  refine ⟨own, hown, ?_⟩
  unfold Node.signature
  rw [hof.name, hof.line, hkind, beq_self_eq_true]
  simp [Except.toOption]

/-- The lookalikes of a procedure are those with its name that begin on its line. -/
theorem lookalikes_eq_filter (hindexed : q.Indexed) (hsection : n.IsSection) {name : String}
    (hname : declaredName n = .ok (some name)) :
    q.lookalikes n = (q.find 0 (some name) [.procedure]).filter fun k => q.cards[k]?.any fun c =>
      c.line == n.span.beginLine := by
  rw [hindexed.find (hsection.named name hname), filter_numbersOf]
  refine numbersOf_congr fun k c hc => ?_
  unfold Node.signature
  rw [hname]
  by_cases hkind : c.kind = .procedure
  · -- procedures are members of the program
    obtain ⟨-, d, -, -, -, -, hof, -⟩ := exists_procedure henrolled hroot hcards hc hkind
    rw [hkind, hof.parent, beq_self_eq_true, beq_self_eq_true, Bool.true_and, Bool.true_and,
      Bool.and_true]
    rfl
  · rw [beq_eq_false_iff_ne.mpr hkind, Bool.false_and, Bool.and_false, Bool.false_and]

variable (hindexed : q.Indexed) (hn : n ∈ allNodes [root.toElement])
  (hprocedure : n.isProcedure = true)
variable (hname : declaredName n = .ok name)
  (hfound : q.findOne 0 name [.procedure] n.span.beginLine = some k)

include hindexed hn hprocedure hname hfound

/-- **Looking up a procedure** by its name and its first line gives the first one of its
lookalikes. -/
theorem head?_lookalikes : (q.lookalikes n).head? = some k := by
  obtain ⟨hpart, hsection⟩ := mem_nodes_of_isProcedure hroot hn hprocedure
  unfold findOne at hfound
  obtain _ | name := name
  · -- nothing is found without a name
    rw [show q.find 0 none [.procedure] = [] from rfl] at hfound
    cases (ite_self none).symm.trans hfound
  have hfilter := lookalikes_eq_filter henrolled hroot hcards hindexed hsection hname
  split at hfound
  · -- there is only one procedure of this name
    next only hlist =>
    obtain ⟨j, hmem, -⟩ := exists_mem_lookalikes henrolled hroot hcards hpart hsection hprocedure
    rw [hfilter, hlist] at hmem ⊢
    obtain ⟨hj, hline⟩ := mem_filter.mp hmem
    obtain rfl := mem_singleton.mp hj
    rw [filter_eq_self.mpr fun _ ha => mem_singleton.mp ha ▸ hline]
    exact hfound
  · -- the first one that begins on the line is taken
    split at hfound
    · next hknown =>
      have hbegins : ∀ j, (q.cards[j]?.any fun c => c.line == n.span.beginLine) =
          q.beginsAt (n.span.beginLine.getD 0) j := by
        intro j
        unfold beginsAt
        rw [getElem?_cards]
        cases hbegin : n.span.beginLine with
        | none =>
          rw [hbegin] at hknown
          cases hknown
        | some =>
          cases q.symbols[j]? with
          | none | some => rfl
      rw [hfilter, head?_filter, funext hbegins]
      exact hfound
    · cases hfound

/-- What is looked up is the symbol of the procedure itself, if no other procedure has the same name
and first line. -/
theorem stands_of_findOne
    (hdistinct : (((allNodes [root.toElement]).filter Node.isProcedure).map Node.signature).Nodup) :
    Stands p.cards (some n) k := by
  have hhead := head?_lookalikes henrolled hroot hcards hindexed hn hprocedure hname hfound
  obtain ⟨own, hown, htest⟩ := mem_numbersOf.mp (mem_of_head? hhead)
  rw [Bool.and_eq_true, beq_iff_eq, beq_iff_eq] at htest
  obtain ⟨j, d, -, -, hd, hisProcedure, hof, hstands⟩ :=
    exists_procedure henrolled hroot hcards hown htest.1
  have hsignature : d.2.signature = n.signature := by
    rw [← htest.2]
    unfold Node.signature
    rw [hof.name, ← hof.line]
    rfl
  have hsame : d.2 = n := inj_on_of_nodup_map hdistinct (mem_filter.mpr ⟨hd, hisProcedure⟩)
    (mem_filter.mpr ⟨hn, hprocedure⟩) hsignature
  rw [← hsame]
  exact hstands

end Procedures

/-! ### The symbols that a walk is inside of -/

/-- The symbols that a walk is inside of when it is in the procedure `c`: the one that was found for
the procedure, if any, and the program. -/
def StackedBy (found : Node → Nat → Prop) : Option Node → Enclosing → Prop
  | none, stack => stack = [some 0]
  | some n, stack => ∃ top, stack = [top, some 0] ∧ ∀ k, top = some k → found n k

/-- The symbol that was found for the procedure is its own. -/
def Stacked (cs : List Symbol) : Option Node → Enclosing → Prop :=
  StackedBy fun n => Stands cs (some n)

/-- What links start from: the program, or what was found for the procedure. -/
theorem StackedBy.of_current {found : Node → Nat → Prop} (h : StackedBy found c stack)
    (hk : Scan.current stack = .ok k) : c = none ∧ k = 0 ∨ ∃ n, c = some n ∧ found n k := by
  cases c with
  | none =>
    obtain rfl : stack = [some 0] := h
    exact .inl ⟨rfl, (Except.ok.inj hk).symm⟩
  | some n =>
    obtain ⟨top, rfl, htop⟩ := h
    cases top with
    | none => cases hk
    | some =>
      obtain rfl := Except.ok.inj hk
      exact .inr ⟨n, rfl, htop _ rfl⟩

theorem Stacked.stands {cs : List Symbol} (h : Stacked cs c stack)
    (hk : Scan.current stack = .ok k) : Stands cs c k := by
  rcases h.of_current hk with ⟨rfl, rfl⟩ | ⟨n, rfl, hstands⟩
  · rfl
  · exact hstands

namespace Scan

/-- A walk can be stopped at any visit and taken up again. -/
theorem runs_linkVisits_append {as bs : List Visit} :
    Runs (linkVisits known stack (as ++ bs)) s stack' u ↔
      ∃ mid t, Runs (linkVisits known stack as) s mid t ∧
        Runs (linkVisits known mid bs) t stack' u := by
  induction as generalizing stack s with
  | nil =>
    constructor
    · exact fun h => ⟨stack, s, rfl, h⟩
    · rintro ⟨mid, t, hnil, h⟩
      obtain ⟨rfl, rfl⟩ := runs_pure.mp hnil
      exact h
  | cons v as ih =>
    rw [cons_append, linkVisits, linkVisits, runs_bind]
    constructor
    · rintro ⟨first, t, hv, hrest⟩
      obtain ⟨mid, t', has, hbs⟩ := ih.mp hrest
      exact ⟨mid, t', runs_bind.mpr ⟨first, t, hv, has⟩, hbs⟩
    · rintro ⟨mid, t', has, hbs⟩
      obtain ⟨first, t, hv, hrest⟩ := runs_bind.mp has
      exact ⟨first, t, hv, ih.mpr ⟨mid, t', hrest, hbs⟩⟩

/-- All that has been stored stays stored on a walk. -/
theorem IsStored.linkVisits (hroot : root.IsSource) {path : String} :
    ∀ {s u : Scan} {c : Option Node} {stack stack' : Enclosing}, s.IsStored path →
      Orderly root c vs → Runs (linkVisits known stack vs) s stack' u →
        u.IsStored path ∧ s.Enlarges u := by
  induction vs with
  | nil =>
    intro s u c stack stack' hs _ hrun
    obtain ⟨-, rfl⟩ := runs_pure.mp hrun
    exact ⟨hs, Enlarges.refl s⟩
  | cons v vs ih =>
    intro s u c stack stack' hs horderly hrun
    obtain ⟨mid, t, hvisit, hrest⟩ := runs_bind.mp hrun
    obtain ⟨ht, hst, -⟩ := hs.linkVisit (Visit.Fits.callsByWord hroot horderly.1) hvisit
    obtain ⟨hu, htu⟩ := ih ht horderly.2 hrest
    exact ⟨hu, hst.trans htu⟩

section Walk

variable {p : Program} {i : ProgramId} {origin : Origin} {root : Node} {path : String}
  {start : Scan} (henrolled : p.Enrolled i origin root root.declarations) (hroot : root.IsSource)
  (htable : p.SameTable start.program)

section Found

variable {found : Node → Nat → Prop}
  (hfound : ∀ q : Program, (∃ new, q.cards = p.cards ++ new ∧ ∀ c ∈ new, c.kind = .unknownProgram) →
    q.Indexed → ∀ n ∈ allNodes [root.toElement], n.isProcedure = true →
    ∀ name, declaredName n = .ok name → ∀ k,
    q.findOne 0 name [.procedure] n.span.beginLine = some k → found n k)

include hroot htable hfound

/-- **One visit** leads from the symbols around it to those around the next one. -/
theorem StackedBy.linkVisit (hs : s.IsStored path) (hstart : start.Enlarges s) (hv : v.Fits root c)
    (h : StackedBy found c stack) (hrun : Runs (linkVisit known stack v) s stack' u) :
    StackedBy found (v.next c) stack' := by
  by_cases hprocedure : v.node.isProcedure = true
  · cases v with
    | leaving n =>
      have hname : n.head.kind.name = "Procedure" := beq_iff_eq.mp hprocedure
      change n.isProcedure = true at hprocedure
      obtain rfl : c = some n := hv hprocedure
      -- the symbol of the procedure is dropped
      obtain ⟨top, rfl, -⟩ := h
      rw [Scan.linkVisit, if_pos hname] at hrun
      obtain ⟨rfl, -⟩ := runs_pure.mp hrun
      rw [Visit.next_leaving, if_pos hprocedure]
      rfl
    | entering n =>
      have hname : n.head.kind.name = "Procedure" := beq_iff_eq.mp hprocedure
      change n.isProcedure = true at hprocedure
      have hmem := mem_allNodes_of_placed hroot hv
      -- procedures stand in no procedure, so that the program is all there is
      obtain rfl : c = none := by
        obtain ⟨hpart, -⟩ := mem_nodes_of_isProcedure hroot hmem hprocedure
        have hplaced : (none, n) ∈ root.placed := mem_flatMap.mpr ⟨n, hpart, mem_cons_self⟩
        exact congrArg Prod.fst (eq_of_placed hroot hv (mem_cons_of_mem _ hplaced) rfl)
      obtain rfl : stack = [some 0] := h
      obtain ⟨rfl, outer, name, hcurrent, hdeclared, rfl⟩ := of_runs_enterProcedure hname hrun
      obtain rfl := Except.ok.inj hcurrent
      have hcards := hstart.cards
      rw [htable.cards] at hcards
      rw [Visit.next_entering, if_pos hprocedure]
      exact ⟨_, rfl, hfound s.program hcards hs.storable.indexed n hmem hprocedure name hdeclared⟩
  · -- all other visits leave the symbols that the walk is inside of
    have hname : v.node.head.kind.name ≠ "Procedure" := fun heq => hprocedure (beq_iff_eq.mpr heq)
    obtain rfl : stack' = stack := by
      rcases of_runs_linkVisit hrun with ⟨-, hstack⟩ | ⟨_, _, -, -, hstack, -⟩
      · exact hstack hname
      · exact hstack
    rw [Visit.next_of_not hprocedure]
    exact h

/-- **A walk** leads from the symbols around its beginning to those around its end. -/
theorem StackedBy.linkVisits : ∀ {s u : Scan} {c : Option Node} {stack stack' : Enclosing},
    s.IsStored path → start.Enlarges s → Orderly root c vs → StackedBy found c stack →
    Runs (linkVisits known stack vs) s stack' u →
    u.IsStored path ∧ start.Enlarges u ∧ StackedBy found (vs.foldl Visit.next c) stack' := by
  induction vs with
  | nil =>
    intro s u c stack stack' hs hstart _ h hrun
    obtain ⟨rfl, rfl⟩ := runs_pure.mp hrun
    exact ⟨hs, hstart, h⟩
  | cons v vs ih =>
    intro s u c stack stack' hs hstart horderly h hrun
    obtain ⟨hv, horderly⟩ := horderly
    obtain ⟨mid, t, hvisit, hrest⟩ := runs_bind.mp hrun
    obtain ⟨hstored, henlarges, -⟩ := hs.linkVisit (Visit.Fits.callsByWord hroot hv) hvisit
    exact ih hstored (hstart.trans henlarges) horderly
      (StackedBy.linkVisit hroot htable hfound hs hstart hv h hvisit) hrest

end Found

include henrolled hroot htable

/-- A walk that tells procedures apart knows which one it is in. -/
theorem Stacked.linkVisits
    (hdistinct : (((allNodes [root.toElement]).filter Node.isProcedure).map Node.signature).Nodup)
    (hs : s.IsStored path) (hstart : start.Enlarges s) (hvs : Orderly root c vs)
    (h : Stacked p.cards c stack) (hrun : Runs (linkVisits known stack vs) s stack' u) :
    u.IsStored path ∧ start.Enlarges u ∧ Stacked p.cards (vs.foldl Visit.next c) stack' :=
  StackedBy.linkVisits hroot htable (fun _ hcards hindexed _ hn hprocedure _ hname _ hfound =>
    stands_of_findOne henrolled hroot hcards hindexed hn hprocedure hname hfound hdistinct)
      hs hstart hvs h hrun

/-- In any case the first one of its lookalikes is taken for it. -/
theorem linkVisits_lookalikes (hs : s.IsStored path) (hstart : start.Enlarges s)
    (hvs : Orderly root c vs) (h : StackedBy (fun n k => (p.lookalikes n).head? = some k) c stack)
    (hrun : Runs (linkVisits known stack vs) s stack' u) :
    u.IsStored path ∧ start.Enlarges u ∧
      StackedBy (fun n k => (p.lookalikes n).head? = some k) (vs.foldl Visit.next c) stack' :=
  StackedBy.linkVisits hroot htable (fun _ hcards hindexed n hn hprocedure _ hname _ hfound => by
    rw [← lookalikes_eq hcards n]
    exact head?_lookalikes henrolled hroot hcards hindexed hn hprocedure hname hfound)
      hs hstart hvs h hrun

end Walk

end Scan

/-! ### Callers -/

/-- The object that a link starts from. -/
def Event.caller? : Event → Option ObjectId
  | .link _ caller _ _ => caller
  | _ => none

/-- The object that the links of a statement are to start from: that of the only symbol that was
made for the procedure in which the statement is, or that of the program if it is in none. -/
structure Program.IsCaller (p : Program) (n : Node) (caller : Option ObjectId) : Prop where
  inside : ∀ m ∈ p.treeNodes, m.isProcedure = true → n ∈ allNodes m.children →
    ∃ k, (∀ (j : Nat) self, p.symbols[j]? = some self →
        (self.kind = .procedure ∧ self.tree = .root m ↔ j = k)) ∧
      (p.objectOf k).isSome = true ∧ caller = p.objectOf k
  outside : (∀ m ∈ p.treeNodes, m.isProcedure = true → n ∉ allNodes m.children) →
    (p.objectOf 0).isSome = true ∧ caller = p.objectOf 0

theorem Program.Enrolled.lt_of_stands {ds : List (Option Node × Node)}
    (h : p.Enrolled i origin root ds) (hk : Stands p.cards c k) : k < p.symbols.length := by
  cases c with
  | none =>
    rw [show k = 0 from hk]
    exact h.pos
  | some =>
    obtain ⟨own, hown, -⟩ := hk
    rw [← length_cards]
    exact (List.getElem?_eq_some_iff.mp hown).1

/-- The symbol around a statement has the object that its links are to start from. -/
theorem isCaller_of_stands {q : Program} (henrolled : p.Enrolled i origin root root.declarations)
    (hroot : root.IsSource) (htable : p.SameTable q)
    (hstored : ∀ k < q.symbols.length, (q.objectOf k).isSome = true)
    (hn : (c, n) ∈ (none, root) :: root.placed) (hk : Stands p.cards c k) :
    q.IsCaller n (q.objectOf k) := by
  have hnodes := treeNodes_eq (htable.root?_eq.trans henrolled.root?_eq)
  have hcards : ∃ new, q.cards = p.cards ++ new ∧ ∀ c ∈ new, c.kind = .unknownProgram :=
    ⟨[], by rw [htable.cards, append_nil], forall_mem_nil _⟩
  cases c with
  | none =>
    obtain rfl : k = 0 := hk
    -- the statement is in no procedure
    refine ⟨fun m hm hprocedure hmem => ?_, fun _ => ⟨hstored 0 ?_, rfl⟩⟩
    · rw [hnodes] at hm
      cases (mem_allNodes_iff hroot hn hm hprocedure).mp hmem
    · rw [htable.length_eq]
      exact henrolled.pos
  | some m₀ =>
    refine ⟨fun m hm hprocedure hmem => ?_, fun hout => ?_⟩
    · rw [hnodes] at hm
      obtain rfl := Option.some.inj ((mem_allNodes_iff hroot hn hm hprocedure).mp hmem)
      refine ⟨k, stands_iff henrolled hroot hcards hk, hstored k ?_, rfl⟩
      rw [htable.length_eq]
      exact henrolled.lt_of_stands hk
    · -- the statement is in this procedure
      obtain ⟨hd, hprocedure⟩ := mem_allNodes_of_encloses hroot hn
      exact absurd ((mem_allNodes_iff hroot hn hd hprocedure).mpr rfl)
        (hout m₀ (hnodes ▸ hd) hprocedure)

namespace Scan

/-- The links of a visit start from the symbol around it. -/
theorem exists_links_of_runs {path : String} {start : Scan}
    (henrolled : p.Enrolled i origin root root.declarations) (hroot : root.IsSource)
    (htable : p.SameTable start.program) (hstored : start.IsStored path) (hs : s.IsStored path)
    (hstart : start.Enlarges s) (hv : v.Fits root c) (hstack : Stacked p.cards c stack)
    (hrun : Runs (linkVisit known stack v) s stack' u) :
    ∃ new, u.events.toList = s.events.toList ++ new ∧
      ∀ kind caller callee place, Event.link kind caller callee place ∈ new →
        start.program.IsCaller v.node caller := by
  cases v with
  | leaving =>
    obtain ⟨-, rfl⟩ := runs_pure.mp hrun
    exact ⟨[], (append_nil _).symm, fun _ _ _ _ hmem => absurd hmem not_mem_nil⟩
  | entering =>
    obtain ⟨-, -, hlinks⟩ := hs.linkVisit (Visit.Fits.callsByWord hroot hv) hrun
    rcases hlinks with ⟨new, hnew, hquiet⟩ | ⟨k, hcurrent, new, hnew, hcaller⟩
    · refine ⟨new, hnew, fun kind caller callee place hmem => ?_⟩
      cases hquiet _ hmem
    · refine ⟨new, hnew, fun kind caller callee place hmem => ?_⟩
      -- the caller is the object of the symbol on top, which has not changed since the start
      have hstands := hstack.stands hcurrent
      have hlt : k < start.program.symbols.length := by
        rw [htable.length_eq]
        exact henrolled.lt_of_stands hstands
      obtain rfl : caller = start.program.objectOf k := by
        rw [← hstart.objects k hlt]
        exact of_decide_eq_true (hcaller _ hmem)
      exact isCaller_of_stands henrolled hroot htable (fun j hj => hstored.isSome hj) hv hstands

/-- **Links start from the enclosing procedure.** If no two procedures of a program have the same
name, case put aside, and the same first line, then every link that is reported when the walk comes
to a statement starts from the object of the procedure that the statement is in, or from that of the
program if it is in none. At the end the walk is inside of the program alone. -/
theorem links_start_from_enclosing {files : SourceFiles} {library : Option Library} {i : ProgramId}
    {origin : Origin} {text : Option String} {known : Objects} {s u : Scan}
    (hsaved : Runs (do readProgram files; resolve files library; discard (save 0 none))
      ⟨Program.unread i origin text, #[]⟩ () s)
    (hlinked : Runs (saveLinks known) s () u)
    (hdistinct : ((s.program.treeNodes.filter Node.isProcedure).map Node.signature).Nodup) :
    ∃ vs, Runs visits s vs s ∧ Runs (linkVisits known [some 0] vs) s [some 0] u ∧
      ∀ before v after, vs = before ++ v :: after →
        ∃ stack t stack' t' new, Runs (linkVisits known [some 0] before) s stack t ∧
          Runs (linkVisit known stack v) t stack' t' ∧
          Runs (linkVisits known stack' after) t' [some 0] u ∧
          t'.events.toList = t.events.toList ++ new ∧
          ∀ kind caller callee place, Event.link kind caller callee place ∈ new →
            s.program.IsCaller v.node caller := by
  obtain ⟨vs, s₁, hvisits, hwalk⟩ := runs_bind.mp hlinked
  obtain ⟨rfl, hvs⟩ := of_runs_visits hvisits
  obtain ⟨final, hwalk⟩ := runs_discard.mp hwalk
  refine ⟨vs, hvisits, ?_⟩
  rcases of_runs_saved hsaved with
    ⟨hbare, -⟩ | ⟨root, path, p, -, hroot, henrolled, htable, hstored⟩
  · -- there is nothing to walk through
    rw [hbare.root?_eq] at hvs
    obtain rfl : vs = [] := hvs
    obtain ⟨rfl, rfl⟩ := runs_pure.mp hwalk
    exact ⟨rfl, fun before v after hsplit =>
      absurd hsplit.symm (append_ne_nil_of_right_ne_nil _ (cons_ne_nil _ _))⟩
  · have hsame : s.program.root? = some root := htable.root?_eq.trans henrolled.root?_eq
    rw [hsame] at hvs
    obtain rfl : vs = root.toElement.walk := hvs
    rw [treeNodes_eq hsame] at hdistinct
    obtain ⟨horderly, hback⟩ := isRound_walk hroot
    have hend := (Stacked.linkVisits henrolled hroot htable hdistinct hstored
      (Enlarges.refl s) horderly rfl hwalk).2.2
    rw [hback] at hend
    obtain rfl : final = [some 0] := hend
    refine ⟨hwalk, fun before v after hsplit => ?_⟩
    -- the walk up to the visit tells which symbols it is inside of
    rw [hsplit] at hwalk horderly
    obtain ⟨hbefore, hv, -⟩ := orderly_append.mp horderly
    obtain ⟨stack, t, hrunBefore, hrest⟩ := runs_linkVisits_append.mp hwalk
    obtain ⟨stack', t', hvisit, hrunAfter⟩ := runs_bind.mp hrest
    obtain ⟨ht, hstart, hstack⟩ :=
      Stacked.linkVisits henrolled hroot htable hdistinct hstored (Enlarges.refl s) hbefore rfl
        hrunBefore
    obtain ⟨new, hnew, hcallers⟩ :=
      exists_links_of_runs henrolled hroot htable hstored ht hstart hv hstack hvisit
    exact ⟨stack, t, stack', t', new, hrunBefore, hvisit, hrunAfter, hnew, hcallers⟩

/-- A program with two procedures of one name, which are performed by both of them and from
outside. -/
def namesakeProcedures : Scan :=
  ⟨unread ⟨"A.ezt", 0⟩ (.file "A.ezt")
    (some "JOB\nPERFORM X\nX PROC\nPERFORM X\nx PROC\nPERFORM X\n"), #[]⟩

theorem links_start_from_enclosing_namesakes :
    ∃ s u, Runs (do readProgram []; resolve [] none; discard (save 0 none)) namesakeProcedures
      () s ∧
      Runs (saveLinks fun _ => none) s () u ∧
        (u.events.toList.filterMap Event.caller?).map (·.index) = [0, 0, 1, 1, 2, 2] ∧
      ∃ vs, Runs visits s vs s ∧ Runs (linkVisits (fun _ => none) [some 0] vs) s [some 0] u := by
  have hsaved : Runs (do readProgram []; resolve [] none; discard (save 0 none)) namesakeProcedures
      () _ :=
    runs_of_isOk (by decide +kernel)
  have hlinked : Runs (saveLinks fun _ => none)
      ((do readProgram []; resolve [] none; discard (save 0 none) :
        Work Scan Unit).runOn namesakeProcedures).2 () _ :=
    runs_of_isOk (by decide +kernel)
  obtain ⟨vs, hvisits, hwalk, -⟩ := links_start_from_enclosing hsaved hlinked (by decide +kernel)
  exact ⟨_, _, hsaved, hlinked, by decide +kernel, vs, hvisits, hwalk⟩

end Scan

end EztScan
