import EztScan.Proofs.Analysing
import EztScan.Proofs.SourceTree
import EztScan.Proofs.SymbolTable

/-!
# What a program declares

After its source has been read, a program has one symbol for each file, procedure, report and query
in the tree, in the order in which a walk enters them (`Program.Enrolled`). Files, procedures and
reports are members of the program, and queries of the procedure that they stand in. Declaring stops
exactly if a name is missing, and names can be missing only of files and of reports
(`runs_readProgram`).

Each node of a tree is seen together with the procedure around it (`Node.placed`): sections stand in
none, and terms in the section that they are part of, if it is a procedure.
-/

namespace EztScan

open Element EztScan.Language Work List Program
variable {es : List Element} {i : Nat} {cs cs' : List Symbol}
variable {n root : Node} {d : Option Node × Node} {encl : Option Node} {c : Symbol}
  {ds : List (Option Node × Node)} {kind : SymbolKind} {name : String}

/-! ### Where nodes stand -/

namespace Node

/-- Is the node a procedure? -/
def isProcedure (n : Node) : Bool :=
  n.head.kind.name == "Procedure"

/-- The procedure that the nodes in this node stand in. -/
def enclosure? (n : Node) : Option Node :=
  if n.isProcedure then some n else none

/-- The nodes below the root of a source, each with the procedure that it stands in. -/
def placed (root : Node) : List (Option Node × Node) :=
  (nodes root.children).flatMap fun n => (none, n) :: (nodes n.children).map (n.enclosure?, ·)

end Node

/-- All nodes, one level after the other. -/
theorem allNodes_eq_flatMap (es : List Element) :
    allNodes es = (nodes es).flatMap fun n => n :: allNodes n.children := by
  induction es with
  | nil => exact allNodes_nil
  | cons e es ih =>
    rw [allNodes_cons, ih]
    cases e with
    | token =>
      rw [allNodes_token]
      rfl
    | node hd cs =>
      change allNodes [Node.toElement ⟨hd, cs⟩] ++ _ = _
      rw [allNodes_node]
      rfl

theorem nodes_of_tokens (h : ∀ e ∈ es, ∃ t, e = .token t) : nodes es = [] := by
  refine filterMap_eq_nil_iff.mpr fun e he => ?_
  obtain ⟨t, rfl⟩ := h e he
  rfl

theorem mem_nodes : n ∈ nodes es ↔ n.toElement ∈ es := by
  constructor
  · intro h
    obtain ⟨e, he, hnode⟩ := mem_filterMap.mp h
    cases e with
    | token => cases hnode
    | node =>
      obtain rfl := Option.some.inj hnode
      exact he
  · exact fun h => mem_filterMap.mpr ⟨_, h, rfl⟩

namespace Node

variable {n root : Node}

theorem IsTerm.nodes_eq (h : n.IsTerm) : nodes n.children = [] :=
  nodes_of_tokens h.tokens

/-- The nodes in a section are terms. -/
theorem IsSection.isTerm (h : n.IsSection) {m : Node} (hm : m ∈ nodes n.children) : m.IsTerm := by
  rcases h.parts _ (mem_nodes.mp hm) with ⟨t, ht⟩ | ⟨m', hm', hterm⟩
  · cases ht
  · rw [eq_of_toElement_eq hm']
    exact hterm

/-- The nodes in the root of a source are terms and sections. -/
theorem IsSource.isPart (h : root.IsSource) (hn : n ∈ nodes root.children) :
    n.IsTerm ∨ n.IsSection := by
  rcases h.parts _ (mem_nodes.mp hn) with ⟨t, ht⟩ | ⟨m, hm, hpart⟩
  · cases ht
  · rw [eq_of_toElement_eq hm]
    exact hpart

/-- Further down there are only terms. -/
theorem IsSource.isTerm (h : root.IsSource) (hn : n ∈ nodes root.children) {m : Node}
    (hm : m ∈ nodes n.children) : m.IsTerm := by
  rcases h.isPart hn with hterm | hsection
  · rw [hterm.nodes_eq] at hm
    exact absurd hm not_mem_nil
  · exact hsection.isTerm hm

/-- Sections stand in no procedure. -/
theorem IsSource.of_mem_placed (h : root.IsSource) (hd : d ∈ root.placed) :
    d.2.IsTerm ∨ d.1 = none ∧ d.2.IsSection := by
  obtain ⟨n, hn, hd⟩ := mem_flatMap.mp hd
  rcases mem_cons.mp hd with rfl | hd
  · exact (h.isPart hn).imp_right fun hsection => ⟨rfl, hsection⟩
  · obtain ⟨m, hm, rfl⟩ := mem_map.mp hd
    exact .inl (h.isTerm hn hm)

/-- The root of a source is a program or a macro. -/
theorem IsSource.of_names {P : String → Prop} (h : root.IsSource) (hprogram : P program.kind.name)
    (hmacroForm : P macroForm.kind.name) : P root.head.kind.name := by
  rcases h.kind with hkind | hkind
  · exact hkind ▸ hprogram
  · exact hkind ▸ hmacroForm

/-- The nodes of a source are its root and those that are placed below it. -/
theorem IsSource.allNodes_eq (h : root.IsSource) :
    allNodes [root.toElement] = root :: root.placed.map (·.2) := by
  have hinner : ∀ n ∈ nodes root.children, allNodes n.children = nodes n.children := by
    intro n hn
    rw [allNodes_eq_flatMap,
      flatMap_congr fun m hm => by rw [allNodes_of_tokens (h.isTerm hn hm).tokens],
      flatMap_singleton']
  rw [allNodes_node, allNodes_eq_flatMap, placed, map_flatMap]
  congr 1
  refine flatMap_congr fun n hn => ?_
  rw [hinner n hn, map_cons, map_map]
  exact congrArg _ (map_id _).symm

end Node

/-! ### What nodes declare -/

namespace Node

variable {n root : Node}

/-- Does the node declare something? -/
def declares (n : Node) : Bool :=
  (Scan.declaredKind n).isSome

/-- The declaration has a name. -/
def IsNamed (n : Node) : Prop :=
  ∃ name, declaredName n = .ok (some name)

/-- The declarations among the parts of a source have names. -/
def IsDeclarable (root : Node) : Prop :=
  ∀ n ∈ nodes root.children, n.declares = true → n.IsNamed

/-- The declarations in a source, each with the procedure that it stands in. -/
def declarations (root : Node) : List (Option Node × Node) :=
  root.placed.filter (·.2.declares)

theorem declaredKind_of_kind {r : Rule} (h : n.head.kind = r.kind) :
    Scan.declaredKind n = Scan.declaredKind ⟨{ kind := r.kind }, []⟩ := by
  rw [← h]
  rfl

/-- Of all terms only queries declare something. -/
theorem IsTerm.declaredKind_eq (h : n.IsTerm) (hn : n.declares = true) :
    Scan.declaredKind n = some .query ∧ n.head.kind.name = "SQL" := by
  have hrules : ∀ r ∈ termRules, (Scan.declaredKind ⟨{ kind := r.kind }, []⟩).isSome = true →
      Scan.declaredKind ⟨{ kind := r.kind }, []⟩ = some .query ∧ r.kind.name = "SQL" := by
    decide
  obtain ⟨r, hr, hkind⟩ := h.kind
  unfold declares at hn
  rw [declaredKind_of_kind hkind] at hn ⊢
  rw [hkind]
  exact hrules r hr hn

/-- Queries always have names, as these are made from their texts. -/
theorem IsTerm.isNamed (h : n.IsTerm) (hn : n.declares = true) : n.IsNamed :=
  h.query (h.declaredKind_eq hn).2

theorem IsTerm.isProcedure_eq (h : n.IsTerm) : n.isProcedure = false := by
  have hrules : ∀ r ∈ termRules, (r.kind.name == "Procedure") = false := by decide
  obtain ⟨r, hr, hkind⟩ := h.kind
  unfold isProcedure
  rw [hkind]
  exact hrules r hr

/-- Procedures are the sections that declare procedures, and no section declares a query. -/
theorem IsSection.declaredKind_iff (h : n.IsSection) :
    (Scan.declaredKind n = some .procedure ↔ n.isProcedure = true) ∧
      Scan.declaredKind n ≠ some .query := by
  have hrules : ∀ r ∈ sectionRules, (Scan.declaredKind ⟨{ kind := r.kind }, []⟩ = some .procedure ↔
      (r.kind.name == "Procedure") = true) ∧
        Scan.declaredKind ⟨{ kind := r.kind }, []⟩ ≠ some .query := by
    decide
  obtain ⟨r, hr, hkind⟩ := h.kind
  unfold isProcedure
  rw [declaredKind_of_kind hkind, hkind]
  exact hrules r hr

end Node

/-! ### Declared symbols -/

/-- The symbol of a declaration, as a member of `parent`. -/
def Node.symbolOf (n : Node) (kind : SymbolKind) (name : String) (parent : Nat) : Symbol :=
  { kind, name, parent := some parent, line := n.span.beginLine, tree := .root n }

/-- What is written on the card of a program. -/
def ProgramId.card (i : ProgramId) (origin : Origin) (root : Node) : Symbol :=
  { kind := .program, name := nameAt i.path, origin, tree := .root root }

/-- The symbol with the number `i` is the one of the procedure, or of the program if no procedure is
given. -/
def Stands (cs : List Symbol) : Option Node → Nat → Prop
  | none, i => i = 0
  | some n, i => ∃ c, cs[i]? = some c ∧ c.kind = .procedure ∧ c.tree = .root n ∧ c.parent = some 0

/-- What is written on the card of a symbol, the `k`th that is declared in a source: it tells of the
declaration. -/
structure Entered (cs : List Symbol) (k : Nat) (c : Symbol) (d : Option Node × Node) : Prop where
  kind : Scan.declaredKind d.2 = some c.kind
  name : declaredName d.2 = .ok (some c.name)
  line : c.line = d.2.span.beginLine
  tree : c.tree = .root d.2
  origin : c.origin = .nowhere
  parent : ∃ i ≤ k, c.parent = some i ∧ Stands cs d.1 i

/-- The symbols of a program are itself and those of some declarations, in their order. Nothing has
been stored yet. -/
structure Program.Enrolled (i : ProgramId) (origin : Origin) (root : Node)
    (ds : List (Option Node × Node)) (p : Program) : Prop where
  id : p.id = i
  made : p.made = 0
  indexed : p.Indexed
  fresh : ∀ s ∈ p.symbols, s.stored = none ∧ s.guids = []
  own : p.cards[0]? = some (i.card origin root)
  length : p.symbols.length = ds.length + 1
  entered : ∀ (k : Nat) d, ds[k]? = some d → ∃ c, p.cards[k + 1]? = some c ∧ Entered p.cards k c d

theorem getElem?_of_isPrefix {α : Type} {as bs : List α} (h : as <+: bs) {a : α}
    (ha : as[i]? = some a) : bs[i]? = some a := by
  obtain ⟨cs, rfl⟩ := h
  rw [getElem?_append_left (List.getElem?_eq_some_iff.mp ha).1, ha]

theorem Stands.of_isPrefix (hcs : cs <+: cs') (h : Stands cs encl i) : Stands cs' encl i := by
  cases encl with
  | none => exact h
  | some =>
    obtain ⟨c, hc, hcard⟩ := h
    exact ⟨c, getElem?_of_isPrefix hcs hc, hcard⟩

/-- What has been entered stays entered when more is declared. -/
theorem Entered.of_isPrefix (hcs : cs <+: cs') {k : Nat} (h : Entered cs k c d) :
    Entered cs' k c d := by
  obtain ⟨i, hik, hi, hstands⟩ := h.parent
  exact { h with parent := ⟨i, hik, hi, hstands.of_isPrefix hcs⟩ }

namespace Program

variable {p q : Program}
variable {kinds : List SymbolKind} {id : Nat} {c : Symbol}

/-- The way up from a symbol depends only on what is written on the cards. -/
theorem ancestorIdWithin_succ (p : Program) (kinds : List SymbolKind) (fuel id : Nat) :
    p.ancestorIdWithin kinds (fuel + 1) id = p.cards[id]?.bind fun c =>
      if kinds.contains c.kind then some id else c.parent.bind (p.ancestorIdWithin kinds fuel) := by
  rw [ancestorIdWithin, getElem?_cards]
  cases p.symbols[id]? with
  | none => rfl
  | some s =>
    rw [Option.map_some, Option.bind_some, Symbol.card_kind, Symbol.card_parent]
    dsimp only
    cases s.parent with
    | none | some => rfl

/-- So it does not depend on what is declared later. -/
theorem ancestorIdWithin_of_isPrefix (hcards : p.cards <+: q.cards) (kinds : List SymbolKind)
    {fuel id : Nat} (h : p.ancestorIdWithin kinds fuel id = some i) :
    q.ancestorIdWithin kinds fuel id = some i := by
  induction fuel generalizing id with
  | zero => cases h
  | succ fuel ih =>
    rw [ancestorIdWithin_succ] at h ⊢
    obtain ⟨c, hc, h⟩ := Option.bind_eq_some_iff.mp h
    rw [getElem?_of_isPrefix hcards hc, Option.bind_some]
    by_cases hkind : kinds.contains c.kind = true
    · rw [if_pos hkind] at h ⊢
      exact h
    · rw [if_neg hkind] at h ⊢
      obtain ⟨parent, hparent, h⟩ := Option.bind_eq_some_iff.mp h
      exact Option.bind_eq_some_iff.mpr ⟨parent, hparent, ih h⟩

theorem ancestorId_of_contains (hc : p.cards[id]? = some c)
    (hkind : kinds.contains c.kind = true) : p.ancestorId id kinds = some id := by
  rw [ancestorId, ancestorIdWithin_succ, hc, Option.bind_some, if_pos hkind]

/-- From a member of the program that is of none of the kinds, the way up leads to the program. -/
theorem ancestorId_of_member (hid : 0 < id) {own : Symbol} (hc : p.cards[id]? = some c)
    (hkind : kinds.contains c.kind = false) (hparent : c.parent = some 0)
    (hown : p.cards[0]? = some own) (hcontains : kinds.contains own.kind = true) :
    p.ancestorId id kinds = some 0 := by
  obtain ⟨fuel, rfl⟩ : ∃ fuel, id = fuel + 1 := ⟨id - 1, by omega⟩
  -- one step up, from the member to the program
  rw [ancestorId, ancestorIdWithin_succ, hc, Option.bind_some, hkind, if_neg Bool.false_ne_true,
    hparent, Option.bind_some, ancestorIdWithin_succ, hown, Option.bind_some, if_pos hcontains]

theorem Enrolled.pos {i : ProgramId} {origin : Origin} (h : p.Enrolled i origin root ds) :
    0 < p.symbols.length :=
  h.length ▸ Nat.succ_pos _

/-- A new symbol for a declaration is entered behind the others. -/
theorem Enrolled.declare {i : ProgramId} {origin : Origin} (h : p.Enrolled i origin root ds)
    (hkind : Scan.declaredKind n = some kind) (hname : declaredName n = .ok (some name))
    {parent : Nat} (hparent : parent < p.symbols.length) (hstands : Stands p.cards encl parent) :
    (p.declare parent name (n.symbolOf kind name parent)).1.Enrolled i origin root
      (ds ++ [(encl, n)]) := by
  let s : Symbol := n.symbolOf kind name parent
  have hcards : (p.declare parent name s).1.cards = p.cards ++ [s] := p.cards_declare parent name s
  have hgrows : p.cards <+: (p.declare parent name s).1.cards := ⟨[s], hcards.symm⟩
  have hlength : (p.declare parent name s).1.symbols.length = p.symbols.length + 1 := by
    rw [← length_cards, hcards, length_append, length_cards]
    rfl
  refine ⟨h.id, h.made, h.indexed.declare hparent rfl rfl, fun t ht => ?_,
    getElem?_of_isPrefix hgrows h.own, ?_, fun k d hd => ?_⟩
  · -- the new symbol is as fresh as the others, and its owner has a member more
    have hall : ∀ t ∈ p.symbols ++ [s], t.stored = none ∧ t.guids = [] :=
      forall_mem_append.mpr ⟨h.fresh, forall_mem_singleton.mpr ⟨rfl, rfl⟩⟩
    rcases mem_modifySymbol ht with ht | ⟨t', ht', rfl⟩
    · exact hall t ht
    · exact hall t' ht'
  · rw [hlength, h.length, length_append]
    rfl
  · -- the declarations before have kept their places, and the new one is the last
    by_cases hk : k < ds.length
    · rw [getElem?_append_left hk] at hd
      obtain ⟨c, hc, hentered⟩ := h.entered k d hd
      exact ⟨c, getElem?_of_isPrefix hgrows hc, hentered.of_isPrefix hgrows⟩
    · rw [getElem?_append_right (Nat.le_of_not_lt hk)] at hd
      obtain ⟨hlt, hat⟩ := List.getElem?_eq_some_iff.mp hd
      obtain rfl : k = ds.length := by
        have : k - ds.length < 1 := hlt
        omega
      obtain rfl : (encl, n) = d := by simpa using hat
      refine ⟨s, ?_, hkind, hname, rfl, rfl, rfl, parent, ?_, rfl, hstands.of_isPrefix hgrows⟩
      · rw [hcards, getElem?_append_right (by rw [length_cards, h.length]), length_cards,
          h.length, Nat.sub_self]
        rfl
      · have := h.length
        omega

end Program

namespace Program

variable {i : ProgramId} {origin : Origin} {root : Node} {p : Program}
variable {k : Nat}

/-- The card of a symbol other than the program itself tells of a declaration in the source. -/
theorem Enrolled.exists_entered (h : p.Enrolled i origin root ds)
    (hc : p.cards[k + 1]? = some c) : ∃ d, ds[k]? = some d ∧ Entered p.cards k c d := by
  have hk : k < ds.length := by
    have hlt := (List.getElem?_eq_some_iff.mp hc).1
    rw [length_cards, h.length] at hlt
    exact Nat.lt_of_succ_lt_succ hlt
  obtain ⟨c', hc', hentered⟩ := h.entered k ds[k] (getElem?_eq_getElem hk)
  obtain rfl : c = c' := Option.some.inj (hc.symm.trans hc')
  exact ⟨_, getElem?_eq_getElem hk, hentered⟩

theorem mem_placed_of_getElem? (hd : root.declarations[k]? = some d) : d ∈ root.placed :=
  (mem_filter.mp (mem_of_getElem? hd)).1

end Program

namespace Scan

variable {i : ProgramId} {origin : Origin} {root : Node} {ds : List (Option Node × Node)}
  {p : Program} (events : Array Event)
variable {n : Node} {owner parent : Nat} {es : List Element} {encl : Option Node}

/-- A declaration that is no query becomes a member of the symbol it stands in. -/
theorem runs_declareNode (hkind : declaredKind n = some kind)
    (hname : declaredName n = .ok (some name))
    (hparent : if kind = .query then p.ancestorId owner [.program, .procedure] = some parent
      else owner = parent) :
    Runs (declareNode owner n) ⟨p, events⟩ p.symbols.length
      ⟨(p.declare parent name (n.symbolOf kind name parent)).1, events⟩ := by
  have howner : Runs (ownerFor kind owner) ⟨p, events⟩ parent ⟨p, events⟩ := by
    unfold ownerFor
    by_cases hq : kind = .query
    · rw [if_pos hq] at hparent ⊢
      refine runs_bind.mpr ⟨p, ⟨p, events⟩, rfl, ?_⟩
      rw [hparent]
      rfl
    · rw [if_neg hq] at hparent ⊢
      rw [hparent]
      rfl
  unfold declareNode
  rw [hkind]
  refine runs_bind.mpr ⟨some name, ⟨p, events⟩, ?_, runs_bind.mpr ⟨parent, _, howner, rfl⟩⟩
  rw [hname]
  rfl

/-- A node that declares nothing hands on the symbol it stands in. -/
theorem runs_declareNode_of_not (hn : n.declares = false) (owner : Nat) (s : Scan) :
    Runs (declareNode owner n) s owner s := by
  have hkind : declaredKind n = none :=
    Option.isNone_iff_eq_none.mp (Option.isSome_eq_false_iff.mp hn)
  unfold declareNode
  rw [hkind]
  rfl

theorem runs_declareAll_tokens (hes : ∀ e ∈ es, ∃ t, e = .token t) (owner : Nat) (s : Scan) :
    Runs (declareAll owner es) s () s := by
  induction es with
  | nil =>
    rw [declareAll]
    rfl
  | cons e es ih =>
    obtain ⟨⟨t, rfl⟩, hrest⟩ := forall_mem_cons.mp hes
    rw [declareAll, declareIn]
    exact runs_bind.mpr ⟨(), s, rfl, ih hrest⟩

/-- A query becomes a member of the procedure that it stands in, or else of the program. Other terms
declare nothing. -/
theorem runs_declareTerm (h : p.Enrolled i origin root ds) (hn : n.IsTerm)
    (hancestor : p.ancestorId owner [.program, .procedure] = some parent)
    (hparent : parent < p.symbols.length) (hstands : Stands p.cards encl parent) :
    ∃ q, Runs (declareIn owner n.toElement) ⟨p, events⟩ () ⟨q, events⟩ ∧
      q.Enrolled i origin root (ds ++ [(encl, n)].filter (·.2.declares)) ∧ p.cards <+: q.cards := by
  change ∃ q, Runs (declareIn owner (.node n.head n.children)) _ _ _ ∧ _
  rw [declareIn]
  cases hdeclares : n.declares with
  | false =>
    refine ⟨p, runs_bind.mpr ⟨owner, _, runs_declareNode_of_not hdeclares owner _, ?_⟩, ?_,
      prefix_rfl⟩
    · exact runs_declareAll_tokens hn.tokens owner _
    · rw [filter_cons_of_neg (by simp [hdeclares]), filter_nil, append_nil]
      exact h
  | true =>
    obtain ⟨hkind, -⟩ := hn.declaredKind_eq hdeclares
    obtain ⟨name, hname⟩ := hn.isNamed hdeclares
    have howner : if SymbolKind.query = .query
        then p.ancestorId owner [.program, .procedure] = some parent else owner = parent := by
      rw [if_pos rfl]
      exact hancestor
    -- a query has nothing inside that could be declared
    refine ⟨(p.declare parent name (n.symbolOf .query name parent)).1,
      runs_bind.mpr ⟨_, _, runs_declareNode events hkind hname howner, ?_⟩, ?_, ?_⟩
    · exact runs_declareAll_tokens hn.tokens _ _
    · rw [filter_cons_of_pos (by simp [hdeclares]), filter_nil]
      exact h.declare hkind hname hparent hstands
    · exact ⟨_, (p.cards_declare _ _ _).symm⟩

/-- If the nodes among some elements can be declared one after the other, then so can all of the
elements. `I` is what stays known about the program meanwhile. -/
theorem runs_declareAll {I : Program → Prop} {g : Node → List (Option Node × Node)}
    (hes : ∀ n ∈ nodes es, ∀ (ds : List (Option Node × Node)) (p : Program),
      p.Enrolled i origin root ds → I p →
      ∃ q, Runs (declareIn owner n.toElement) ⟨p, events⟩ () ⟨q, events⟩ ∧
        q.Enrolled i origin root (ds ++ (g n).filter (·.2.declares)) ∧ I q) :
    ∀ {ds : List (Option Node × Node)} {p : Program}, p.Enrolled i origin root ds → I p →
      ∃ q, Runs (declareAll owner es) ⟨p, events⟩ () ⟨q, events⟩ ∧
        q.Enrolled i origin root (ds ++ ((nodes es).flatMap g).filter (·.2.declares)) := by
  induction es with
  | nil =>
    intro ds p h _
    refine ⟨p, ?_, ?_⟩
    · rw [declareAll]
      rfl
    · rw [show nodes [] = [] from rfl, flatMap_nil, filter_nil, append_nil]
      exact h
  | cons e es ih =>
    intro ds p h hI
    rw [declareAll]
    cases e with
    | token =>
      obtain ⟨q, hq, henrolled⟩ := ih hes h hI
      refine ⟨q, runs_bind.mpr ⟨(), ⟨p, events⟩, ?_, hq⟩, henrolled⟩
      rw [declareIn]
      rfl
    | node hd cs =>
      have hnodes : nodes (Element.node hd cs :: es) = ⟨hd, cs⟩ :: nodes es := rfl
      rw [hnodes] at hes ⊢
      obtain ⟨hn, hes⟩ := forall_mem_cons.mp hes
      -- what the first node declares comes before all that the others do
      obtain ⟨p₁, hp₁, henrolled₁, hI₁⟩ := hn ds p h hI
      obtain ⟨q, hq, henrolled⟩ := ih hes henrolled₁ hI₁
      refine ⟨q, runs_bind.mpr ⟨(), _, hp₁, hq⟩, ?_⟩
      rw [append_assoc, ← filter_append] at henrolled
      exact henrolled

/-- The queries among terms become members of the procedure that the terms stand in, or else of the
program. -/
theorem runs_declareTerms (hes : ∀ n ∈ nodes es, n.IsTerm) (h : p.Enrolled i origin root ds)
    (hancestor : p.ancestorId owner [.program, .procedure] = some parent)
    (hparent : parent < p.symbols.length) (hstands : Stands p.cards encl parent) :
    ∃ q, Runs (declareAll owner es) ⟨p, events⟩ () ⟨q, events⟩ ∧
      q.Enrolled i origin root (ds ++ ((nodes es).map (encl, ·)).filter (·.2.declares)) := by
  rw [map_eq_flatMap]
  refine runs_declareAll events (I := fun p =>
    p.ancestorId owner [.program, .procedure] = some parent ∧ parent < p.symbols.length ∧
      Stands p.cards encl parent) ?_ h ⟨hancestor, hparent, hstands⟩
  rintro n hn ds p h ⟨hancestor, hparent, hstands⟩
  obtain ⟨q, hq, henrolled, hgrows⟩ :=
    runs_declareTerm events h (hes n hn) hancestor hparent hstands
  -- what was known about the place is still known
  have hlength : p.symbols.length ≤ q.symbols.length := by
    rw [← length_cards, ← length_cards]
    exact hgrows.length_le
  exact ⟨q, hq, henrolled, ancestorIdWithin_of_isPrefix hgrows _ hancestor,
    Nat.lt_of_lt_of_le hparent hlength, hstands.of_isPrefix hgrows⟩

/-- A section becomes a member of the program, if it declares something, and then the queries in it
are declared. -/
theorem runs_declareSection (h : p.Enrolled i origin root ds) (hn : n.IsSection)
    (hnamed : n.declares = true → n.IsNamed) :
    ∃ q, Runs (declareIn 0 n.toElement) ⟨p, events⟩ () ⟨q, events⟩ ∧ q.Enrolled i origin root
        (ds ++ ((none, n) :: (nodes n.children).map (n.enclosure?, ·)).filter (·.2.declares)) := by
  obtain ⟨hprocedure, hquery⟩ := hn.declaredKind_iff
  change ∃ q, Runs (declareIn 0 (.node n.head n.children)) _ _ _ ∧ _
  rw [declareIn]
  cases hdeclares : n.declares with
  | false =>
    -- the terms stand in no procedure, as a procedure would declare something
    have hencl : n.enclosure? = none := by
      refine if_neg fun hisProcedure => ?_
      unfold Node.declares at hdeclares
      rw [hprocedure.mpr hisProcedure] at hdeclares
      cases hdeclares
    have hancestor : p.ancestorId 0 [.program, .procedure] = some 0 :=
      ancestorId_of_contains h.own rfl
    obtain ⟨q, hq, henrolled⟩ :=
      runs_declareTerms events (fun m hm => hn.isTerm hm) h hancestor h.pos
        (show Stands p.cards none 0 from rfl)
    refine ⟨q, runs_bind.mpr ⟨0, _, runs_declareNode_of_not hdeclares 0 _, hq⟩, ?_⟩
    rw [filter_cons_of_neg (by simp [hdeclares]), hencl]
    exact henrolled
  | true =>
    -- the section first, and then the terms in it
    obtain ⟨name, hname⟩ := hnamed hdeclares
    obtain ⟨kind, hkind⟩ := Option.isSome_iff_exists.mp hdeclares
    have howner : if kind = .query then p.ancestorId 0 [.program, .procedure] = some 0
        else (0 : Nat) = 0 := by
      rw [if_neg]
      rintro rfl
      exact hquery hkind
    have henrolled := h.declare hkind hname h.pos (show Stands p.cards none 0 from rfl)
    have hrun := runs_declareNode events hkind hname howner
    generalize hp₁ : (p.declare 0 name (n.symbolOf kind name 0)).1 = p₁ at henrolled hrun
    have hcard : p₁.cards[p.symbols.length]? = some (n.symbolOf kind name 0) := by
      rw [← hp₁, cards_declare, getElem?_append_right (by rw [length_cards]), length_cards,
        Nat.sub_self]
      rfl
    have hlength : p.symbols.length < p₁.symbols.length := by
      rw [henrolled.length, h.length, length_append]
      exact Nat.lt_succ_self _
    -- what the terms belong to is the new symbol, or the program if that is no procedure
    obtain ⟨parent, hparent, hancestor, hstands⟩ : ∃ parent < p₁.symbols.length,
        p₁.ancestorId p.symbols.length [.program, .procedure] = some parent ∧
          Stands p₁.cards n.enclosure? parent := by
      unfold Node.enclosure?
      by_cases hisProcedure : n.isProcedure = true
      · obtain rfl : kind = .procedure :=
          Option.some.inj (hkind.symm.trans (hprocedure.mpr hisProcedure))
        refine ⟨p.symbols.length, hlength, ancestorId_of_contains hcard rfl, ?_⟩
        rw [if_pos hisProcedure]
        exact ⟨_, hcard, rfl, rfl, rfl⟩
      · have hother : [SymbolKind.program, .procedure].contains kind = false := by
          cases kind with
          | program => exact absurd rfl (Surroundings.declaredKind_ne_program hkind)
          | procedure => exact absurd (hprocedure.mp hkind) hisProcedure
          | _ => rfl
        refine ⟨0, Nat.lt_trans h.pos hlength, ?_, ?_⟩
        · exact ancestorId_of_member h.pos hcard hother rfl henrolled.own rfl
        · rw [if_neg hisProcedure]
          rfl
    obtain ⟨q, hq, henrolled'⟩ :=
      runs_declareTerms events (fun m hm => hn.isTerm hm) henrolled hancestor hparent hstands
    refine ⟨q, runs_bind.mpr ⟨_, _, hrun, hq⟩, ?_⟩
    rw [filter_cons_of_pos (by simp [hdeclares])]
    rw [append_assoc, singleton_append] at henrolled'
    exact henrolled'

/-- What the parts of a source declare becomes symbols, if all of it has names. -/
theorem runs_declareParts (hes : ∀ n ∈ nodes es, n.IsTerm ∨ n.IsSection)
    (hnamed : ∀ n ∈ nodes es, n.declares = true → n.IsNamed) (h : p.Enrolled i origin root ds) :
    ∃ q, Runs (declareAll 0 es) ⟨p, events⟩ () ⟨q, events⟩ ∧
      q.Enrolled i origin root (ds ++ ((nodes es).flatMap fun n =>
        (none, n) :: (nodes n.children).map (n.enclosure?, ·)).filter (·.2.declares)) := by
  refine runs_declareAll events (I := fun _ => True) (fun n hn ds p h _ => ?_) h trivial
  rcases hes n hn with hterm | hsection
  · -- a term is like a section without nodes
    obtain ⟨q, hq, henrolled, -⟩ := runs_declareTerm events h hterm
      (ancestorId_of_contains h.own rfl) h.pos (show Stands p.cards none 0 from rfl)
    rw [hterm.nodes_eq, map_nil]
    exact ⟨q, hq, henrolled, trivial⟩
  · obtain ⟨q, hq, henrolled⟩ := runs_declareSection events h hsection (hnamed n hn)
    exact ⟨q, hq, henrolled, trivial⟩

/-- Declarations without a name stop the work. -/
theorem isNamed_of_runs : ∀ {s t : Scan}, Runs (declareAll owner es) s () t →
    ∀ n ∈ nodes es, n.declares = true → n.IsNamed := by
  induction es with
  | nil => exact fun _ n hn => absurd hn not_mem_nil
  | cons e es ih =>
    intro s t h n hn hdeclares
    rw [declareAll] at h
    obtain ⟨_, s₁, hfirst, hrest⟩ := runs_bind.mp h
    cases e with
    | token => exact ih hrest n hn hdeclares
    | node hd cs =>
      rcases mem_cons.mp (show n ∈ ⟨hd, cs⟩ :: nodes es from hn) with rfl | hn
      · rw [declareIn] at hfirst
        obtain ⟨id, s₂, hnode, -⟩ := runs_bind.mp hfirst
        obtain ⟨kind, hkind⟩ := Option.isSome_iff_exists.mp hdeclares
        unfold declareNode at hnode
        rw [hkind] at hnode
        obtain ⟨name, s₃, hname, hdeclare⟩ := runs_bind.mp hnode
        -- the name is asked for last, when the owner is known
        obtain ⟨parent, s₄, -, hdeclare⟩ := runs_bind.mp hdeclare
        cases name with
        | none => exact absurd hdeclare not_runs_throw
        | some name => exact ⟨name, congrArg Prod.fst hname⟩
      · exact ih hrest n hn hdeclares

end Scan

/-! ### Reading a source -/

namespace Program

/-- The source of the program is read into a tree with this root. -/
def Reads (files : SourceFiles) (p : Program) (root : Node) : Prop :=
  ∃ source, p.source? files = some source ∧ Scan.treeOf source = .ok (.root root)

/-- The root of the tree of a program. -/
def root? (p : Program) : Option Node :=
  (p.symbols[0]?).bind (·.tree.root?)

/-- A program that has no tree yet, so that nothing has been declared. -/
def IsBare (i : ProgramId) (origin : Origin) (text : Option String) (p : Program) : Prop :=
  ∃ tree : SyntaxTree, tree.isEmpty = true ∧ p = (unread i origin text).withTree tree

/-- A program that has been read has the tree of its source, and the declarations in it as its
symbols. If there is no such tree, it is still without one. -/
def HasRead (files : SourceFiles) (i : ProgramId) (origin : Origin) (text : Option String)
    (p : Program) : Prop :=
  (p.IsBare i origin text ∧ ∀ root, ¬ (unread i origin text).Reads files root) ∨
    ∃ root, (unread i origin text).Reads files root ∧ root.IsDeclarable ∧
      p.Enrolled i origin root root.declarations

variable {i : ProgramId} {origin : Origin} {text : Option String} {p : Program}

theorem withTree_withTree (p : Program) (old tree : SyntaxTree) :
    (p.withTree old).withTree tree = p.withTree tree := by
  simp [withTree, modifySymbol, modify_modify_eq, Function.comp_def]

theorem withTree_unread (i : ProgramId) (origin : Origin) (text : Option String)
    (tree : SyntaxTree) :
    (unread i origin text).withTree tree =
      { id := i, text,
        symbols := [{ kind := .program, name := nameAt i.path, origin, tree }] } := by
  unfold unread withTree modifySymbol
  rw [modify_zero_cons]

theorem isBare_unread (i : ProgramId) (origin : Origin) (text : Option String) :
    (unread i origin text).IsBare i origin text :=
  ⟨.absent, rfl, (Scan.withTree_absent rfl rfl).symm⟩

theorem IsBare.root?_eq (h : p.IsBare i origin text) : p.root? = none := by
  obtain ⟨tree, htree, rfl⟩ := h
  rw [withTree_unread]
  cases tree with
  | root => cases htree
  | _ => rfl

theorem IsBare.source?_eq (h : p.IsBare i origin text) (files : SourceFiles) :
    p.source? files = (unread i origin text).source? files := by
  obtain ⟨old, -, rfl⟩ := h
  unfold source? path
  rw [withTree_unread]
  unfold unread
  dsimp only

theorem IsBare.refreshed_eq (h : p.IsBare i origin text) {files : SourceFiles} {source : String}
    (hsource : (unread i origin text).source? files = some source) {tree : SyntaxTree}
    (htree : Scan.treeOf source = .ok tree) :
    p.refreshed files = (unread i origin text).withTree tree := by
  rw [← h.source?_eq] at hsource
  obtain ⟨old, -, rfl⟩ := h
  unfold refreshed
  rw [hsource]
  dsimp only
  rw [htree]
  dsimp only
  rw [withTree_withTree, withTree_unread]

/-- Where no root can be read, a program that has no tree gets none with a root. -/
theorem IsBare.refreshed (h : p.IsBare i origin text) {files : SourceFiles}
    (hnone : ∀ root, ¬ (unread i origin text).Reads files root) :
    ∃ tree : SyntaxTree, tree.root? = none ∧
      p.refreshed files = (unread i origin text).withTree tree := by
  have hsame : ∃ tree : SyntaxTree, tree.root? = none ∧
      p = (unread i origin text).withTree tree := by
    obtain ⟨tree, hempty, heq⟩ := h
    refine ⟨tree, ?_, heq⟩
    cases tree with
    | root => cases hempty
    | _ => rfl
  cases hsource : (unread i origin text).source? files with
  | none =>
    unfold Program.refreshed
    rwa [h.source?_eq, hsource]
  | some source =>
    cases htree : Scan.treeOf source with
    | error =>
      unfold Program.refreshed
      rw [h.source?_eq, hsource]
      dsimp only
      rwa [htree]
    | ok tree =>
      refine ⟨tree, ?_, h.refreshed_eq hsource htree⟩
      cases tree with
      | root n => exact absurd ⟨source, hsource, htree⟩ (hnone n)
      | _ => rfl

/-- At first there is only the program itself. -/
theorem enrolled_withTree (i : ProgramId) (origin : Origin) (text : Option String) (root : Node) :
    ((unread i origin text).withTree (.root root)).Enrolled i origin root [] := by
  have hsymbols : ((unread i origin text).withTree (.root root)).symbols =
      [i.card origin root] := by
    rw [withTree_unread]
    unfold ProgramId.card
    dsimp only
  refine ⟨rfl, rfl, indexed_of_alone hsymbols ?_ ?_, fun s hs => ?_, ?_, ?_, fun k d hd => ?_⟩
  · unfold ProgramId.card
    dsimp only
  · unfold ProgramId.card
    dsimp only
  · rw [hsymbols] at hs
    rw [mem_singleton.mp hs]
    unfold ProgramId.card
    exact ⟨rfl, rfl⟩
  · rw [cards, hsymbols, map_singleton, getElem?_cons_zero]
    unfold ProgramId.card Symbol.card
    dsimp only
  · rw [hsymbols]
    rfl
  · cases hd

end Program

namespace Scan

variable {i : ProgramId} {origin : Origin} {text : Option String} {p : Program}
variable {s t : Scan} {files : SourceFiles}

theorem runs_symbol {id : Nat} {self : Symbol} :
    Runs (symbol id) s self t ↔ s.program.symbols[id]? = some self ∧ s = t := by
  have hsymbol : s.program.symbol id = .ok self ↔ s.program.symbols[id]? = some self := by
    unfold Program.symbol
    cases s.program.symbols[id]? with
    | none =>
      refine iff_of_false (fun h => ?_) fun h => ?_
      · cases h
      · cases h
    | some => rw [Except.ok.injEq, Option.some.injEq]
  rw [← hsymbol]
  exact runs_ofExcept

theorem runs_symbol_bind {id : Nat} {α : Type} {a : α} {k : Symbol → Work Scan α} :
    Runs (symbol id >>= k) s a t ↔ ∃ self, s.program.symbols[id]? = some self ∧
      Runs (k self) s a t := by
  rw [runs_bind]
  simp only [runs_symbol, and_assoc, exists_and_left, exists_eq_left']

/-- What goes on with the program as it is now. -/
theorem runs_program_bind {α : Type} {f : Program → Work Scan α} {a : α} :
    Runs (program? >>= f) s a t ↔ Runs (f s.program) s a t :=
  Iff.rfl

/-- **What is declared.** If a source is read and all its declarations have names, they become
symbols. -/
theorem runs_readProgram (hp : p.IsBare i origin text) (events : Array Event)
    (hreads : (unread i origin text).Reads files root) (hnamed : root.IsDeclarable) :
    ∃ s, Runs (readProgram files) ⟨p, events⟩ () s ∧ OnlyLogs ⟨p, events⟩ s ∧
      s.program.Enrolled i origin root root.declarations := by
  obtain ⟨source, hsource, htree⟩ := hreads
  obtain ⟨events', hlogs, hrefresh⟩ := runs_refreshTree files ⟨p, events⟩
  rw [hp.refreshed_eq hsource htree] at hrefresh
  have hread := isSource_of_treeOf htree
  obtain ⟨q, hq, henrolled⟩ := runs_declareParts events' (fun n hn => hread.isPart hn) hnamed
    (enrolled_withTree i origin text root)
  refine ⟨⟨q, events'⟩, runs_bind.mpr ⟨(), _, hrefresh, ?_⟩, hlogs, henrolled⟩
  rw [withTree_unread] at hq ⊢
  exact runs_bind.mpr ⟨_, _, rfl, hq⟩

/-- **A program that has been read** still has no tree, or its symbols are those of the declarations
in its source. -/
theorem hasRead_of_runs (hp : p.IsBare i origin text) {events : Array Event}
    (h : Runs (readProgram files) ⟨p, events⟩ () s) :
    OnlyLogs ⟨p, events⟩ s ∧ s.program.HasRead files i origin text := by
  obtain ⟨events', hlogs, hrefresh⟩ := runs_refreshTree files ⟨p, events⟩
  obtain ⟨_, s₁, hrefresh', hrest⟩ := runs_bind.mp h
  obtain ⟨-, rfl⟩ := hrefresh.unique hrefresh'
  obtain ⟨self, hself, hrest⟩ := runs_symbol_bind.mp hrest
  by_cases hroot : ∃ root, (unread i origin text).Reads files root
  · obtain ⟨root, hreads⟩ := hroot
    obtain ⟨source, hsource, htree⟩ := id hreads
    -- the tree has this root, so that the work goes on with its parts
    rw [hp.refreshed_eq hsource htree, withTree_unread] at hself
    rw [← Option.some.inj hself] at hrest
    obtain ⟨n, hn, hdeclare⟩ := runs_ofExcept_bind.mp hrest
    obtain rfl : root = n := Except.ok.inj hn
    -- all names were there, so this is the run that declares everything
    have hnamed : root.IsDeclarable := isNamed_of_runs hdeclare
    obtain ⟨s', hrun, hlogs', henrolled⟩ := runs_readProgram hp events hreads hnamed
    obtain ⟨-, rfl⟩ := hrun.unique h
    exact ⟨hlogs', .inr ⟨root, hreads, hnamed, henrolled⟩⟩
  · -- no root: the tree is one of those that hold nothing, or asking for the root stops
    have hnone := not_exists.mp hroot
    obtain ⟨tree, hrootless, heq⟩ := hp.refreshed hnone
    rw [heq, withTree_unread] at hself
    have htree : self.tree = tree := by rw [← Option.some.inj hself]
    rw [htree] at hrest
    cases hempty : tree.isEmpty with
    | true =>
      -- a program that still has no tree is left as it is
      rw [if_pos hempty] at hrest
      obtain ⟨-, rfl⟩ := runs_pure.mp hrest
      exact ⟨hlogs, .inl ⟨⟨tree, hempty, heq⟩, hnone⟩⟩
    | false =>
      rw [if_neg (Bool.eq_false_iff.mp hempty)] at hrest
      obtain ⟨root, hrequired, -⟩ := runs_ofExcept_bind.mp hrest
      cases tree with
      | root => cases hrootless
      | _ => cases hrequired

end Scan

end EztScan
