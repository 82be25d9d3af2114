import EztScan.Tree.Measure

/-!
# Walks through a tree

A walk enters every node, goes through its children, and leaves it again. Listeners are called by
name: on entering, first the one for all nodes, then the one for the kind of the node; on leaving,
the other way round.
-/

namespace EztScan

/-- A moment of a walk. -/
inductive Visit where
  | entering (n : Node)
  | leaving (n : Node)

namespace Visit

/-- The node of a visit. -/
def node : Visit → Node
  | .entering n => n
  | .leaving n => n

/-- The node that a walk enters. -/
def entered? : Visit → Option Node
  | .entering n => some n
  | .leaving _ => none

/-- The names of the listeners for a visit, in the order of their calls. -/
def listeners : Visit → List String
  | .entering n => ["start_node", "start_" ++ n.head.kind.name]
  | .leaving n => ["end_" ++ n.head.kind.name, "end_node"]

end Visit

namespace Element

mutual

/-- The visits of a walk through an element. -/
def walk : Element → List Visit
  | .token _ => []
  | .node h cs => .entering ⟨h, cs⟩ :: walkAll cs ++ [.leaving ⟨h, cs⟩]

/-- The visits of a walk through elements, one after the other. -/
def walkAll : List Element → List Visit
  | [] => []
  | e :: es => e.walk ++ walkAll es

end

/-- The nodes in some elements, at any depth, in the order in which a walk enters them. -/
def allNodes (es : List Element) : List Node :=
  (walkAll es).filterMap Visit.entered?

theorem allNodes_nil : allNodes [] = [] := by
  simp [allNodes, walkAll]

theorem allNodes_cons (e : Element) (es : List Element) :
    allNodes (e :: es) = allNodes [e] ++ allNodes es := by
  simp [allNodes, walkAll]

theorem allNodes_token (t : Token) : allNodes [.token t] = [] := by
  simp [allNodes, walkAll, walk]

theorem allNodes_node (n : Node) : allNodes [n.toElement] = n :: allNodes n.children := by
  simp [allNodes, walkAll, walk, Node.toElement, Visit.entered?]

theorem allNodes_append (es es' : List Element) :
    allNodes (es ++ es') = allNodes es ++ allNodes es' := by
  induction es with
  | nil => rw [allNodes_nil, List.nil_append, List.nil_append]
  | cons e es ih => rw [List.cons_append, allNodes_cons, ih, allNodes_cons e es, List.append_assoc]

theorem allNodes_of_tokens {es : List Element} (h : ∀ e ∈ es, ∃ t, e = .token t) :
    allNodes es = [] := by
  induction es with
  | nil => exact allNodes_nil
  | cons e es ih =>
    obtain ⟨⟨t, rfl⟩, hes⟩ := List.forall_mem_cons.mp h
    rw [allNodes_cons, allNodes_token, ih hes, List.nil_append]

end Element

/-- A call of a listener. -/
structure Call where
  /-- The listening party, by its place in the list of all. -/
  party : Nat
  listener : String
  node : Node

/-- The calls for a visit, where each party has listeners with these names. -/
def Visit.calls (parties : List (List String)) (v : Visit) : List Call :=
  parties.zipIdx.flatMap fun (names, i) =>
    (v.listeners.filter names.contains).map fun name => ⟨i, name, v.node⟩

/-- The calls during a walk through some elements. -/
def callsOf (parties : List (List String)) (es : List Element) : List Call :=
  (Element.walkAll es).flatMap (Visit.calls parties)

end EztScan
