import InfraLint.Syntax.Traversal
import Mathlib.Data.List.Induction
import Mathlib.Data.List.Lex

/-!
The order in which the nodes of a tree are visited, said without the function that visits them. A
visit takes the next node off a stack and puts the children of the node there, and a route leads
from a node down to one of the places below it. Main statement: a visit ends, with one node for
each route at whose end there is a node, in the order of the routes, so that the block of a node
follows the node wherever it stands.
-/
namespace InfraLint

/-- A visit in progress: the nodes still to be visited, the next one at the end, and the nodes
visited so far. -/
structure Visit where
  stack : List Node
  visited : List Node

namespace Visit

def start (n : Node) : Visit := ⟨[n], []⟩

/-- Visits the node at the end of the stack. Its children take its place, the first of them at
the end. -/
def step (v : Visit) : Option Visit :=
  v.stack.getLast?.map fun n => ⟨v.stack.dropLast ++ n.children.reverse, v.visited ++ [n]⟩

def after : Nat → Visit → Option Visit
  | 0, v => some v
  | count + 1, v => v.step.bind (after count)

/-- The visit takes `count` steps and no more, and the nodes visited by then are `nodes`. -/
def EndsWith (v : Visit) (count : Nat) (nodes : List Node) : Prop :=
  ∃ last, v.after count = some last ∧ last.step = none ∧ last.visited = nodes

theorem step_reverse_cons (n : Node) (pending visited : List Node) :
    step ⟨(n :: pending).reverse, visited⟩ =
      some ⟨(n.children ++ pending).reverse, visited ++ [n]⟩ := by
  simp [step]

theorem after_reverse (pending visited : List Node) :
    after (Node.walkFrom pending).length ⟨pending.reverse, visited⟩ =
      some ⟨[], visited ++ Node.walkFrom pending⟩ := by
  -- On any stack, since after a step the stack is no longer that of one node.
  fun_induction Node.walkFrom pending generalizing visited with
  | case1 => simp [after]
  | case2 n pending ih =>
    rw [List.length_cons, after, step_reverse_cons, Option.bind_some, ih, List.append_assoc,
      List.singleton_append]

theorem start_endsWith (n : Node) : (start n).EndsWith n.walk.length n.walk :=
  ⟨⟨[], n.walk⟩, after_reverse [n] [], rfl, rfl⟩

end Visit

namespace Node

/-- The node at the end of a route. Each number of the route says at which place below a node it
goes on; absent children have places as well. -/
def follow (n : Node) : List Nat → Option Node
  | [] => some n
  | i :: rest => n.places[i]?.join.bind fun c => c.follow rest

def followFrom (places : List (Option Node)) : List Nat → Option Node
  | [] => none
  | i :: rest => places[i]?.join.bind fun c => c.follow rest

/-- The nodes are those at the ends of routes, one for each route at whose end there is a node, in
the order of the routes: a route comes before those that go on from it, and these before the
routes that turn off at a later place. -/
def ListsEnds (target : List Nat → Option Node) (nodes : List Node) : Prop :=
  ∃ routes : List (List Nat), routes.Pairwise (· < ·) ∧
    (∀ route, route ∈ routes ↔ ∃ k, target route = some k) ∧ routes.map target = nodes.map some

theorem followFrom_cons (places : List (Option Node)) (i : Nat) (rest : List Nat) :
    followFrom places (i :: rest) = places[i]?.join.bind fun c => c.follow rest := rfl

theorem followFrom_append_absent (places : List (Option Node)) :
    followFrom (places ++ [none]) = followFrom places := by
  funext route
  cases route with
  | nil => rfl
  | cons i rest =>
    rw [followFrom_cons, followFrom_cons, List.getElem?_append]
    split
    · rfl
    · rename_i hi
      rw [List.getElem?_eq_none (by omega : places.length ≤ i), List.getElem?_singleton]
      split <;> rfl

theorem followFrom_append_of_lt {places : List (Option Node)} {i : Nat} (place : Option Node)
    (hi : i < places.length) (rest : List Nat) :
    followFrom (places ++ [place]) (i :: rest) = followFrom places (i :: rest) := by
  rw [followFrom_cons, followFrom_cons, List.getElem?_append_left hi]

theorem followFrom_append_last (places : List (Option Node)) (c : Node) (rest : List Nat) :
    followFrom (places ++ [some c]) (places.length :: rest) = c.follow rest := by
  rw [followFrom_cons, List.getElem?_concat_length]
  rfl

theorem exists_cons_of_followFrom {places : List (Option Node)} {route : List Nat} {k : Node}
    (h : followFrom places route = some k) :
    ∃ i rest, route = i :: rest ∧ i < places.length := by
  cases route with
  | nil => exact nomatch h
  | cons i rest =>
    refine ⟨i, rest, rfl, ?_⟩
    by_contra hi
    rw [followFrom_cons, List.getElem?_eq_none (by omega)] at h
    exact nomatch h

/-- With one more place there are the routes from before and those that begin with that place. -/
theorem followFrom_append_eq_some_iff {places : List (Option Node)} {c k : Node}
    {route : List Nat} :
    followFrom (places ++ [some c]) route = some k ↔
      followFrom places route = some k ∨
        ∃ rest, places.length :: rest = route ∧ c.follow rest = some k := by
  constructor
  · intro h
    obtain ⟨i, rest, rfl, hi⟩ := exists_cons_of_followFrom h
    rw [List.length_append, List.length_singleton] at hi
    by_cases hlast : i = places.length
    · subst hlast
      rw [followFrom_append_last] at h
      exact Or.inr ⟨rest, rfl, h⟩
    · rw [followFrom_append_of_lt (some c) (by omega)] at h
      exact Or.inl h
  · rintro (h | ⟨rest, rfl, h⟩)
    · obtain ⟨i, rest, rfl, hi⟩ := exists_cons_of_followFrom h
      rw [followFrom_append_of_lt (some c) hi, h]
    · rw [followFrom_append_last, h]

theorem ListsEnds.append {places : List (Option Node)} {c : Node} {nodes more : List Node}
    (hnodes : ListsEnds (followFrom places) nodes) (hmore : ListsEnds c.follow more) :
    ListsEnds (followFrom (places ++ [some c])) (nodes ++ more) := by
  obtain ⟨routes, hordered, hmem, hends⟩ := hnodes
  obtain ⟨below, hordered', hmem', hends'⟩ := hmore
  have hfirst : ∀ route ∈ routes, ∃ i rest, route = i :: rest ∧ i < places.length := by
    intro route hroute
    obtain ⟨k, hk⟩ := (hmem route).mp hroute
    exact exists_cons_of_followFrom hk
  refine ⟨routes ++ below.map (places.length :: ·), ?_, ?_, ?_⟩
  · refine List.pairwise_append.mpr ⟨hordered, List.pairwise_map.mpr ?_, ?_⟩
    · exact hordered'.imp fun h => List.cons_lt_cons_iff.mpr (Or.inr ⟨rfl, h⟩)
    · intro route hroute route' hroute'
      obtain ⟨i, rest, rfl, hi⟩ := hfirst route hroute
      obtain ⟨rest', _, rfl⟩ := List.mem_map.mp hroute'
      exact List.cons_lt_cons_iff.mpr (Or.inl hi)
  · intro route
    simp only [List.mem_append, List.mem_map, hmem, hmem', followFrom_append_eq_some_iff]
    constructor
    · rintro (⟨k, hk⟩ | ⟨rest, ⟨k, hk⟩, hroute⟩)
      · exact ⟨k, Or.inl hk⟩
      · exact ⟨k, Or.inr ⟨rest, hroute, hk⟩⟩
    · rintro ⟨k, hk | ⟨rest, hroute, hk⟩⟩
      · exact Or.inl ⟨k, hk⟩
      · exact Or.inr ⟨rest, ⟨k, hk⟩, hroute⟩
  · rw [List.map_append, List.map_append, ← hends, ← hends', List.map_map]
    congr 1
    · refine List.map_congr_left fun route hroute => ?_
      obtain ⟨i, rest, rfl, hi⟩ := hfirst route hroute
      exact followFrom_append_of_lt (some c) hi rest
    · exact List.map_congr_left fun rest _ => followFrom_append_last places c rest

theorem listsEnds_places {places : List (Option Node)}
    (h : ∀ c, some c ∈ places → ListsEnds c.follow c.preorder) :
    ListsEnds (followFrom places) ((places.filterMap fun place => place).flatMap preorder) := by
  -- From the end: the numbers of the places before stay what they are.
  induction places using List.reverseRecOn with
  | nil =>
    refine ⟨[], List.Pairwise.nil, fun route => ?_, rfl⟩
    constructor
    · exact fun hroute => absurd hroute List.not_mem_nil
    · rintro ⟨k, hk⟩
      obtain ⟨i, rest, rfl, hi⟩ := exists_cons_of_followFrom hk
      exact absurd hi (Nat.not_lt_zero i)
  | append_singleton places place ih =>
    have hbefore := ih fun c hc => h c (List.mem_append_left _ hc)
    rw [List.filterMap_append, List.flatMap_append]
    cases place with
    | none =>
      rw [followFrom_append_absent]
      simpa using hbefore
    | some c =>
      have hlast := hbefore.append (h c (List.mem_append_right _ List.mem_cons_self))
      simpa using hlast

theorem listsEnds_preorder (n : Node) : ListsEnds n.follow n.preorder := by
  induction n using children_induction with
  | step n ih =>
    obtain ⟨routes, hordered, hmem, hends⟩ :=
      listsEnds_places fun c hc => ih c (mem_children_iff.mpr hc)
    have hbelow : ∀ route ∈ routes, n.follow route = followFrom n.places route := by
      intro route hroute
      obtain ⟨k, hk⟩ := (hmem route).mp hroute
      obtain ⟨i, rest, rfl, _⟩ := exists_cons_of_followFrom hk
      rfl
    refine ⟨[] :: routes, List.pairwise_cons.mpr ⟨fun route hroute => ?_, hordered⟩, ?_, ?_⟩
    · obtain ⟨k, hk⟩ := (hmem route).mp hroute
      obtain ⟨i, rest, rfl, _⟩ := exists_cons_of_followFrom hk
      exact List.nil_lt_cons i rest
    · intro route
      cases route with
      | nil => exact ⟨fun _ => ⟨n, rfl⟩, fun _ => List.mem_cons_self⟩
      | cons i rest =>
        rw [List.mem_cons, or_iff_right (by exact nofun)]
        exact hmem (i :: rest)
    · rw [preorder_eq, List.map_cons, List.map_cons, List.map_congr_left hbelow, hends]
      rfl

/-- There is one order in which each node is followed by the blocks of its children. -/
theorem eq_preorder_of_recursive {order : Node → List Node}
    (h : ∀ k, order k = k :: k.children.flatMap order) (n : Node) : order n = n.preorder := by
  induction n using children_induction with
  | step n ih => rw [h, preorder_eq, List.flatMap_congr ih]

theorem exists_block_of_walkFrom {pending before after : List Node} {k : Node}
    (h : walkFrom pending = before ++ k :: after) :
    ∃ rest, after = k.children.flatMap preorder ++ rest := by
  fun_induction walkFrom pending generalizing before with
  | case1 => exact absurd h.symm (List.append_ne_nil_of_right_ne_nil _ (List.cons_ne_nil _ _))
  | case2 n pending ih =>
    cases before with
    | nil =>
      obtain ⟨rfl, rfl⟩ := List.cons.inj h
      refine ⟨pending.flatMap preorder, ?_⟩
      rw [walkFrom_eq_flatMap, List.flatMap_append]
    | cons b before => exact ih (List.cons.inj h).2

structure VisitedInOrder (n : Node) (visited : List Node) : Prop where
  /-- The visit comes to an end, after one step for each node that is visited. -/
  ends : (Visit.start n).EndsWith visited.length visited
  /-- First the node, and then, child by child, what is visited when the child is. -/
  recursive : visited = n :: n.children.flatMap walk
  /-- Nothing else is an order of that kind. -/
  unique : ∀ order : Node → List Node, (∀ k, order k = k :: k.children.flatMap order) →
    order n = visited
  /-- A node is visited once for each place, and an absent one never. -/
  routes : ListsEnds n.follow visited
  /-- The block of a node follows it at each place. -/
  blocks : ∀ before k after, visited = before ++ k :: after →
    ∃ rest, after = k.children.flatMap walk ++ rest

/-- A walk visits the nodes of a tree in document order, each as often as it stands there. -/
theorem walk_visits_in_order (n : Node) : VisitedInOrder n n.walk := by
  have hwalk : walk = preorder := funext walk_eq_preorder
  refine ⟨Visit.start_endsWith n, ?_, ?_, ?_, ?_⟩
  · rw [hwalk, preorder_eq]
  · intro order horder
    rw [walk_eq_preorder, eq_preorder_of_recursive horder]
  · rw [walk_eq_preorder]
    exact listsEnds_preorder n
  · intro before k after h
    rw [hwalk]
    exact exists_block_of_walkFrom h

/-- A node at two places is visited twice; the absent item variable is not visited. -/
example :
    let shared : Node := .boolean ⟨⟨⟨0, 1⟩, ⟨1, 1⟩⟩, some true⟩
    (Node.loop ⟨⟨⟨0, 0⟩, ⟨0, 9⟩⟩, none, some shared, some shared⟩).walk.map (·.id.serial) =
      [0, 1, 1] := by
  decide +kernel

end Node

end InfraLint
