import InfraLint.Syntax.Node

/-!
Document order. `preorder` says by recursion what the order is: a node, followed by the blocks
of its children from left to right. `walk` visits the document with an explicit list of nodes
still to be visited, and `walk_eq_preorder` says that it yields the same list. The equations
speak of children alone, so that later facts need no look at the kinds of nodes.
-/
namespace InfraLint

namespace Node

private theorem sizeOf_map_le {α : Type} [SizeOf α] {f : α → Node} {o : Option α} {c : Node}
    (h : some c = o.map f) (hf : ∀ x, sizeOf (f x) ≤ 1 + sizeOf x) : sizeOf c ≤ sizeOf o := by
  obtain ⟨x, rfl, rfl⟩ := Option.map_eq_some_iff.mp h.symm
  simpa using hf x

private theorem sizeOf_key_le (k : Key) : sizeOf k.node ≤ 1 + sizeOf k := by
  cases k <;> simp [Key.node]

private theorem sizeOf_some_lt {o : Option Node} {c : Node} (h : some c = o) :
    sizeOf c < sizeOf o := by
  subst h
  simp

private theorem sizeOf_member_lt {α : Type} [SizeOf α] {f : α → Node} {l : List (Option α)}
    {c : Node} (h : some c ∈ l.map (·.map f)) (hf : ∀ x, sizeOf (f x) ≤ 1 + sizeOf x) :
    sizeOf c < sizeOf l := by
  obtain ⟨o, ho, hc⟩ := List.mem_map.mp h
  have h₁ := List.sizeOf_lt_of_mem ho
  have h₂ := sizeOf_map_le hc.symm hf
  omega

/-- A child is smaller than its parent, so that recursion along children ends. -/
theorem sizeOf_child_lt {n c : Node} (h : c ∈ n.children) : sizeOf c < sizeOf n := by
  rw [mem_children_iff] at h
  cases n with
  | identifier x | string x | integer x | boolean x | skipped x => exact absurd h List.not_mem_nil
  | variableAccess x =>
    obtain ⟨_, name⟩ := x
    simp only [places_variableAccess, List.mem_singleton] at h
    have := sizeOf_map_le h (by simp)
    simp only [variableAccess.sizeOf_spec, VariableAccess.mk.sizeOf_spec]; omega
  | propertyAccess x =>
    obtain ⟨_, base, name⟩ := x
    simp only [places_propertyAccess, List.mem_cons, List.not_mem_nil, or_false] at h
    rcases h with h | h
    · have := sizeOf_some_lt h
      simp only [propertyAccess.sizeOf_spec, PropertyAccess.mk.sizeOf_spec]; omega
    · have := sizeOf_map_le h (by simp)
      simp only [propertyAccess.sizeOf_spec, PropertyAccess.mk.sizeOf_spec]; omega
  | arrayAccess x =>
    obtain ⟨_, base, index⟩ := x
    simp only [places_arrayAccess, List.mem_cons, List.not_mem_nil, or_false] at h
    rcases h with h | h
    · have := sizeOf_some_lt h
      simp only [arrayAccess.sizeOf_spec, ArrayAccess.mk.sizeOf_spec]; omega
    · have := sizeOf_some_lt h
      simp only [arrayAccess.sizeOf_spec, ArrayAccess.mk.sizeOf_spec]; omega
  | property x =>
    obtain ⟨_, key, value⟩ := x
    simp only [places_property, List.mem_cons, List.not_mem_nil, or_false] at h
    rcases h with h | h
    · have := sizeOf_map_le h sizeOf_key_le
      simp only [property.sizeOf_spec, Property.mk.sizeOf_spec]; omega
    · have := sizeOf_some_lt h
      simp only [property.sizeOf_spec, Property.mk.sizeOf_spec]; omega
  | object x =>
    obtain ⟨_, properties, resources⟩ := x
    simp only [places_object, List.mem_append] at h
    rcases h with h | h
    · have := sizeOf_member_lt h (by simp)
      simp only [object.sizeOf_spec, Object.mk.sizeOf_spec]; omega
    · have := sizeOf_member_lt h (by simp)
      simp only [object.sizeOf_spec, Object.mk.sizeOf_spec]; omega
  | item x =>
    obtain ⟨_, value⟩ := x
    simp only [places_item, List.mem_singleton] at h
    have := sizeOf_some_lt h
    simp only [item.sizeOf_spec, Item.mk.sizeOf_spec]; omega
  | array x =>
    obtain ⟨_, items⟩ := x
    simp only [places_array] at h
    have := sizeOf_member_lt h (by simp)
    simp only [array.sizeOf_spec, ArrayLiteral.mk.sizeOf_spec]; omega
  | conditional x =>
    obtain ⟨_, condition, body⟩ := x
    simp only [places_conditional, List.mem_cons, List.not_mem_nil, or_false] at h
    rcases h with h | h
    · have := sizeOf_some_lt h
      simp only [conditional.sizeOf_spec, Conditional.mk.sizeOf_spec]; omega
    · have := sizeOf_some_lt h
      simp only [conditional.sizeOf_spec, Conditional.mk.sizeOf_spec]; omega
  | loop x =>
    obtain ⟨_, item, expression, body⟩ := x
    simp only [places_loop, List.mem_cons, List.not_mem_nil, or_false] at h
    rcases h with h | h | h
    · have := sizeOf_map_le h (by simp)
      simp only [loop.sizeOf_spec, Loop.mk.sizeOf_spec]; omega
    · have := sizeOf_some_lt h
      simp only [loop.sizeOf_spec, Loop.mk.sizeOf_spec]; omega
    · have := sizeOf_some_lt h
      simp only [loop.sizeOf_spec, Loop.mk.sizeOf_spec]; omega
  | resourceDecl x =>
    obtain ⟨_, name, typeString, value⟩ := x
    simp only [places_resourceDecl, List.mem_cons, List.not_mem_nil, or_false] at h
    rcases h with h | h | h
    · have := sizeOf_map_le h (by simp)
      simp only [resourceDecl.sizeOf_spec, Resource.mk.sizeOf_spec]; omega
    · have := sizeOf_map_le h (by simp)
      simp only [resourceDecl.sizeOf_spec, Resource.mk.sizeOf_spec]; omega
    · have := sizeOf_some_lt h
      simp only [resourceDecl.sizeOf_spec, Resource.mk.sizeOf_spec]; omega
  | moduleDecl x =>
    obtain ⟨_, name, path, value⟩ := x
    simp only [places_moduleDecl, List.mem_cons, List.not_mem_nil, or_false] at h
    rcases h with h | h | h
    · have := sizeOf_map_le h (by simp)
      simp only [moduleDecl.sizeOf_spec, Module.mk.sizeOf_spec]; omega
    · have := sizeOf_map_le h (by simp)
      simp only [moduleDecl.sizeOf_spec, Module.mk.sizeOf_spec]; omega
    · have := sizeOf_some_lt h
      simp only [moduleDecl.sizeOf_spec, Module.mk.sizeOf_spec]; omega
  | variableDecl x =>
    obtain ⟨_, name, value⟩ := x
    simp only [places_variableDecl, List.mem_cons, List.not_mem_nil, or_false] at h
    rcases h with h | h
    · have := sizeOf_map_le h (by simp)
      simp only [variableDecl.sizeOf_spec, Variable.mk.sizeOf_spec]; omega
    · have := sizeOf_some_lt h
      simp only [variableDecl.sizeOf_spec, Variable.mk.sizeOf_spec]; omega
  | parameterDecl x =>
    obtain ⟨_, name, typeName⟩ := x
    simp only [places_parameterDecl, List.mem_cons, List.not_mem_nil, or_false] at h
    rcases h with h | h
    · have := sizeOf_map_le h (by simp)
      simp only [parameterDecl.sizeOf_spec, Parameter.mk.sizeOf_spec]; omega
    · have := sizeOf_map_le h (by simp)
      simp only [parameterDecl.sizeOf_spec, Parameter.mk.sizeOf_spec]; omega
  | outputDecl x =>
    obtain ⟨_, name, typeName, value⟩ := x
    simp only [places_outputDecl, List.mem_cons, List.not_mem_nil, or_false] at h
    rcases h with h | h | h
    · have := sizeOf_map_le h (by simp)
      simp only [outputDecl.sizeOf_spec, Output.mk.sizeOf_spec]; omega
    · have := sizeOf_map_le h (by simp)
      simp only [outputDecl.sizeOf_spec, Output.mk.sizeOf_spec]; omega
    · have := sizeOf_some_lt h
      simp only [outputDecl.sizeOf_spec, Output.mk.sizeOf_spec]; omega
  | program x =>
    obtain ⟨_, declarations⟩ := x
    simp only [places_program] at h
    have := List.sizeOf_lt_of_mem h
    simp only [Option.some.sizeOf_spec, program.sizeOf_spec, Program.mk.sizeOf_spec] at this ⊢
    omega

/-- Whatever passes from the children of a node to the node holds of every node. -/
theorem children_induction {P : Node → Prop} (step : ∀ n, (∀ c ∈ n.children, P c) → P n)
    (n : Node) : P n :=
  step n fun c _ => children_induction step c
termination_by sizeOf n
decreasing_by exact sizeOf_child_lt ‹_›

/-- A node, followed by the blocks of its children from left to right. -/
def preorder (n : Node) : List Node :=
  n :: n.children.attach.flatMap fun c => preorder c.val
termination_by sizeOf n
decreasing_by exact sizeOf_child_lt c.property

theorem preorder_eq (n : Node) : n.preorder = n :: n.children.flatMap preorder := by
  rw [preorder]
  simp [List.flatMap_subtype]

/-- Visits the nodes of `pending` and all that is below them, the next one first. -/
def walkFrom : List Node → List Node
  | [] => []
  | n :: pending => n :: walkFrom (n.children ++ pending)
termination_by pending => (pending.flatMap preorder).length
decreasing_by
  rw [List.flatMap_append, List.flatMap_cons, preorder_eq n]
  simp only [List.length_append, List.length_cons]
  omega

def walk (n : Node) : List Node := walkFrom [n]

theorem walkFrom_eq_flatMap (pending : List Node) :
    walkFrom pending = pending.flatMap preorder := by
  fun_induction walkFrom pending with
  | case1 => rfl
  | case2 n pending ih => rw [ih, List.flatMap_append, List.flatMap_cons, preorder_eq n]; rfl

theorem walk_eq_preorder (n : Node) : n.walk = n.preorder := by
  simp [walk, walkFrom_eq_flatMap]

theorem mem_preorder_self (n : Node) : n ∈ n.preorder := by
  rw [preorder_eq]
  exact List.mem_cons_self

end Node

end InfraLint
