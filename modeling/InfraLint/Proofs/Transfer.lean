import InfraLint.Proofs.Dropping
import InfraLint.Proofs.References

/-!
Models of edited documents. In a model of an edited document nodes stand for the edited symbols,
and identities stay as they are. So sets and maps of dependencies are built and looked up as
before, with edited symbols in them.
-/
namespace InfraLint

variable (e : Edit)

/-- The model `m'` is about the edited document of `m`, and what is in that document stands for
what it stood for. -/
structure Model.EditedTo (m m' : Model) : Prop where
  program : m'.program = m.program.edit e
  symbolOf : ∀ k ∈ m'.program.preorder,
    m'.symbolOf (some k) = (m.symbolOf (some k)).map (Symbol.edit e)

/-- The model with its document edited. -/
def Model.edit (m : Model) : Model where
  maker := m.maker
  program := m.program.edit e
  bindings := m.bindings.map fun b => ⟨b.node, Symbol.edit e b.symbol⟩
  issued := m.issued

theorem Model.symbolOf_edit (m : Model) (k : Node) :
    (m.edit e).symbolOf (some k) = (m.symbolOf (some k)).map (Symbol.edit e) := by
  show ((m.bindings.map _).find? _).map _ = ((m.bindings.find? _).map _).map _
  rw [List.find?_map, Option.map_map, Option.map_map]
  rfl

theorem Model.editedTo_edit (m : Model) : m.EditedTo e (m.edit e) :=
  ⟨rfl, fun k _ => m.symbolOf_edit e k⟩

theorem Symbol.is_edit (s t : Symbol) : (s.edit e).is (t.edit e) = s.is t := rfl

/-- A record between the edited symbols. -/
def Dependency.edit (d : Dependency) : Dependency := ⟨d.source.edit e, d.target.edit e, d.index⟩

theorem Dependency.add_edit (set : List Dependency) (d : Dependency) :
    Dependency.add (set.map (Dependency.edit e)) (d.edit e) =
      (Dependency.add set d).map (Dependency.edit e) := by
  unfold Dependency.add
  rw [List.any_map]
  have hsame : ((fun a => Dependency.same a (d.edit e)) ∘ Dependency.edit e) =
      fun a => a.same d := rfl
  rw [hsame]
  split
  · rfl
  · rw [List.map_append]
    rfl

theorem Dependency.ofList_edit (records : List Dependency) :
    Dependency.ofList (records.map (Dependency.edit e)) =
      (Dependency.ofList records).map (Dependency.edit e) := by
  unfold Dependency.ofList
  rw [List.foldl_map]
  show records.foldl (fun set d => add set (d.edit e)) (List.map (Dependency.edit e) []) = _
  exact List.foldl_hom (List.map (Dependency.edit e)) (add_edit e)

namespace DependencyMap

/-- The map between the edited symbols. -/
def edit (map : DependencyMap) : DependencyMap :=
  map.map fun entry => (entry.1.edit e, entry.2.map (Dependency.edit e))

theorem put_edit (map : DependencyMap) (source : Symbol) (set : List Dependency) :
    (map.edit e).put (source.edit e) (set.map (Dependency.edit e)) =
      (map.put source set).edit e := by
  induction map with
  | nil => rfl
  | cons entry rest ih =>
    obtain ⟨s, old⟩ := entry
    show put ((s.edit e, old.map (Dependency.edit e)) :: edit e rest) _ _ = _
    rw [put, put, Symbol.is_edit, ih]
    split <;> rfl

/-- Putting edited sets together makes the edited map. -/
theorem collect_edit (sets : DependencyMap) :
    ((sets.edit e).filter fun entry => !entry.2.isEmpty).foldl
        (fun map entry => put map entry.1 entry.2) [] =
      edit e ((sets.filter fun entry => !entry.2.isEmpty).foldl
        (fun map entry => put map entry.1 entry.2) []) := by
  have hempty : ((fun entry : Symbol × List Dependency => !entry.2.isEmpty) ∘
      fun entry : Symbol × List Dependency => (entry.1.edit e,
        entry.2.map (Dependency.edit e))) = fun entry => !entry.2.isEmpty := by
    funext entry
    simp
  unfold edit
  rw [List.filter_map, hempty, List.foldl_map]
  show List.foldl _ (edit e []) _ = _
  exact List.foldl_hom (edit e) fun map entry => put_edit e map entry.1 entry.2

theorem get?_edit (map : DependencyMap) (source : Symbol) :
    (map.edit e).get? (source.edit e) =
      (map.get? source).map (List.map (Dependency.edit e)) := by
  unfold get? edit
  rw [List.find?_map, Option.map_map, Option.map_map]
  rfl

end DependencyMap

namespace Model.EditedTo

variable {e} {gone : List Identity} {m m' : Model}

theorem symbolOf_node (h : m.EditedTo (.dropping gone) m') {n : Node}
    (hn : n.edit (.dropping gone) ∈ m'.program.preorder) :
    m'.symbolOf (some (n.edit (.dropping gone))) =
      (m.symbolOf (some n)).map (Symbol.edit (.dropping gone)) := by
  rw [h.symbolOf _ hn]
  simp only [Model.symbolOf, Node.edit_id]

/-- A value below the edited document that the edit leaves as it is. -/
theorem symbolOf_place (h : m.EditedTo e m') {place : Option Node}
    (hplace : ∀ n, place = some n → n ∈ m'.program.preorder) :
    m'.symbolOf place = (m.symbolOf place).map (Symbol.edit e) := by
  cases place with
  | none => rfl
  | some n => exact h.symbolOf n (hplace n rfl)

end Model.EditedTo

namespace ReferenceScan

variable {e} {m m' : Model}

theorem record_edit (h : m.EditedTo e m') (source : Symbol) {n : Node}
    (hn : n ∈ m'.program.preorder) :
    record m' (source.edit e) n = (record m source n).map (Dependency.edit e) := by
  by_cases haccess : ∃ x, n = .arrayAccess x
  · obtain ⟨x, rfl⟩ := haccess
    have hbase : m'.symbolOf x.base = (m.symbolOf x.base).map (Symbol.edit e) :=
      h.symbolOf_place fun b hb =>
        Node.mem_preorder_of_child hn (Node.mem_children_arrayAccess hb)
    simp only [record, hbase]
    cases m.symbolOf x.base with
    | none => rfl
    | some target =>
      show (if target.isEntity then _ else none) = (if target.isEntity then _ else none).map _
      split <;> rfl
  · have hplain : ∀ x, n = .arrayAccess x → False := fun x hx => haccess ⟨x, hx⟩
    rw [record_of_not_arrayAccess hplain, record_of_not_arrayAccess hplain]
    unfold plainRecord
    rw [h.symbolOf n hn]
    cases m.symbolOf (some n) with
    | none => rfl
    | some target =>
      show (if target.isEntity && !target.is source then _ else none) =
        (if target.isEntity && !target.is source then _ else none).map _
      split <;> rfl

theorem outcome_ofValue_edit (h : m.EditedTo e m') (source : Symbol) {place : Option Node}
    (hplace : ∀ n, place = some n → n ∈ m'.program.preorder) :
    (ofValue m' (source.edit e) place).outcome =
      (ofValue m source place).outcome.map (List.map (Dependency.edit e)) := by
  cases place with
  | none => rfl
  | some n =>
    rw [outcome_ofValue, outcome_ofValue]
    refine congrArg Except.ok ?_
    rw [List.map_filterMap]
    exact List.filterMap_congr fun k hk =>
      record_edit h source (Node.mem_preorder_trans _ (hplace n rfl) hk)

end ReferenceScan

end InfraLint
