import InfraLint.Syntax.Traversal
import InfraLint.Syntax.Fault
import InfraLint.Text.Spelling

/-!
Nodes as text: in short, by kind and span, and in full, with all fields and everything below. A
number in them that is too long for a text keeps them from being put into words.
-/
namespace InfraLint

namespace Node

theorem mem_children_of_field {n c : Node} {field : String × Content}
    (hf : field ∈ n.fields) (hc : some c ∈ field.2.places) : c ∈ n.children :=
  mem_children_iff.mpr (List.mem_flatMap.mpr ⟨field, hf, hc⟩)

/-- Kind and span. -/
def heading (n : Node) : Except TooLong String := n.span.render.map fun span => n.kindName ++ span

/-- A node with all of its fields and all that is below it. -/
def describe (n : Node) : Except TooLong String := do
  let span ← n.span.describe
  let parts ← Text.each <| n.fields.attach.map fun ⟨field, _hf⟩ =>
    match _hc : field.2 with
    | .text s => .ok (Text.optional Text.quoted s)
    | .integer k => k.elim (.ok Text.absent) Text.whole
    | .boolean b => .ok (Text.optional Text.truth b)
    | .one none => .ok Text.absent
    | .one (some c) => describe c
    | .many cs =>
      (Text.each <| cs.attach.map fun ⟨place, _hp⟩ =>
        match place with
        | none => .ok Text.absent
        | some c => describe c).map Text.sequence
  return Text.record n.kindName (("span", span) :: (n.fields.map Prod.fst).zip parts)
termination_by sizeOf n
decreasing_by
  · exact sizeOf_child_lt (mem_children_of_field _hf (by simp [_hc, Content.places]))
  · exact sizeOf_child_lt (mem_children_of_field _hf (by simpa [_hc, Content.places] using _hp))

end Node

end InfraLint
