import InfraLint.Proofs.Analysis
import InfraLint.Proofs.Placement
import InfraLint.Proofs.UniqueEntries

/-!
Findings and the order of the document. Main statement: in a program with spans in good order and
resources at the usual places, resources are listed from front to back, and whatever entries are
found redundant, the entries do not overlap, so that the fixes that remove them can all be made.
-/
namespace InfraLint

namespace Resource

variable {root : Node} {x y : Resource} {i j : Item} {k l : Nat}

/-- An entry is below no other entry. -/
private theorem entry_not_below (hd : root.Distinct) (hf : root.FlatProperties)
    (hx : .resourceDecl x ∈ root.preorder) (hy : .resourceDecl y ∈ root.preorder)
    (hi : x.Lists k i) (hj : y.Lists l j) (hne : Node.item i ≠ .item j) :
    .item i ∉ (Node.item j).preorder := by
  intro hmem
  have hxj := mem_of_entry hd hx hi (entry_mem_preorder hy hj) (.item j) hmem hne
  obtain ⟨p, hp, hjp⟩ := exists_property_of_entry hy hj
  exact hf p hp x (Node.mem_preorder_trans _ hjp hxj)

/-- Entries of different resources do not overlap. -/
theorem entries_apart (hd : root.Distinct) (hf : root.FlatProperties) (hs : root.WellSpanned)
    (hx : .resourceDecl x ∈ root.preorder) (hy : .resourceDecl y ∈ root.preorder)
    (hi : x.Lists k i) (hj : y.Lists l j) (hxy : x ≠ y) :
    ¬ i.origin.span.Overlaps j.origin.span := by
  have hne : Node.item i ≠ .item j := by
    intro heq
    obtain rfl := Node.item.inj heq
    exact hxy (eq_of_entry hd hx hy hi hj)
  exact hs.apart (entry_mem_preorder hx hi) (entry_mem_preorder hy hj)
    (entry_not_below hd hf hx hy hi hj hne) (entry_not_below hd hf hy hx hj hi hne.symm)

/-- The entries of one resource do not overlap. -/
theorem listed_apart (hc : root.Complete) (hs : root.WellSpanned)
    (hx : .resourceDecl x ∈ root.preorder) :
    x.listed.Pairwise fun i j => ¬ i.origin.span.Overlaps j.origin.span := by
  by_cases hlist : ∃ a, x.HasList a
  · obtain ⟨a, ha⟩ := hlist
    have happart := (hs _ (array_mem_preorder hx ha)).apart
    rw [children_of_hasList hc hx ha, List.pairwise_map] at happart
    exact happart
  · rw [listed_of_not_hasList hc hx fun a ha => hlist ⟨a, ha⟩]
    exact List.Pairwise.nil

end Resource

namespace Redundancy

/-- The entries of different findings do not overlap. -/
theorem found_apart {m : Model} (hd : m.program.Distinct) (hc : m.program.Complete)
    (hf : m.program.FlatProperties) (hs : m.program.WellSpanned) {map : DependencyMap}
    {found : List Redundancy} (hfound : find m map = .ok found) :
    found.Pairwise fun r r' => ¬ r.entry.origin.span.Overlaps r'.entry.origin.span := by
  refine pairwise_found (R := fun i j => ¬ i.origin.span.Overlaps j.origin.span) hd hc hfound ?_ ?_
  · exact fun x hx => Resource.listed_apart hc hs hx
  · exact fun x y k l i j hx hy hxy hi hj => Resource.entries_apart hd hf hs hx hy hi hj hxy

end Redundancy

/-- What the fixes of some diagnostics replace. -/
def Diagnostic.replaced (diagnostics : List Diagnostic) : List Span :=
  diagnostics.flatMap fun d => d.fixes.flatMap fun f => f.replacements.map (·.span)

theorem Rule.replaced_diagnosticOf (settings : RuleSettings) (found : List Redundancy) :
    Diagnostic.replaced (found.map (Rule.diagnosticOf settings)) =
      found.map fun r => r.entry.origin.span := by
  unfold Diagnostic.replaced
  rw [List.flatMap_map]
  exact List.map_eq_flatMap.symm

/-- In a program with spans in good order, and with resources at the top level and in bodies of
resources and of modules at the top level only, resources come in the order of the document, the
entries of different findings do not overlap, and neither do the spans that the fixes of one
analysis replace. -/
theorem Rule.removals_do_not_conflict (m : Model) (P : Program) (hP : m.program = .program P)
    (hd : m.program.Distinct) (hc : m.program.Complete) (hs : m.program.WellSpanned)
    (hplaced : m.program.PlacesResources m.program.Declares) :
    (m.resources.Pairwise fun x y => x.origin.span.position ≤ y.origin.span.position) ∧
      (∀ map, ∃ found, Redundancy.find m map = .ok found ∧
        found.Pairwise fun r r' => ¬ r.entry.origin.span.Overlaps r'.entry.origin.span) ∧
      ∀ provider settings consultations diagnostics,
        ((redundancy provider settings consultations).analyze m).outcome = .ok diagnostics →
        (Diagnostic.replaced diagnostics).Pairwise fun a b => ¬ a.Overlaps b := by
  have hf : m.program.FlatProperties := by
    rw [hP] at hd hplaced ⊢
    exact hplaced.flatProperties hd
  have hresources : m.resources.Pairwise fun x y =>
      x.origin.span.position ≤ y.origin.span.position := by
    rw [m.resources_eq]
    rw [hP] at hd hs hplaced ⊢
    exact hplaced.resources_ascend hd hs
  refine ⟨hresources, ?_, ?_⟩
  · intro map
    exact ⟨_, Redundancy.find_eq hc, Redundancy.found_apart hd hc hf hs (Redundancy.find_eq hc)⟩
  · intro provider settings consultations diagnostics hok
    by_cases hoff : settings.level = .off
    · rw [outcome_analyze_of_off hoff] at hok
      rw [← Except.ok.inj hok]
      exact List.Pairwise.nil
    · rw [outcome_analyze hoff] at hok
      cases hmap : (provider.infer m true).outcome with
      | error e =>
        rw [hmap] at hok
        exact nomatch hok
      | ok map =>
        have hfound := @Redundancy.find_eq m map hc
        simp only [hmap, Except.bind, hfound] at hok
        rw [← Except.ok.inj hok, replaced_diagnosticOf, List.pairwise_map]
        exact Redundancy.found_apart hd hc hf hs hfound

/-! Documents with spans in good order. -/
namespace Spanned

def originAt (serial position length : Nat) : Origin := ⟨⟨0, serial⟩, ⟨position, length⟩⟩

def reference (serial position length : Nat) (name : String) : Node :=
  .variableAccess ⟨originAt serial position length,
    some ⟨originAt (serial + 1) position length, some name⟩⟩

def entry (serial position length : Nat) (value : Node) : Item :=
  ⟨originAt serial position length, some value⟩

/-- A list of explicit dependencies. The array begins eleven characters after the key. -/
def list (serial position length : Nat) (entries : List Item) : Property :=
  ⟨originAt serial position length,
    some (.identifier ⟨originAt (serial + 1) position 9, some dependsOnKey⟩),
    some (.array ⟨originAt (serial + 2) (position + 11) (length - 11), entries.map some⟩)⟩

def resource (serial position length : Nat) (name : String) (value : Node) : Resource :=
  ⟨originAt serial position length, some ⟨originAt (serial + 1) position 1, some name⟩,
    some ⟨originAt (serial + 2) (position + 2) 1, some "type"⟩, some value⟩

def module (serial position length : Nat) (name : String) (value : Node) : Module :=
  ⟨originAt serial position length, some ⟨originAt (serial + 1) position 1, some name⟩,
    some ⟨originAt (serial + 2) (position + 2) 1, some "path"⟩, some value⟩

def body (serial position length : Nat) (properties : List Property) (resources : List Resource) :
    Object :=
  ⟨originAt serial position length, properties.map some, resources.map some⟩

def plain : Resource := resource 5 20 20 "plain" (.object (body 8 30 5 [] []))

def plainSymbol : Symbol := ⟨⟨1, 2⟩, .resource, some "plain", some (.resourceDecl plain)⟩

/-- A module with a resource in its body that depends on the plain one. -/
def hosting (position : Nat) : Module :=
  let inner := resource 17 (position + 8) 70 "inner" (.object (body 20 (position + 16) 60
    [list 21 (position + 18) 50 [entry 24 (position + 33) 20
      (reference 25 (position + 34) 5 "plain")]] []))
  module 13 position 90 "hosting" (.object (body 16 (position + 6) 80 [] [inner]))

def hostingSymbol (position : Nat) : Symbol :=
  ⟨⟨1, 1⟩, .module, some "hosting", some (.moduleDecl (hosting position))⟩

/-- A resource with the plain one nested in its body, in front of its list, which has one entry. -/
def outer (length : Nat) (value : Node) : Resource :=
  resource 1 0 length "outer" (.object (body 4 10 (length - 20)
    [list 9 50 (length - 70) [entry 12 62 (length - 90) value]] [plain]))

/-- The module of the given position, and a resource that refers to it by a value. -/
def modelOf (length position : Nat) (value : Node) (declarations : List Node) : Model :=
  let outerSymbol : Symbol :=
    ⟨⟨1, 0⟩, .resource, some "outer", some (.resourceDecl (outer length value))⟩
  let innerSymbol : Symbol := ⟨⟨1, 3⟩, .resource, some "inner", none⟩
  { maker := 1
    program := .program ⟨originAt 0 0 400,
      (Node.resourceDecl (outer length value) :: declarations).map some⟩
    bindings := [⟨⟨0, 1⟩, outerSymbol⟩, ⟨value.id, hostingSymbol position⟩,
      ⟨⟨0, 5⟩, plainSymbol⟩, ⟨⟨0, 17⟩, innerSymbol⟩, ⟨⟨0, 25⟩, plainSymbol⟩]
    issued := 4 }

/-- The module stands at the top level. -/
def placed : Model :=
  modelOf 120 200 (reference 30 64 5 "hosting") [.moduleDecl (hosting 200)]

/-- The module stands in the list of the resource. -/
def misplaced : Model := modelOf 190 64 (.moduleDecl (hosting 64)) []

def inferred (m : Model) : DependencyMap :=
  m.resources.filterMap fun x =>
    (m.symbolOf (some (.resourceDecl x))).map fun s =>
      (s, [⟨s, hostingSymbol 0, none⟩, ⟨s, plainSymbol, none⟩])

end Spanned

open Spanned in
theorem Rule.removals_do_not_conflict_sample :
    placed.program.Distinct ∧ placed.program.Complete ∧ placed.program.WellSpanned ∧
      placed.program.PlacesResources placed.program.Declares ∧
      placed.resources.map (fun x => x.origin.span.position) = [0, 20, 208] ∧
      (placed.resources.Pairwise fun x y => x.origin.span.position ≤ y.origin.span.position) ∧
      ∃ found, Redundancy.find placed (inferred placed) = .ok found ∧
        Redundancy.entryIds found = [⟨0, 12⟩, ⟨0, 24⟩] ∧
        found.Pairwise fun r r' => ¬ r.entry.origin.span.Overlaps r'.entry.origin.span := by
  have hd : placed.program.Distinct := by decide +kernel
  have hc : placed.program.Complete := by decide +kernel
  have hs : placed.program.WellSpanned := by decide +kernel
  have hmodule : .moduleDecl (hosting 200) ∈ placed.program.children := by
    simp [placed, modelOf, Node.mem_children_iff, Node.places_program]
  have hplaced : placed.program.PlacesResources placed.program.Declares := by
    refine Node.placesResources_of_ids hd [hosting 200] ?_ (by decide +kernel)
    intro x hx
    obtain rfl := List.mem_singleton.mp hx
    exact ⟨Node.child_mem_preorder hmodule, hmodule⟩
  obtain ⟨hresources, hfindings, _⟩ := removals_do_not_conflict placed _ rfl hd hc hs hplaced
  obtain ⟨found, hfound, hpairwise⟩ := hfindings (inferred placed)
  refine ⟨hd, hc, hs, hplaced, by decide +kernel, hresources, found, hfound, ?_, hpairwise⟩
  have hids : (Redundancy.find placed (inferred placed)).map Redundancy.entryIds =
      .ok [⟨0, 12⟩, ⟨0, 24⟩] := by decide +kernel
  rw [hfound] at hids
  exact Except.ok.inj hids

open Spanned in
/-- It matters where modules are declared. With a module in a list of explicit dependencies the
resource in its body is listed before one that stands in front of the list, and the entry that
holds the module overlaps with an entry of that resource. -/
theorem Rule.misplaced_module_conflicts :
    (∃ P, misplaced.program = .program P) ∧ misplaced.program.Distinct ∧
      misplaced.program.Complete ∧ misplaced.program.WellSpanned ∧
      (misplaced.program.PlacesResources fun _ => True) ∧
      (¬ misplaced.resources.Pairwise fun x y =>
        x.origin.span.position ≤ y.origin.span.position) ∧
      ∃ found, Redundancy.find misplaced (inferred misplaced) = .ok found ∧
        ¬ found.Pairwise fun r r' => ¬ r.entry.origin.span.Overlaps r'.entry.origin.span := by
  have hd : misplaced.program.Distinct := by decide +kernel
  have hc : misplaced.program.Complete := by decide +kernel
  have hplaced : misplaced.program.PlacesResources fun _ => True := by
    refine Node.placesResources_of_ids hd [hosting 64] ?_ (by decide +kernel)
    intro x hx
    obtain rfl := List.mem_singleton.mp hx
    let value : Node := .moduleDecl (hosting 64)
    have houter : .resourceDecl (outer 190 value) ∈ misplaced.program.preorder :=
      Node.child_mem_preorder (by simp [misplaced, modelOf, value, Node.mem_children_iff,
        Node.places_program])
    have hentry : (outer 190 value).Lists 0 (entry 12 62 100 value) :=
      ⟨_, ⟨_, list 9 50 120 [entry 12 62 100 value], .plain _,
        ⟨[], [], rfl, ⟨_, rfl, rfl⟩, by exact nofun⟩, rfl⟩, rfl⟩
    have hmem := Resource.entry_mem_preorder houter hentry
    exact ⟨Node.mem_preorder_of_child hmem (Node.mem_children_item rfl), trivial⟩
  have hoverlap : ((Redundancy.find misplaced (inferred misplaced)).map fun found =>
      decide (found.Pairwise fun r r' =>
        ¬ r.entry.origin.span.Overlaps r'.entry.origin.span)) = .ok false := by
    decide +kernel
  refine ⟨⟨_, rfl⟩, hd, hc, by decide +kernel, hplaced, by decide +kernel, _,
    Redundancy.find_eq hc, ?_⟩
  rw [Redundancy.find_eq hc] at hoverlap
  exact of_decide_eq_false (Except.ok.inj hoverlap)

end InfraLint
