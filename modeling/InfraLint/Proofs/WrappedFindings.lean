import InfraLint.Proofs.Ownership
import InfraLint.Proofs.Transfer
import InfraLint.Proofs.Wrapping

/-!
What an audit finds after the value of one resource or module is wrapped. Main statement: behind a
condition nothing changes; in a loop exactly the findings are gone that are about entries that
refer to the declaration, for it is a collection now. All entries are still looked at, those of the
wrapped declaration and of the resources nested in it as well.
-/
namespace InfraLint

/-- A declaration of a resource or module, the kind of its symbols and its value. -/
inductive Node.DeclaresEntity : Node → SymbolKind → Option Node → Prop
  | resource (x : Resource) : DeclaresEntity (.resourceDecl x) .resource x.value
  | module (x : Module) : DeclaresEntity (.moduleDecl x) .module x.value

def Symbol.declaredBy (kind : SymbolKind) (id : Identity) (s : Symbol) : Bool :=
  s.kind == kind && s.declaring.any fun n => n.id == id

/-- The model `m'` is about the document of `m` with the value of one declaration wrapped, and all
nodes stand for what they stood for. What the nodes stand for that came with the wrapper is open. -/
structure Model.WrappedTo (w : Wrapper) (id : Identity) (m m' : Model) : Prop where
  program : m'.program = m.program.edit (.wrapping w id)
  symbolOf : ∀ n ∈ m.program.preorder, m'.symbolOf (some (n.edit (.wrapping w id))) =
    (m.symbolOf (some n)).map (Symbol.edit (.wrapping w id))

/-- The symbols of the model mean this node by its identity. Nodes are told apart by their
identities alone, so a symbol that is declared by a node of this identity is declared by this
node. -/
def Model.Knows (m : Model) (d : Node) : Prop :=
  ∀ n s, m.symbolOf n = some s → ∀ k, s.declaring = some k → k.id = d.id → k = d

def Redundancy.editAll (e : Edit) (r : Redundancy) : Redundancy :=
  ⟨Item.edit e r.entry, r.source.edit e, r.target.edit e⟩

section

variable {w : Wrapper} {d : Node} {kind : SymbolKind} {value : Option Node}

/-- No other resource has the identity of the declaration. -/
theorem Node.DeclaresEntity.fitsAt (hdecl : d.DeclaresEntity kind value) {root : Node}
    (hdistinct : root.Distinct) (hd : d ∈ root.preorder) (hfits : w.Fits value) (x : Resource)
    (hx : .resourceDecl x ∈ root.preorder) (hid : x.origin.id = d.id) : w.Fits x.value := by
  obtain rfl : Node.resourceDecl x = d := hdistinct.eq_of_id hx hd hid
  cases hdecl
  exact hfits

/-- Of the symbols that the declaration declares those of its kind become collections, if it is put
into a loop. -/
private theorem isCollection_edit_of_declared (hd : d.DeclaresEntity kind value)
    (hfits : w.Fits value) {s : Symbol} (hs : s.declaring = some d) :
    (s.edit (.wrapping w d.id)).isCollection =
      (s.isCollection || w.repeats && s.declaredBy kind d.id) := by
  obtain ⟨id, kind', name, declaring⟩ := s
  obtain rfl : declaring = some d := hs
  cases hd with
  | resource x =>
    cases kind' with
    | resource =>
      show Node.isLoop (Resource.edit (.wrapping w x.origin.id) x).value =
        (Node.isLoop x.value || _)
      rw [Resource.value_edit_wrapping, if_pos rfl, w.isLoop_around, hfits.isLoop_eq]
      simp [Symbol.declaredBy]
    | _ =>
      show false = (false || w.repeats && false)
      rw [Bool.and_false, Bool.or_false]
  | module x =>
    obtain ⟨o, name', path, value⟩ := x
    have hwrap : (Edit.wrapping w o.id).module ⟨o, name', path, value.map (Node.edit _)⟩ =
        ⟨o, name', path, w.around (value.map (Node.edit (.wrapping w o.id)))⟩ := if_pos rfl
    cases kind' with
    | module =>
      show Symbol.isCollection ⟨id, .module, name,
        some (Node.edit (.wrapping w o.id) (.moduleDecl ⟨o, name', path, value⟩))⟩ =
          (Node.isLoop value || _)
      rw [Node.edit_moduleDecl, hwrap, hfits.isLoop_eq]
      show Node.isLoop (w.around _) = _
      rw [w.isLoop_around]
      simp [Symbol.declaredBy]
    | _ =>
      show false = (false || w.repeats && false)
      rw [Bool.and_false, Bool.or_false]

private theorem isCollection_edit_of_not_declared {s : Symbol} {id : Identity}
    (hs : ∀ k, s.declaring = some k → k.id ≠ id) :
    (s.edit (.wrapping w id)).isCollection = s.isCollection := by
  refine Symbol.isCollection_edit_of_isLoop (fun x hx => ?_) fun x hx => ?_
  · have hid : x.origin.id ≠ id := hs _ hx
    rw [Resource.value_edit_wrapping, if_neg hid, Node.isLoop_edit]
  · have hid : x.origin.id ≠ id := hs _ hx
    have hsame : (Edit.wrapping w id).module
        { x with value := x.value.map (Node.edit (.wrapping w id)) } =
          { x with value := x.value.map (Node.edit (.wrapping w id)) } := if_neg hid
    rw [hsame, Node.isLoop_edit]

theorem Symbol.isCollection_edit_wrapping (hd : d.DeclaresEntity kind value)
    (hfits : w.Fits value) {s : Symbol} (hs : ∀ k, s.declaring = some k → k.id = d.id → k = d) :
    (s.edit (.wrapping w d.id)).isCollection =
      (s.isCollection || w.repeats && s.declaredBy kind d.id) := by
  by_cases hdeclared : s.declaring = some d
  · exact isCollection_edit_of_declared hd hfits hdeclared
  · have hother : ∀ k, s.declaring = some k → k.id ≠ d.id := by
      intro k hk hid
      rw [hs k hk hid] at hk
      exact hdeclared hk
    have hno : s.declaredBy kind d.id = false := by
      unfold declaredBy
      cases hk : s.declaring with
      | none => simp
      | some k => simp [hother k hk]
    rw [hno, Bool.and_false, Bool.or_false]
    exact isCollection_edit_of_not_declared hother

end

theorem Model.wrappedTo_edit (w : Wrapper) (id : Identity) (m : Model) :
    m.WrappedTo w id (m.edit (.wrapping w id)) := by
  refine ⟨rfl, fun n _ => ?_⟩
  rw [Model.symbolOf_edit]
  simp only [Model.symbolOf, Node.id_edit Edit.keepsOrigins_wrapping]

namespace Model.WrappedTo

variable {w : Wrapper} {d : Node} {kind : SymbolKind} {value : Option Node} {m m' : Model}

theorem resources_eq (h : m.WrappedTo w d.id m') (hadded : Node.resourcesAt w.added = []) :
    m'.resources = m.resources.map (Resource.edit (.wrapping w d.id)) := by
  rw [Model.resources_eq_resourcesIn, Model.resources_eq_resourcesIn, h.program,
    Node.resourcesIn_edit_wrapping hadded]

theorem symbolOf_place (h : m.WrappedTo w d.id m') {place : Option Node}
    (hplace : ∀ n, place = some n → n ∈ m.program.preorder) :
    m'.symbolOf (place.map (Node.edit (.wrapping w d.id))) =
      (m.symbolOf place).map (Symbol.edit (.wrapping w d.id)) := by
  cases place with
  | none => rfl
  | some n => exact h.symbolOf n (hplace n rfl)

end Model.WrappedTo

namespace Redundancy

variable {w : Wrapper} {d : Node} {kind : SymbolKind} {value : Option Node} {m m' : Model}

/-- What an edited entry comes to: what the entry comes to, unless this is about the declaration and
the declaration is repeated now. -/
theorem ofEntry_wrapped (h : m.WrappedTo w d.id m') (hd : d.DeclaresEntity kind value)
    (hfits : w.Fits value) (hknows : m.Knows d) (source : Symbol) (records : List Dependency)
    {item : Item} (hitem : ∀ n, item.value = some n → n ∈ m.program.preorder) :
    ofEntry m' (source.edit (.wrapping w d.id))
        (records.map (Dependency.edit (.wrapping w d.id))) (Item.edit (.wrapping w d.id) item) =
      ((ofEntry m source records item).filter fun r =>
        !(w.repeats && r.target.declaredBy kind d.id)).map (editAll (.wrapping w d.id)) := by
  have hvalue : (Item.edit (.wrapping w d.id) item).value =
      item.value.map (Node.edit (.wrapping w d.id)) := by
    obtain ⟨o, value⟩ := item
    rw [Item.edit_mk]
  unfold ofEntry
  rw [hvalue, h.symbolOf_place hitem]
  cases htarget : m.symbolOf item.value with
  | none => rfl
  | some target =>
    have himplied : implied (records.map (Dependency.edit (.wrapping w d.id)))
        (target.edit (.wrapping w d.id)) = implied records target := by
      unfold implied
      rw [List.any_map]
      rfl
    have hentity : (target.edit (.wrapping w d.id)).isEntity = target.isEntity := rfl
    simp only [Option.map_some, Option.bind_some, himplied, hentity,
      Symbol.isCollection_edit_wrapping hd hfits (hknows _ _ htarget)]
    cases target.isEntity <;> cases target.isCollection <;> cases implied records target <;>
      cases hgone : w.repeats && target.declaredBy kind d.id <;>
        simp [hgone, Option.filter, editAll]

theorem ofEntryOf_wrapped (h : m.WrappedTo w d.id m') (hd : d.DeclaresEntity kind value)
    (hfits : w.Fits value) (hknows : m.Knows d) (map : DependencyMap) {x : Resource}
    (hx : .resourceDecl x ∈ m.program.preorder) {item : Item}
    (hitem : ∀ n, item.value = some n → n ∈ m.program.preorder) :
    ofEntryOf m' (map.edit (.wrapping w d.id)) (Resource.edit (.wrapping w d.id) x)
        (Item.edit (.wrapping w d.id) item) =
      ((ofEntryOf m map x item).filter fun r =>
        !(w.repeats && r.target.declaredBy kind d.id)).map (editAll (.wrapping w d.id)) := by
  have hsource : m'.symbolOf (some (.resourceDecl (Resource.edit (.wrapping w d.id) x))) =
      (m.symbolOf (some (.resourceDecl x))).map (Symbol.edit (.wrapping w d.id)) :=
    h.symbolOf _ hx
  unfold ofEntryOf
  rw [hsource]
  cases m.symbolOf (some (.resourceDecl x)) with
  | none => rfl
  | some source =>
    simp only [Option.map_some, Option.bind_some, DependencyMap.get?_edit]
    cases map.get? source with
    | none => rfl
    | some records => exact ofEntry_wrapped h hd hfits hknows source records hitem

theorem find_wrapped (h : m.WrappedTo w d.id m') (hdecl : d.DeclaresEntity kind value)
    (hfits : w.Fits value) (hknows : m.Knows d) (map : DependencyMap)
    (hdistinct : m.program.Distinct) (hc : m.program.Complete) (hd : d ∈ m.program.preorder)
    (hadded : Node.resourcesAt w.added = []) {found : List Redundancy}
    (hfound : find m map = .ok found) :
    find m' (map.edit (.wrapping w d.id)) = .ok ((found.filter fun r =>
      !(w.repeats && r.target.declaredBy kind d.id)).map (editAll (.wrapping w d.id))) := by
  have hresources := h.resources_eq hadded
  have hfitsAt := hdecl.fitsAt hdistinct hd hfits
  have hlegible : ∀ x ∈ m'.resources, x.Legible := by
    intro x' hx'
    rw [hresources] at hx'
    obtain ⟨x, hx, rfl⟩ := List.mem_map.mp hx'
    have hmem := Model.mem_resources_iff.mp hx
    exact (Resource.legible_of_complete hc hmem).edit_wrapping (hfitsAt x hmem)
  have hrow : ∀ x ∈ m.resources, (Resource.edit (.wrapping w d.id) x).listed.filterMap
      (ofEntryOf m' (map.edit (.wrapping w d.id)) (Resource.edit (.wrapping w d.id) x)) =
        ((x.listed.filterMap (ofEntryOf m map x)).filter fun r =>
          !(w.repeats && r.target.declaredBy kind d.id)).map (editAll (.wrapping w d.id)) := by
    intro x hx
    have hmem := Model.mem_resources_iff.mp hx
    rw [Resource.listed_edit_wrapping (hfitsAt x hmem), List.filterMap_map, List.filter_filterMap,
      List.map_filterMap]
    refine List.filterMap_congr fun item hitem => ?_
    exact ofEntryOf_wrapped h hdecl hfits hknows map hmem fun n =>
      Resource.entryValue_mem_preorder hc hmem hitem
  obtain rfl := Except.ok.inj ((find_eq hc).symm.trans hfound)
  rw [find_eq_of_legible hlegible, hresources, List.flatMap_map, List.flatMap_congr hrow,
    List.filter_flatMap, List.map_flatMap]

/-- The value of one resource or module is wrapped, in a document of its own nodes only. All
resources are still there and list what they listed. Behind a condition all findings are the same;
in a loop they are those that are not about the declaration. -/
theorem wrapping_drops_findings_about_loop (w : Wrapper) (m m' : Model) (map : DependencyMap)
    (d : Node) (kind : SymbolKind) (value : Option Node) (hdistinct : m.program.Distinct)
    (hc : m.program.Complete) (hd : d ∈ m.program.preorder) (hdecl : d.DeclaresEntity kind value)
    (hfits : w.Fits value) (hadded : ∀ n, w.added = some n → ∀ x, .resourceDecl x ∉ n.preorder)
    (hknows : m.Knows d) (h : m.WrappedTo w d.id m') :
    m'.resources = m.resources.map (Resource.edit (.wrapping w d.id)) ∧
      (∀ x ∈ m.resources, (Resource.edit (.wrapping w d.id) x).listed =
        x.listed.map (Item.edit (.wrapping w d.id))) ∧
      ∃ found, find m map = .ok found ∧
        (w.repeats = false → find m' (map.edit (.wrapping w d.id)) =
          .ok (found.map (editAll (.wrapping w d.id)))) ∧
        (w.repeats = true → find m' (map.edit (.wrapping w d.id)) =
          .ok ((found.filter fun r => !r.target.declaredBy kind d.id).map
            (editAll (.wrapping w d.id)))) := by
  have hnone : Node.resourcesAt w.added = [] := by
    cases hw : w.added with
    | none => rfl
    | some n => exact Node.resourcesIn_eq_nil_iff.mpr (hadded n hw)
  refine ⟨h.resources_eq hnone, fun x hx => ?_, _, find_eq hc, fun hno => ?_, fun hyes => ?_⟩
  · exact Resource.listed_edit_wrapping
      (hdecl.fitsAt hdistinct hd hfits x (Model.mem_resources_iff.mp hx))
  · rw [find_wrapped h hdecl hfits hknows map hdistinct hc hd hnone (find_eq hc)]
    simp [hno]
  · rw [find_wrapped h hdecl hfits hknows map hdistinct hc hd hnone (find_eq hc)]
    simp [hyes]

/-- A loop that goes over a range. -/
def Sample.loop : Wrapper :=
  .loop (originAt 90) (some (word 91 "j")) (some (reference 92 "range"))

theorem Sample.model_knows_store : model.Knows (.resourceDecl store) := by
  have hwebs : (Node.resourceDecl web).id ≠ (Node.resourceDecl store).id := by decide
  have hsymbols : ∀ b ∈ model.bindings, ∀ k, b.symbol.declaring = some k →
      k.id = (Node.resourceDecl store).id → k = .resourceDecl store := by
    intro b hb k hk hid
    have hcases : b.symbol = storeSymbol ∨ b.symbol = webSymbol := by
      simp only [model, List.mem_cons, List.not_mem_nil, or_false] at hb
      rcases hb with rfl | rfl | rfl | rfl | rfl <;> simp
    rcases hcases with hstore | hweb
    · rw [hstore] at hk
      exact (Option.some.inj hk).symm
    · rw [hweb] at hk
      obtain rfl : Node.resourceDecl web = k := Option.some.inj hk
      exact absurd hid hwebs
  intro n s hs
  cases n with
  | none => cases hs
  | some n =>
    obtain ⟨b, hb, rfl⟩ := Option.map_eq_some_iff.mp hs
    exact hsymbols b (List.mem_of_find?_eq_some hb)

theorem wrapping_drops_findings_about_loop_sample :
    Sample.model.program.Distinct ∧ Sample.model.program.Complete ∧
      ∃ found found', find Sample.model Sample.inferred = .ok found ∧
        entryIds found = [⟨0, 30⟩, ⟨0, 33⟩] ∧
        find (Sample.model.edit (.wrapping Sample.loop ⟨0, 10⟩))
          (Sample.inferred.edit (.wrapping Sample.loop ⟨0, 10⟩)) = .ok found' ∧
        found' = (found.filter fun r => !r.target.declaredBy .resource ⟨0, 10⟩).map
          (editAll (.wrapping Sample.loop ⟨0, 10⟩)) ∧
        entryIds found' = [] := by
  have hd : Sample.model.program.Distinct := by decide +kernel
  have hc : Sample.model.program.Complete := by decide +kernel
  have hmem : Node.resourceDecl Sample.store ∈ Sample.model.program.preorder := by
    rw [Node.mem_preorder_iff]
    exact Or.inr ⟨_, List.mem_cons_self, Node.mem_preorder_self _⟩
  have hadded : ∀ n, Sample.loop.added = some n → ∀ x, .resourceDecl x ∉ n.preorder := by
    intro n hn
    obtain rfl : Sample.reference 92 "range" = n := Option.some.inj hn
    refine Node.resourcesIn_eq_nil_iff.mp ?_
    rw [Node.resourcesIn_eq, Sample.reference, Node.places_variableAccess, List.flatMap_cons,
      Node.resourcesAt_identifier]
    rfl
  obtain ⟨_, _, found, hfound, _, hloop⟩ := wrapping_drops_findings_about_loop Sample.loop
    Sample.model _ Sample.inferred (.resourceDecl Sample.store) .resource _ hd hc hmem
    (.resource Sample.store) (.loop _ _ _ _) hadded Sample.model_knows_store
    (Model.wrappedTo_edit Sample.loop ⟨0, 10⟩ Sample.model)
  have hids : (find Sample.model Sample.inferred).map entryIds = .ok [⟨0, 30⟩, ⟨0, 33⟩] := by
    decide +kernel
  have hids' : (find (Sample.model.edit (.wrapping Sample.loop ⟨0, 10⟩))
      (Sample.inferred.edit (.wrapping Sample.loop ⟨0, 10⟩))).map entryIds = .ok [] := by
    decide +kernel
  refine ⟨hd, hc, found, _, hfound, ?_, hloop rfl, rfl, ?_⟩
  · rw [hfound] at hids
    exact Except.ok.inj hids
  · have hfound' : find (Sample.model.edit (.wrapping Sample.loop ⟨0, 10⟩))
        (Sample.inferred.edit (.wrapping Sample.loop ⟨0, 10⟩)) = _ := hloop rfl
    rw [hfound'] at hids'
    exact Except.ok.inj hids'

end Redundancy

end InfraLint
