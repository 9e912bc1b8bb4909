import InfraLint.Proofs.Consultations

/-!
What an audit asks of its model. The questions are said per resource and per entry, without any of
the functions that put them. Main statement: in a complete document an audit asks for the resources
once, and then for each of them, in document order, just what is to be known of it. A resource
without a list is not asked about, and the entries of one that is no key of the map are not either.
-/
namespace InfraLint

namespace Journal

variable {ν ε α β : Type}

theorem notes_forEach_cons {f : α → Journal ν ε (List β)} {x : α} {rest : List α} {bs : List β}
    (h : (f x).outcome = .ok bs) :
    (forEach f (x :: rest)).notes = (f x).notes ++ (forEach f rest).notes := by
  have hlast : (forEach f rest >>= fun more => pure (bs ++ more)).notes =
      (forEach f rest).notes := by
    rw [notes_bind]
    cases (forEach f rest).outcome <;> exact List.append_nil _
  rw [forEach_cons, ← bind_eq, notes_bind, h]
  exact congrArg ((f x).notes ++ ·) hlast

/-- A list of computations that all succeed writes down what they do one after the other. -/
theorem exists_notes_forEach (f : α → Journal ν ε (List β)) (P : α → List ν → Prop)
    (xs : List α) (hok : ∀ x ∈ xs, ∃ bs, (f x).outcome = .ok bs)
    (h : ∀ x ∈ xs, P x (f x).notes) :
    ∃ written, (forEach f xs).notes = written.flatten ∧ List.Forall₂ P xs written := by
  induction xs with
  | nil => exact ⟨[], rfl, .nil⟩
  | cons x rest ih =>
    obtain ⟨bs, hbs⟩ := hok x List.mem_cons_self
    obtain ⟨written, hnotes, hall⟩ := ih (fun y hy => hok y (List.mem_cons_of_mem x hy))
      fun y hy => h y (List.mem_cons_of_mem x hy)
    refine ⟨(f x).notes :: written, ?_, .cons (h x List.mem_cons_self) hall⟩
    rw [notes_forEach_cons hbs, hnotes, List.flatten_cons]

/-- What is known already adds nothing. -/
theorem notes_lift_bind {a : α} {next : α → Journal ν ε β} :
    (lift (.ok a) >>= next).notes = (next a).notes := by
  rw [notes_bind]
  rfl

end Journal

namespace DependencyMap

variable {map : DependencyMap} {source : Symbol}

theorem get?_eq_none_iff : map.get? source = none ↔ ∀ e ∈ map, e.1.id ≠ source.id := by
  unfold get?
  rw [Option.map_eq_none_iff, List.find?_eq_none]
  simp [Symbol.is]

theorem exists_get?_eq_some_iff :
    (∃ records, map.get? source = some records) ↔ ∃ e ∈ map, e.1.id = source.id := by
  rw [← Option.ne_none_iff_exists', ne_eq, get?_eq_none_iff]
  simp

end DependencyMap

namespace Note

@[simp] theorem queries_append (a b : List Note) : queries (a ++ b) = queries a ++ queries b :=
  List.filterMap_append

theorem queries_flatten (l : List (List Note)) : queries l.flatten = (l.map queries).flatten := by
  induction l with
  | nil => rfl
  | cons a rest ih => rw [List.flatten_cons, queries_append, ih, List.map_cons, List.flatten_cons]

end Note

/-- A question is written down before anything is made of its answer. -/
theorem Audit.notes_ask_bind {α β : Type} (q : Query) (answer : α) (next : α → Audit β) :
    (Audit.ask q answer >>= next).notes = .asked q :: (next answer).notes := by
  unfold Audit.ask
  simp only [Journal.notes_bind, Journal.outcome_bind]
  rfl

namespace Redundancy

variable {m : Model} {map : DependencyMap}

/-- The questions about one entry of a list: what it refers to and, where this is a resource or a
module, whether it is a collection. -/
inductive AsksAbout (m : Model) (item : Item) : List Query → Prop
  | unsettled
      (h : ∀ s, m.symbolOf item.value = some s → s.kind ≠ .resource ∧ s.kind ≠ .module) :
      AsksAbout m item [.symbolOf item.value]
  | settled {target : Symbol} (h : m.symbolOf item.value = some target)
      (hkind : target.kind = .resource ∨ target.kind = .module) :
      AsksAbout m item [.symbolOf item.value, .isCollection target]

/-- The questions about one resource: none if it has no list of dependencies, else for its symbol,
and about the entries, each in its turn, just where that symbol is a key of the map. -/
inductive Asks (m : Model) (map : DependencyMap) (x : Resource) : List Query → Prop
  | unlisted (h : ∀ a, ¬ x.HasList a) : Asks m map x []
  | unmapped {a : ArrayLiteral} (hlist : x.HasList a)
      (h : ∀ source, m.symbolOf (some (.resourceDecl x)) = some source →
        ∀ e ∈ map, e.1.id ≠ source.id) :
      Asks m map x [.symbolOf (some (.resourceDecl x))]
  | mapped {a : ArrayLiteral} {items : List Item} {source : Symbol} {asked : List (List Query)}
      (hlist : x.HasList a) (hitems : a.items = items.map some)
      (hsource : m.symbolOf (some (.resourceDecl x)) = some source)
      (hkey : ∃ e ∈ map, e.1.id = source.id) (h : List.Forall₂ (AsksAbout m) items asked) :
      Asks m map x (.symbolOf (some (.resourceDecl x)) :: asked.flatten)

theorem asksAbout_ofItem (source : Symbol) (records : List Dependency) (item : Item) :
    AsksAbout m item (Note.queries (ofItem m source records item).notes) := by
  unfold ofItem
  rw [Audit.notes_ask_bind]
  cases htarget : m.symbolOf item.value with
  | none => exact .unsettled fun s hs => nomatch htarget.symm.trans hs
  | some target =>
    by_cases hentity : target.isEntity = true
    · simp only [hentity, Bool.not_true, Bool.false_eq_true, if_false]
      rw [Audit.notes_ask_bind]
      -- However the test comes out, no question follows it.
      have hrest : (if target.isCollection = true then (pure [] : Audit (List Redundancy))
          else if implied records target = true then pure [⟨item, source, target⟩]
          else pure []).notes = [] := by
        cases target.isCollection <;> cases implied records target <;> rfl
      rw [hrest]
      exact .settled htarget (Symbol.isEntity_iff.mp hentity)
    · simp only [hentity, Bool.not_false, if_true]
      refine .unsettled fun s hs => ?_
      rw [← Option.some.inj (htarget.symm.trans hs)]
      exact not_or.mp (mt Symbol.isEntity_iff.mpr hentity)

/-- The questions about all entries of a list that are there. -/
theorem exists_asked_entries (source : Symbol) (records : List Dependency) (items : List Item) :
    ∃ asked, Note.queries (Journal.forEach (ofPlace m source records) (items.map some)).notes =
      asked.flatten ∧ List.Forall₂ (AsksAbout m) items asked := by
  obtain ⟨written, hnotes, hall⟩ := Journal.exists_notes_forEach (ofPlace m source records)
    (fun place notes => ∀ item, place = some item → AsksAbout m item (Note.queries notes))
    (items.map some)
    (fun place hplace => by
      obtain ⟨item, _, rfl⟩ := List.mem_map.mp hplace
      exact ⟨_, outcome_ofItem source records item⟩)
    (fun place hplace item heq => by
      subst heq
      exact asksAbout_ofItem source records item)
  refine ⟨written.map Note.queries, ?_, ?_⟩
  · rw [hnotes, Note.queries_flatten]
  · rw [List.forall₂_map_right_iff]
    rw [List.forall₂_map_left_iff] at hall
    exact hall.imp fun _ _ h => h _ rfl

theorem asks_ofResource (hc : m.program.Complete) {x : Resource}
    (hx : .resourceDecl x ∈ m.program.preorder) :
    Asks m map x (Note.queries (ofResource m map x).notes) := by
  have hr := Resource.readable_of_complete hc hx
  unfold ofResource
  by_cases hlist : ∃ a, x.HasList a
  · obtain ⟨a, ha⟩ := hlist
    rw [Resource.explicitEntries_of_hasList hr ha, Journal.notes_lift_bind]
    show Asks m map x (Note.queries (Audit.ask _ _ >>= _).notes)
    rw [Audit.notes_ask_bind]
    cases hsource : m.symbolOf (some (.resourceDecl x)) with
    | none => exact .unmapped ha fun s hs => nomatch hsource.symm.trans hs
    | some source =>
      cases hmap : map.get? source with
      | none =>
        simp only [hmap]
        refine .unmapped ha fun s hs => ?_
        rw [← Option.some.inj (hsource.symm.trans hs)]
        exact DependencyMap.get?_eq_none_iff.mp hmap
      | some records =>
        have hitems := Resource.listed_of_hasList hc hx ha
        obtain ⟨asked, hasked, hall⟩ := exists_asked_entries (m := m) source records x.listed
        rw [hitems] at hasked
        simp only [hmap]
        have hkey := DependencyMap.exists_get?_eq_some_iff.mp ⟨records, hmap⟩
        have hasks := Asks.mapped ha hitems.symm hsource hkey hall
        rw [← hasked] at hasks
        exact hasks
  · have hno : ∀ a, ¬ x.HasList a := fun a ha => hlist ⟨a, ha⟩
    rw [Resource.explicitEntries_of_not_hasList hr hno, Journal.notes_lift_bind]
    exact .unlisted hno

/-- An audit of a complete document asks for the resources, then about each of them in document
order, and nothing else. -/
theorem audit_asks_in_order (m : Model) (map : DependencyMap) (hc : m.program.Complete) :
    ∃ asked, Note.queries (audit m map).notes = .resources :: asked.flatten ∧
      List.Forall₂ (Asks m map) (m.program.preorder.filterMap Node.resource?) asked := by
  rw [← m.resources_eq]
  obtain ⟨written, hnotes, hall⟩ := Journal.exists_notes_forEach (ofResource m map)
    (fun x notes => Asks m map x (Note.queries notes)) m.resources
    (fun x hx => ⟨_, outcome_ofResource
      (Resource.legible_of_complete hc (Model.mem_resources_iff.mp hx))⟩)
    (fun x hx => asks_ofResource hc (Model.mem_resources_iff.mp hx))
  refine ⟨written.map Note.queries, ?_, ?_⟩
  · unfold audit
    rw [Audit.notes_ask_bind, hnotes]
    exact congrArg (Query.resources :: ·) (Note.queries_flatten written)
  · rw [List.forall₂_map_right_iff]
    exact hall

theorem audit_asks_in_order_sample :
    Sample.model.program.Complete ∧
      (Note.queries (audit Sample.model Sample.inferred).notes).length = 6 ∧
      ∃ asked, Note.queries (audit Sample.model Sample.inferred).notes =
          .resources :: asked.flatten ∧
        List.Forall₂ (Asks Sample.model Sample.inferred)
          (Sample.model.program.preorder.filterMap Node.resource?) asked := by
  have hc : Sample.model.program.Complete := by decide +kernel
  exact ⟨hc, by decide +kernel, audit_asks_in_order Sample.model Sample.inferred hc⟩

end Redundancy

end InfraLint
