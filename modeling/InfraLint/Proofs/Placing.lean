import InfraLint.Proofs.Expressions

/-!
Written values in drafts. Placing a value puts the nodes in it into new nodes that mention
nothing. A list becomes an array with an item for each member, and a record an object with a
property for each entry.
-/
namespace InfraLint

mutual

/-- The nodes that are used in a written value, in order. -/
def Literal.nodes : Literal → List Node
  | .node n => [n]
  | .list items => Literal.nodesAll items
  | .record entries => Literal.nodesIn entries
  | _ => []

def Literal.nodesAll : List Literal → List Node
  | [] => []
  | x :: rest => Literal.nodes x ++ Literal.nodesAll rest

def Literal.nodesIn : List (String × Literal) → List Node
  | [] => []
  | (_, x) :: rest => Literal.nodes x ++ Literal.nodesIn rest

end

mutual

/-- Nodes can be made of all that is in the value. -/
def Literal.Placeable : Literal → Prop
  | .integer i => Text.Spellable i
  | .list items => Literal.PlaceableAll items
  | .record entries => Literal.PlaceableIn entries
  | .other _ => False
  | _ => True

def Literal.PlaceableAll : List Literal → Prop
  | [] => True
  | x :: rest => Literal.Placeable x ∧ Literal.PlaceableAll rest

def Literal.PlaceableIn : List (String × Literal) → Prop
  | [] => True
  | (_, x) :: rest => Literal.Placeable x ∧ Literal.PlaceableIn rest

end

namespace Draft

/-- The item has the value that was written, if this is a node. -/
def ItemOf (x : Literal) (place : Option Item) : Prop :=
  ∃ i v, place = some i ∧ i.value = some v ∧ ∀ n, x = .node n → v = n

/-- The property has the key that was written, its value mentions what was written, and it is
the value that was written, if this is a node. -/
def PropertyOf (entry : String × Literal) (place : Option Property) : Prop :=
  ∃ p o v, place = some p ∧ p.key = some (.identifier ⟨o, some entry.1⟩) ∧ p.value = some v ∧
    (Node.mentions [v]).Perm (Node.mentions entry.2.nodes) ∧ ∀ n, entry.2 = .node n → v = n

private theorem leaf_grows {d : Draft} {n : Node} (text : String) (hn : n.children = [])
    (hid : n.id = (d.nextOrigin text).id) (hinert : n.Inert) :
    ∃ fresh, Grows d (d.placed text) [] [n] fresh ∧ ∀ k ∈ fresh, k.Inert := by
  refine ⟨[n], Grows.leaf d text hn hid hinert.named?, ?_⟩
  intro k hk
  rw [List.mem_singleton.mp hk]
  exact hinert

theorem yields_wrapItem (d : Draft) (v : Node) :
    Yields (wrapItem v) d (some ⟨d.nextOrigin "_", some v⟩) (d.placed "_") := rfl

private theorem isSome_of_items {items : List Literal} {places : List (Option Item)}
    (h : List.Forall₂ ItemOf items places) : ∀ place ∈ places, place.isSome := by
  intro place hplace
  obtain ⟨_, _, i, _, rfl, _⟩ := forall₂_right h hplace
  rfl

private theorem isSome_of_properties {entries : List (String × Literal)}
    {places : List (Option Property)} (h : List.Forall₂ PropertyOf entries places) :
    ∀ place ∈ places, place.isSome := by
  intro place hplace
  obtain ⟨_, _, p, _, _, rfl, _⟩ := forall₂_right h hplace
  rfl

private theorem inert_append {l : List Node} {n : Node} (hl : ∀ k ∈ l, k.Inert) (hn : n.Inert) :
    ∀ k ∈ l ++ [n], k.Inert := by
  intro k hk
  rcases List.mem_append.mp hk with hk | hk
  · exact hl k hk
  · rw [List.mem_singleton.mp hk]
    exact hn

private theorem items_grow {d d' : Draft} {parts fresh : List Node} {places : List (Option Item)}
    (h : Grows d d' parts (places.reduceOption.map .item) fresh) (hinert : ∀ k ∈ fresh, k.Inert)
    (hsome : ∀ place ∈ places, place.isSome) :
    ∃ fresh', Grows d (d'.placed "[]") parts [.array ⟨d'.nextOrigin "[]", places⟩] fresh' ∧
      ∀ k ∈ fresh', k.Inert :=
  ⟨_, h.after (Node.children_array _) "[]" rfl rfl, inert_append hinert ⟨⟨hsome, rfl⟩, rfl⟩⟩

private theorem properties_grow {d d' : Draft} {parts fresh : List Node}
    {places : List (Option Property)}
    (h : Grows d d' parts (places.reduceOption.map .property) fresh)
    (hinert : ∀ k ∈ fresh, k.Inert) (hsome : ∀ place ∈ places, place.isSome) :
    ∃ fresh', Grows d (d'.placed "\x7b\x7d") parts
        [.object ⟨d'.nextOrigin "\x7b\x7d", places, []⟩] fresh' ∧ ∀ k ∈ fresh', k.Inert := by
  have hchildren : (Node.object ⟨d'.nextOrigin "\x7b\x7d", places, []⟩).children =
      places.reduceOption.map .property := by
    rw [Node.children_object]
    exact List.append_nil _
  exact ⟨_, h.after hchildren "\x7b\x7d" rfl rfl, inert_append hinert ⟨⟨hsome, rfl⟩, rfl⟩⟩

mutual

/-- Placing a value puts its nodes into a new node; a node stands for itself. -/
theorem placeValue_grows : (x : Literal) → x.Placeable → (d : Draft) →
    ∃ n d' fresh, Yields (placeValue x) d n d' ∧ Grows d d' x.nodes [n] fresh ∧
      (∀ k ∈ fresh, k.Inert) ∧ ∀ n', x = .node n' → n = n'
  | .node n, _, d => ⟨n, d, [], rfl, Grows.refl d [n], by simp, by simp⟩
  | .boolean b, _, d => by
    obtain ⟨fresh, hgrows, hinert⟩ := leaf_grows (d := d) (Text.truth b)
      (n := .boolean ⟨d.nextOrigin (Text.truth b), some b⟩) rfl rfl ⟨⟨trivial, rfl⟩, rfl⟩
    exact ⟨_, _, fresh, rfl, hgrows, hinert, by simp⟩
  | .integer i, hi, d => by
    obtain ⟨fresh, hgrows, hinert⟩ := leaf_grows (d := d) (toString i)
      (n := .integer ⟨d.nextOrigin (toString i), some i⟩) rfl rfl ⟨⟨trivial, rfl⟩, rfl⟩
    exact ⟨_, _, fresh, (yields_digits hi d).bind rfl, hgrows, hinert, by simp⟩
  | .text s, _, d => by
    obtain ⟨fresh, hgrows, hinert⟩ := leaf_grows (d := d) s
      (n := .string ⟨d.nextOrigin s, some s⟩) rfl rfl ⟨⟨trivial, rfl⟩, rfl⟩
    exact ⟨_, _, fresh, rfl, hgrows, hinert, by simp⟩
  | .list items, hx, d => by
    obtain ⟨places, d', fresh, hyields, hgrows, hinert, hitems⟩ := placeItems_grows items hx d
    obtain ⟨fresh', hgrows', hinert'⟩ := items_grow hgrows hinert (isSome_of_items hitems)
    exact ⟨_, _, fresh', hyields.bind rfl, hgrows', hinert', by simp⟩
  | .record entries, hx, d => by
    obtain ⟨places, d', fresh, hyields, hgrows, hinert, hproperties⟩ :=
      placeProperties_grows entries hx d
    obtain ⟨fresh', hgrows', hinert'⟩ :=
      properties_grow hgrows hinert (isSome_of_properties hproperties)
    exact ⟨_, _, fresh', hyields.bind rfl, hgrows', hinert', by simp⟩
  | .other _, hx, _ => hx.elim

theorem placeItems_grows : (items : List Literal) → Literal.PlaceableAll items → (d : Draft) →
    ∃ places d' fresh, Yields (placeItems items) d places d' ∧
      Grows d d' (Literal.nodesAll items) (places.reduceOption.map .item) fresh ∧
      (∀ k ∈ fresh, k.Inert) ∧ List.Forall₂ ItemOf items places
  | [], _, d => ⟨[], d, [], rfl, Grows.refl d [], by simp, .nil⟩
  | x :: rest, hx, d => by
    obtain ⟨v, d₁, fresh₁, hyields₁, hgrows₁, hinert₁, hnode⟩ := placeValue_grows x hx.1 d
    let i : Item := ⟨d₁.nextOrigin "_", some v⟩
    have hitem := hgrows₁.after (n := .item i) rfl "_" rfl rfl
    obtain ⟨places, d₂, fresh₂, hyields₂, hgrows₂, hinert₂, hrest⟩ :=
      placeItems_grows rest hx.2 (d₁.placed "_")
    refine ⟨some i :: places, d₂, (fresh₁ ++ [.item i]) ++ fresh₂, ?_, ?_, ?_, ?_⟩
    · exact hyields₁.bind ((yields_wrapItem d₁ v).bind (hyields₂.bind (Yields.pure _ _)))
    · exact hitem.append hgrows₂
    · intro k hk
      simp only [List.append_assoc, List.cons_append, List.nil_append, List.mem_append,
        List.mem_cons] at hk
      rcases hk with hk | rfl | hk
      · exact hinert₁ k hk
      · exact ⟨⟨trivial, rfl⟩, rfl⟩
      · exact hinert₂ k hk
    · exact .cons ⟨i, v, rfl, rfl, hnode⟩ hrest

theorem placeProperties_grows : (entries : List (String × Literal)) →
    Literal.PlaceableIn entries → (d : Draft) →
    ∃ places d' fresh, Yields (placeProperties entries) d places d' ∧
      Grows d d' (Literal.nodesIn entries) (places.reduceOption.map .property) fresh ∧
      (∀ k ∈ fresh, k.Inert) ∧ List.Forall₂ PropertyOf entries places
  | [], _, d => ⟨[], d, [], rfl, Grows.refl d [], by simp, .nil⟩
  | (key, x) :: rest, hx, d => by
    let name : Identifier := ⟨(d.placed key).nextOrigin key, some key⟩
    obtain ⟨v, d₁, fresh₁, hyields₁, hgrows₁, hinert₁, hnode⟩ :=
      placeValue_grows x hx.1 ((d.placed key).placed key)
    let p : Property := ⟨d.nextOrigin key, some (.identifier name), some v⟩
    have hword := (Grows.leaf (n := .identifier name) (d.placed key) key rfl rfl rfl).append hgrows₁
    have hproperty := hword.before (n := .property p) rfl rfl rfl
    obtain ⟨places, d₂, fresh₂, hyields₂, hgrows₂, hinert₂, hrest⟩ :=
      placeProperties_grows rest hx.2 d₁
    refine ⟨some p :: places, d₂, .property p :: ([.identifier name] ++ fresh₁) ++ fresh₂,
      ?_, ?_, ?_, ?_⟩
    · exact (yields_place d key).bind ((yields_identifier _ key).bind
        (hyields₁.bind (hyields₂.bind (Yields.pure _ _))))
    · exact hproperty.append hgrows₂
    · intro k hk
      simp only [List.cons_append, List.nil_append, List.mem_append, List.mem_cons] at hk
      rcases hk with rfl | rfl | hk | hk
      · exact ⟨⟨rfl, rfl⟩, rfl⟩
      · exact inert_identifier name
      · exact hinert₁ k hk
      · exact hinert₂ k hk
    · exact .cons ⟨p, _, v, rfl, rfl, rfl, hgrows₁.mentions hinert₁, hnode⟩ hrest

end

/-- An array of written values. -/
theorem array_grows (items : List Literal) (hx : Literal.PlaceableAll items) (d : Draft) :
    ∃ a d' fresh, Yields (array items) d a d' ∧
      Grows d d' (Literal.nodesAll items) [.array a] fresh ∧ (∀ k ∈ fresh, k.Inert) ∧
      List.Forall₂ ItemOf items a.items := by
  obtain ⟨places, d', fresh, hyields, hgrows, hinert, hitems⟩ := placeItems_grows items hx d
  obtain ⟨fresh', hgrows', hinert'⟩ := items_grow hgrows hinert (isSome_of_items hitems)
  exact ⟨_, _, fresh', hyields.bind rfl, hgrows', hinert', hitems⟩

/-- An object of written entries with different keys. -/
theorem object_grows (entries : Entries Literal) (hkeys : Entries.putAll [] entries = entries)
    (hx : Literal.PlaceableIn entries) (d : Draft) :
    ∃ x d' fresh, Yields (object entries []) d x d' ∧
      Grows d d' (Literal.nodesIn entries) [.object x] fresh ∧ (∀ k ∈ fresh, k.Inert) ∧
      List.Forall₂ PropertyOf entries x.properties := by
  obtain ⟨places, d', fresh, hyields, hgrows, hinert, hproperties⟩ :=
    placeProperties_grows entries hx d
  obtain ⟨fresh', hgrows', hinert'⟩ :=
    properties_grow hgrows hinert (isSome_of_properties hproperties)
  refine ⟨_, _, fresh', ?_, hgrows', hinert', hproperties⟩
  unfold object
  rw [hkeys]
  exact hyields.bind rfl

end Draft

end InfraLint
