import InfraLint.Proofs.Stock

/-!
What the parts of a call keep. Whatever a call is given, and whether it succeeds or not, the nodes
that it makes join the stock of the draft and the names that it is given to refer to join those
that wait. There is one rule for each way to put runs together, and one statement for each
function from which a call is made.
-/
namespace InfraLint

theorem Literal.mem_nodesIn_iff {n : Node} {entries : List (String × Literal)} :
    n ∈ Literal.nodesIn entries ↔ ∃ e ∈ entries, n ∈ e.2.nodes := by
  induction entries with
  | nil => simp [Literal.nodesIn]
  | cons entry rest ih =>
    obtain ⟨key, x⟩ := entry
    rw [Literal.nodesIn, List.mem_append, ih]
    simp

/-- The name that a listed text gives. -/
def Literal.text? : Literal → Option String
  | .text s => some s
  | _ => none

/-- The name to which making the expression refers, if it can be written. -/
def Expression.names (x : Expression) : List String := if x.Placeable then [x.root] else []

namespace Draft

/-- The names to which listed dependencies refer. -/
def Explicit.names : Explicit → List String
  | .entries values => values.filterMap Literal.text?
  | .node _ => []

def Explicit.nodes : Explicit → List Node
  | .entries values => Literal.nodesAll values
  | .node n => [n]

variable {α β : Type} {d d' b : Draft} {made made' : Set Node} {names : List String}

/-- The outcome of a run from `d`, and the draft that it leaves, are as `Q` says. -/
def Ends (c : Drafting α) (d : Draft) (Q : Except Unplaceable α → Draft → Prop) : Prop :=
  Q (c.run.run d).1 (c.run.run d).2

/-- A stretch that began at `b` has kept the stock, and so are the nodes of its value kept, if it
has come to one. -/
def Keeps (b : Draft) (made : Set Node) (names : List String) (parts : α → List Node)
    (outcome : Except Unplaceable α) (d' : Draft) : Prop :=
  ∃ made', Leads b made names d' made' ∧ ∀ a, outcome = .ok a → ∀ n ∈ parts a, n ∈ made'

section Rules

variable {c : Drafting α} {f : α → Drafting β} {parts : α → List Node} {parts' : β → List Node}
  {Q : Except Unplaceable β → Draft → Prop}

theorem Yields.ends {P : Except Unplaceable α → Draft → Prop} {a : α}
    (hc : Yields c d a d') (h : P (.ok a) d') : Ends c d P := by
  unfold Ends
  rw [show c.run.run d = (.ok a, d') from hc]
  exact h

theorem Yields.ends_bind {a : α} (hc : Yields c d a d') (hf : Ends (f a) d' Q) :
    Ends (c >>= f) d Q := by
  unfold Ends
  rw [ExceptT.run_bind, StateT.run_bind, show c.run.run d = (.ok a, d') from hc]
  exact hf

theorem Leads.ok (h : Leads b made names d' made') {a : α} (ha : ∀ n ∈ parts a, n ∈ made') :
    Keeps b made names parts (.ok a) d' := by
  refine ⟨made', h, fun a' heq => ?_⟩
  rw [← Except.ok.inj heq]
  exact ha

theorem Leads.error (h : Leads b made names d' made') (e : Unplaceable) :
    Keeps b made names parts (.error e) d' :=
  ⟨made', h, fun _ heq => nomatch heq⟩

/-- A run that may fail, with another one after it. -/
theorem Ends.bind (hc : Ends c d (Keeps b made names parts))
    (hok : ∀ a d' made', Leads b made names d' made' → (∀ n ∈ parts a, n ∈ made') →
      Ends (f a) d' Q)
    (herror : ∀ e d' made', Leads b made names d' made' → Q (.error e) d') :
    Ends (c >>= f) d Q := by
  unfold Ends at hc ⊢
  rw [ExceptT.run_bind, StateT.run_bind]
  obtain ⟨made', hleads, hparts⟩ := hc
  cases hrun : c.run.run d with
  | mk outcome d' =>
    rw [hrun] at hleads hparts
    cases outcome with
    | error e => exact herror e d' made' hleads
    | ok a => exact hok a d' made' hleads (hparts a rfl)

/-- A text that cannot be had ends a run before anything is done. -/
theorem ends_spelled {text : Except TooLong String} {f : String → Drafting β}
    (hok : ∀ s, Ends (f s) d Q) (herror : ∀ e, Q (.error e) d) : Ends (spelled text >>= f) d Q := by
  cases text with
  | error e => exact herror (.tooLong e)
  | ok s => exact hok s

/-- A run that ends a stretch. -/
theorem Ends.after (hc : Ends c d (Keeps d made' [] parts)) (h : Leads b made names d made') :
    Ends c d (Keeps b made names parts) := by
  obtain ⟨made'', hleads, hparts⟩ := hc
  exact ⟨made'', h.followed hleads, hparts⟩

end Rules

private theorem leaf_keeps (hs : d.Stock made) {c : Drafting Node} {n : Node} {text : String}
    (hc : Yields c d n (d.placed text)) (horigin : n.origin = d.nextOrigin text)
    (hchildren : n.children = []) (hinert : n.Inert) :
    Ends c d (Keeps d made [] fun n => [n]) := by
  refine hc.ends (((Leads.refl hs).leaf text horigin hchildren hinert).ok ?_)
  simp

private theorem put_array {places : List (Option Item)} (h : Leads b made names d made')
    (hplaces : ∀ n ∈ places.reduceOption.map .item, n ∈ made') :
    Leads b made names (d.placed "[]") (insert (.array ⟨d.nextOrigin "[]", places⟩) made') := by
  exact h.put "[]" rfl (Node.children_array _) hplaces rfl (Node.labelled_of_bare rfl)

private theorem put_object {places : List (Option Property)} {resources : List (Option Resource)}
    (h : Leads b made names d made')
    (hplaces : ∀ n ∈ places.reduceOption.map .property, n ∈ made')
    (hresources : ∀ n ∈ resources.reduceOption.map .resourceDecl, n ∈ made') :
    Leads b made names (d.placed "\x7b\x7d")
      (insert (.object ⟨d.nextOrigin "\x7b\x7d", places, resources⟩) made') := by
  exact h.put "\x7b\x7d" rfl (Node.children_object _)
    (List.forall_mem_append.mpr ⟨hplaces, hresources⟩) rfl (Node.labelled_of_bare rfl)

mutual

theorem placeValue_keeps : (x : Literal) → {d : Draft} → {made : Set Node} → d.Stock made →
    (∀ n ∈ x.nodes, n ∈ made) → Ends (placeValue x) d (Keeps d made [] fun n => [n])
  | .node n, d, _, hs, hx => (Yields.pure n d).ends ((Leads.refl hs).ok hx)
  | .boolean b, d, _, hs, _ =>
    leaf_keeps hs (n := .boolean ⟨d.nextOrigin (Text.truth b), some b⟩) rfl rfl rfl
      ⟨⟨trivial, rfl⟩, rfl⟩
  | .integer i, d, _, hs, _ =>
    ends_spelled (fun s => leaf_keeps hs (n := .integer ⟨d.nextOrigin s, some i⟩) rfl rfl rfl
      ⟨⟨trivial, rfl⟩, rfl⟩) fun e => (Leads.refl hs).error e
  | .text s, d, _, hs, _ =>
    leaf_keeps hs (n := .string ⟨d.nextOrigin s, some s⟩) rfl rfl rfl ⟨⟨trivial, rfl⟩, rfl⟩
  | .list items, d, made, hs, hx => by
    unfold placeValue
    refine (placeItems_keeps items hs hx).bind ?_ fun e _ _ h => h.error e
    intro places d' made' h hplaces
    refine (yields_place d' "[]").ends_bind ((Yields.pure _ _).ends ((put_array h hplaces).ok ?_))
    simp
  | .record entries, d, made, hs, hx => by
    unfold placeValue
    refine (placeProperties_keeps entries hs hx).bind ?_ fun e _ _ h => h.error e
    intro places d' made' h hplaces
    have h' : Leads d made [] (d'.placed "\x7b\x7d")
        (insert (.object ⟨d'.nextOrigin "\x7b\x7d", places, []⟩) made') :=
      put_object h hplaces fun n hn => absurd hn List.not_mem_nil
    refine (yields_place d' "\x7b\x7d").ends_bind ((Yields.pure _ _).ends (h'.ok ?_))
    simp
  | .other _, _, made, hs, _ => ⟨made, Leads.refl hs, fun _ heq => nomatch heq⟩

theorem placeItems_keeps : (items : List Literal) → {d : Draft} → {made : Set Node} →
    d.Stock made → (∀ n ∈ Literal.nodesAll items, n ∈ made) →
    Ends (placeItems items) d (Keeps d made [] fun places => places.reduceOption.map .item)
  | [], d, _, hs, _ => (Yields.pure [] d).ends ((Leads.refl hs).ok (by simp))
  | x :: rest, d, made, hs, hx => by
    rw [Literal.nodesAll, List.forall_mem_append] at hx
    unfold placeItems
    refine (placeValue_keeps x hs hx.1).bind ?_ fun e _ _ h => h.error e
    intro v d₁ made₁ h₁ hv
    let i : Item := ⟨d₁.nextOrigin "_", some v⟩
    have h₂ := h₁.put "_" (n := .item i) rfl rfl hv rfl (Node.labelled_of_bare rfl)
    refine (yields_wrapItem d₁ v).ends_bind ?_
    refine (placeItems_keeps rest h₂.stock fun n hn => h₂.kept (hx.2 n hn)).bind ?_
      fun e _ _ h => (h₂.followed h).error e
    intro places d₃ made₃ h₃ hplaces
    refine (Yields.pure _ _).ends ((h₂.followed h₃).ok ?_)
    rw [List.reduceOption_cons_of_some, List.map_cons, List.forall_mem_cons]
    exact ⟨h₃.kept (Set.mem_insert _ _), hplaces⟩

theorem placeProperties_keeps : (entries : List (String × Literal)) → {d : Draft} →
    {made : Set Node} → d.Stock made → (∀ n ∈ Literal.nodesIn entries, n ∈ made) →
    Ends (placeProperties entries) d
      (Keeps d made [] fun places => places.reduceOption.map .property)
  | [], d, _, hs, _ => (Yields.pure [] d).ends ((Leads.refl hs).ok (by simp))
  | (key, x) :: rest, d, made, hs, hx => by
    rw [Literal.nodesIn, List.forall_mem_append] at hx
    let name : Identifier := ⟨(d.placed key).nextOrigin key, some key⟩
    -- The property has taken its place, and its key is there.
    have hkey := (Leads.refl (hs.placed key)).word key
    unfold placeProperties
    refine (yields_place d key).ends_bind ((yields_identifier _ key).ends_bind ?_)
    refine (placeValue_keeps x hkey.stock fun n hn => hkey.kept (hx.1 n hn)).bind ?_
      fun e _ _ h => ((Leads.place hs key).followed (hkey.followed h)).error e
    intro v d₁ made₁ h₁ hv
    let p : Property := ⟨d.nextOrigin key, some (.identifier name), some v⟩
    have h₂ := Leads.enclose hs (hkey.followed h₁) (n := .property p) (l := [.identifier name, v])
      rfl rfl (List.forall_mem_cons.mpr ⟨h₁.kept (Set.mem_insert _ _), hv⟩) rfl
      (Node.labelled_of_bare rfl)
    refine (placeProperties_keeps rest h₂.stock fun n hn => h₂.kept (hx.2 n hn)).bind ?_
      fun e _ _ h => (h₂.followed h).error e
    intro places d₃ made₃ h₃ hplaces
    refine (Yields.pure _ _).ends ((h₂.followed h₃).ok ?_)
    rw [List.reduceOption_cons_of_some, List.map_cons, List.forall_mem_cons]
    exact ⟨h₃.kept (Set.mem_insert _ _), hplaces⟩

end

theorem array_keeps (values : List Literal) (hs : d.Stock made)
    (hx : ∀ n ∈ Literal.nodesAll values, n ∈ made) :
    Ends (array values) d (Keeps d made [] fun a => [.array a]) := by
  unfold array
  refine (placeItems_keeps values hs hx).bind ?_ fun e _ _ h => h.error e
  intro places d' made' h hplaces
  refine (yields_place d' "[]").ends_bind ((Yields.pure _ _).ends ((put_array h hplaces).ok ?_))
  simp

/-- The nodes in a record are among those of its entries. -/
theorem mem_nodesIn_of_ofEntries {n : Node} {entries : Entries Literal}
    (h : n ∈ (Literal.ofEntries entries).nodes) : n ∈ Literal.nodesIn entries := by
  obtain ⟨e, he, hn⟩ := Literal.mem_nodesIn_iff.mp h
  rcases Entries.mem_putAll he with he | he
  · exact absurd he List.not_mem_nil
  · exact Literal.mem_nodesIn_iff.mpr ⟨e, he, hn⟩

theorem object_keeps (entries : Entries Literal) (resources : List (Option Resource))
    (hs : d.Stock made) (hx : ∀ n ∈ (Literal.ofEntries entries).nodes, n ∈ made)
    (hresources : ∀ n ∈ resources.reduceOption.map .resourceDecl, n ∈ made) :
    Ends (object entries resources) d (Keeps d made [] fun x => [.object x]) := by
  unfold object
  refine (placeProperties_keeps _ hs hx).bind ?_ fun e _ _ h => h.error e
  intro places d' made' h hplaces
  have h' := put_object h hplaces fun n hn => h.kept (hresources n hn)
  refine (yields_place d' "\x7b\x7d").ends_bind ((Yields.pure _ _).ends (h'.ok ?_))
  simp

/-- Making a bare reference adds it to those that wait. -/
theorem reference_leads (name : String) (hs : d.Stock made) :
    ∃ d' made', Yields (reference name) d (d.referenceNode name) d' ∧
      Leads d made [name] d' made' ∧ d.referenceNode name ∈ made' := by
  have hword := (Leads.refl (hs.placed name)).word name
  have hleads := Leads.join hs hword (n := d.referenceNode name) rfl rfl
    (List.forall_mem_singleton.mpr (Set.mem_insert _ _)) (Node.labelled_of_bare rfl)
  exact ⟨_, _, rfl, hleads, Set.mem_insert _ _⟩

theorem along_leads (path : List String) (base : Node) (hs : d.Stock made) (hbase : base ∈ made) :
    ∃ n d' made', Yields (along base path) d n d' ∧ Leads d made [] d' made' ∧ n ∈ made' := by
  induction path generalizing base d made with
  | nil => exact ⟨base, d, made, Yields.pure base d, Leads.refl hs, hbase⟩
  | cons segment rest ih =>
    let name : Identifier := ⟨(d.placed segment).nextOrigin segment, some segment⟩
    let access : Node := .propertyAccess ⟨d.nextOrigin segment, some base, some name⟩
    have hword := (Leads.refl (hs.placed segment)).word segment
    have haccess := Leads.enclose hs hword (n := access) (l := [base, .identifier name]) rfl rfl
      (List.forall_mem_cons.mpr ⟨Set.mem_insert_of_mem _ hbase,
        List.forall_mem_singleton.mpr (Set.mem_insert _ _)⟩) rfl (Node.labelled_of_bare rfl)
    obtain ⟨n, d', made', hyields, hleads, hn⟩ := ih access haccess.stock (Set.mem_insert _ _)
    exact ⟨n, d', made', (yields_place d segment).bind ((yields_identifier _ segment).bind hyields),
      haccess.followed hleads, hn⟩

/-- Making an expression adds a reference to its root. -/
theorem make_leads {x : Expression} (hx : x.Placeable) (hs : d.Stock made) :
    ∃ n d' made', Yields x.make d n d' ∧ Leads d made [x.root] d' made' ∧ n ∈ made' := by
  cases x with
  | reference name =>
    obtain ⟨d', made', hyields, hleads, hn⟩ := reference_leads name hs
    exact ⟨_, d', made', hyields, hleads, hn⟩
  | member name path =>
    obtain ⟨d₁, made₁, hyields₁, h₁, hbase⟩ := reference_leads name hs
    obtain ⟨n, d₂, made₂, hyields₂, h₂, hn⟩ := along_leads path _ h₁.stock hbase
    exact ⟨n, d₂, made₂, hyields₁.bind hyields₂, h₁.followed h₂, hn⟩
  | element name i path =>
    let text := s!"{name}[{i}]"
    obtain ⟨d₁, made₁, hyields₁, h₁, hbase⟩ := reference_leads name (hs.placed text)
    let index : Node := .integer ⟨d₁.nextOrigin (toString i), some i⟩
    have h₂ := h₁.leaf (toString i) (n := index) rfl rfl ⟨⟨trivial, rfl⟩, rfl⟩
    let access : Node := .arrayAccess ⟨d.nextOrigin text,
      some ((d.placed text).referenceNode name), some index⟩
    have h₃ := Leads.enclose hs h₂ (n := access) rfl rfl
      (List.forall_mem_cons.mpr ⟨Set.mem_insert_of_mem _ hbase,
        List.forall_mem_singleton.mpr (Set.mem_insert _ _)⟩) rfl (Node.labelled_of_bare rfl)
    obtain ⟨n, d₄, made₄, hyields₄, h₄, hn⟩ := along_leads path access h₃.stock (Set.mem_insert _ _)
    exact ⟨n, d₄, made₄, (yields_digits hx d).bind ((yields_place d text).bind (hyields₁.bind
      ((yields_place d₁ (toString i)).bind hyields₄))), h₃.followed h₄, hn⟩

theorem make_keeps (x : Expression) (hs : d.Stock made) :
    Ends x.make d (Keeps d made x.names fun n => [n]) := by
  unfold Expression.names
  by_cases hx : x.Placeable
  · obtain ⟨n, d', made', hyields, hleads, hn⟩ := make_leads hx hs
    rw [if_pos hx]
    exact hyields.ends (hleads.ok (List.forall_mem_singleton.mpr hn))
  · obtain ⟨e, hfails⟩ := make_fails hx d
    rw [if_neg hx, Ends, hfails]
    exact (Leads.refl hs).error e

private theorem readEntry_leads (x : Literal) (hs : d.Stock made) (hx : ∀ n ∈ x.nodes, n ∈ made) :
    ∃ y d' made', Yields (readEntry x) d y d' ∧
      Leads d made ([x].filterMap Literal.text?) d' made' ∧ ∀ n ∈ y.nodes, n ∈ made' := by
  cases x with
  | text s =>
    obtain ⟨n, d', made', hyields, hleads, hn⟩ := make_leads (x := .reference s) trivial hs
    refine ⟨.node n, d', made', hyields.bind (Yields.pure _ _), hleads, ?_⟩
    simpa [Literal.nodes] using hn
  | _ => exact ⟨_, d, made, Yields.pure _ d, Leads.refl hs, hx⟩

/-- Reading listed dependencies adds references to the names among them. -/
theorem readEntries_leads (values : List Literal) (hs : d.Stock made)
    (hx : ∀ n ∈ Literal.nodesAll values, n ∈ made) :
    ∃ read d' made', Yields (readEntries values) d read d' ∧
      Leads d made (values.filterMap Literal.text?) d' made' ∧
      ∀ n ∈ Literal.nodesAll read, n ∈ made' := by
  induction values generalizing d made with
  | nil => exact ⟨[], d, made, Yields.pure [] d, Leads.refl hs, hx⟩
  | cons x rest ih =>
    rw [Literal.nodesAll, List.forall_mem_append] at hx
    obtain ⟨y, d₁, made₁, hyields₁, hleads₁, hy⟩ := readEntry_leads x hs hx.1
    obtain ⟨read, d₂, made₂, hyields₂, hleads₂, hread⟩ :=
      ih hleads₁.stock fun n hn => hleads₁.kept (hx.2 n hn)
    refine ⟨y :: read, d₂, made₂, hyields₁.bind (hyields₂.bind (Yields.pure _ _)), ?_, ?_⟩
    · rw [← List.singleton_append, List.filterMap_append]
      exact hleads₁.trans hleads₂
    · rw [Literal.nodesAll, List.forall_mem_append]
      exact ⟨fun n hn => hleads₂.kept (hy n hn), hread⟩

theorem explicitNode_keeps (x : Explicit) (hs : d.Stock made) (hx : ∀ n ∈ x.nodes, n ∈ made) :
    Ends (explicitNode x) d (Keeps d made x.names fun n => [n]) := by
  cases x with
  | node n => exact (Yields.pure n d).ends ((Leads.refl hs).ok hx)
  | entries values =>
    obtain ⟨read, d₁, made₁, hyields, h₁, hread⟩ := readEntries_leads values hs hx
    refine hyields.ends_bind ((array_keeps read h₁.stock hread).bind ?_ ?_)
    · intro a d₂ made₂ h₂ ha
      exact (Yields.pure _ _).ends ((h₁.followed h₂).ok ha)
    · exact fun e _ _ h₂ => (h₁.followed h₂).error e

theorem explicitEntry_keeps (dependsOn : Option Explicit) (hs : d.Stock made)
    (hx : ∀ n ∈ dependsOn.elim [] Explicit.nodes, n ∈ made) :
    Ends (explicitEntry dependsOn) d
      (Keeps d made (dependsOn.elim [] Explicit.names) Literal.nodesIn) := by
  cases dependsOn with
  | none => exact (Yields.pure [] d).ends ((Leads.refl hs).ok (by simp [Literal.nodesIn]))
  | some x =>
    refine (explicitNode_keeps x hs hx).bind ?_ fun e _ _ h => h.error e
    intro n d' made' h hn
    exact (Yields.pure _ _).ends (h.ok (by simpa [Literal.nodesIn, Literal.nodes] using hn))

/-- A loop around a body, if there is to be one. -/
private theorem repeat_keeps (v : Node) (loop : Bool) (h : Leads b made names d made')
    (hv : v ∈ made') :
    Ends (if loop then do
        let origin ← place "for"
        let variableName ← identifier "i"
        let range ← array [.integer 1, .integer 2, .integer 3]
        pure (.loop ⟨origin, some variableName, some (.array range), some v⟩)
      else pure v) d (Keeps b made names fun n => [n]) := by
  cases loop with
  | false => exact (Yields.pure v d).ends (h.ok (List.forall_mem_singleton.mpr hv))
  | true =>
    have hword := (Leads.refl (h.stock.placed "for")).word "i"
    refine (yields_place d "for").ends_bind ((yields_identifier _ "i").ends_bind ?_)
    refine (array_keeps _ hword.stock fun n hn => absurd hn List.not_mem_nil).bind ?_
      fun e _ _ h' =>
        (h.followed ((Leads.place h.stock "for").followed (hword.followed h'))).error e
    intro range d' made'' h' hrange
    let name : Identifier := ⟨(d.placed "for").nextOrigin "i", some "i"⟩
    let l : Loop := ⟨d.nextOrigin "for", some name, some (.array range), some v⟩
    have hloop := Leads.enclose h.stock (hword.followed h') (n := .loop l)
      (l := [.identifier name, .array range, v]) rfl rfl
      (List.forall_mem_cons.mpr ⟨h'.kept (Set.mem_insert _ _), List.forall_mem_cons.mpr
        ⟨hrange _ List.mem_cons_self, List.forall_mem_singleton.mpr
          (h'.kept (Set.mem_insert_of_mem _ hv))⟩⟩) rfl (Node.labelled_of_bare rfl)
    exact (Yields.pure _ _).ends ((h.followed hloop).ok
      (List.forall_mem_singleton.mpr (Set.mem_insert _ _)))

/-- Loops and conditions around a body. -/
theorem wrap_keeps (x : Object) (loop condition : Bool) (hs : d.Stock made)
    (hx : .object x ∈ made) :
    Ends (wrap (.object x) loop condition) d (Keeps d made [] fun n => [n]) := by
  cases condition with
  | false => exact (Yields.pure _ d).ends_bind (repeat_keeps (.object x) loop (Leads.refl hs) hx)
  | true =>
    let truth : Node := .boolean ⟨(d.placed "if").nextOrigin "true", some true⟩
    let c : Conditional := ⟨d.nextOrigin "if", some truth, some (.object x)⟩
    have htruth := (Leads.refl (hs.placed "if")).leaf "true" (n := truth) rfl rfl
      ⟨⟨trivial, rfl⟩, rfl⟩
    have hguard := Leads.enclose hs htruth (n := .conditional c) (l := [truth, .object x]) rfl rfl
      (List.forall_mem_cons.mpr ⟨Set.mem_insert _ _,
        List.forall_mem_singleton.mpr (Set.mem_insert_of_mem _ hx)⟩) rfl (Node.labelled_of_bare rfl)
    exact (yields_place d "if").ends_bind ((yields_place _ "true").ends_bind
      ((Yields.pure _ _).ends_bind
        (repeat_keeps (.conditional c) loop hguard (Set.mem_insert _ _))))

end Draft

end InfraLint
