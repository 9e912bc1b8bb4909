import InfraLint.Proofs.Growth

/-!
Expressions in drafts. They refer to a name by itself, to a property below it, or to an element.
Making one adds nodes, and what these mention is just the name, with an index for an element.
-/
namespace InfraLint

/-- What can be written to refer to something by name. -/
inductive Expression where
  | reference (name : String)
  | member (name : String) (path : List String)
  | element (name : String) (i : Int) (path : List String)

namespace Expression

/-- The name that the expression starts from. -/
def root : Expression → String
  | .reference name => name
  | .member name _ => name
  | .element name _ _ => name

/-- The expression picks an element of what has the name. -/
def isElement : Expression → Bool
  | .element _ _ _ => true
  | _ => false

def make : Expression → Drafting Node
  | .reference name => Draft.reference name
  | .member name path => Draft.member name path
  | .element name i path => Draft.element name i path

/-- The index of an element can be written. -/
def Placeable : Expression → Prop
  | .element _ i _ => Text.Spellable i
  | _ => True

instance : DecidablePred Placeable
  | .reference _ => inferInstanceAs (Decidable True)
  | .member _ _ => inferInstanceAs (Decidable True)
  | .element _ i _ => inferInstanceAs (Decidable (Text.Spellable i))

/-- What the nodes of the expression mention. -/
def mentions (x : Expression) : List (String × Bool) :=
  if x.isElement then [(x.root, true), (x.root, false)] else [(x.root, false)]

theorem exists_mention_iff {x : Expression} {name : String} {other : Prop} :
    (∃ mention ∈ x.mentions, mention.1 = name ∧ (mention.2 = true ∨ other)) ↔
      x.root = name ∧ (x.isElement = true ∨ other) := by
  unfold mentions
  cases x.isElement <;> simp +contextual

end Expression

/-- What is mentioned below some nodes. -/
def Node.mentions (l : List Node) : List (String × Bool) :=
  (l.flatMap Node.preorder).filterMap Node.mention?

theorem Node.mentions_append (l l' : List Node) :
    Node.mentions (l ++ l') = Node.mentions l ++ Node.mentions l' := by
  rw [mentions, List.flatMap_append, List.filterMap_append]
  rfl

namespace Draft

variable {d d' : Draft}

/-- New nodes that mention nothing leave what is mentioned. -/
theorem Grows.mentions {parts whole fresh : List Node} (h : Grows d d' parts whole fresh)
    (hinert : ∀ k ∈ fresh, k.Inert) : (Node.mentions whole).Perm (Node.mentions parts) := by
  have hnone : fresh.filterMap Node.mention? = [] :=
    List.filterMap_eq_nil_iff.mpr fun k hk => (hinert k hk).2
  have hperm := h.nodes.filterMap Node.mention?
  rw [List.filterMap_append, hnone, List.append_nil] at hperm
  exact hperm

theorem yields_identifier (d : Draft) (name : String) :
    Yields (identifier name) d ⟨d.nextOrigin name, some name⟩ (d.placed name) := rfl

theorem yields_string (d : Draft) (value : String) :
    Yields (string value) d ⟨d.nextOrigin value, some value⟩ (d.placed value) := rfl

/-- The node that a bare reference makes in a draft. -/
def referenceNode (d : Draft) (name : String) : Node :=
  .variableAccess ⟨d.nextOrigin name, some ⟨(d.placed name).nextOrigin name, some name⟩⟩

theorem reference_grows (d : Draft) (name : String) :
    ∃ n d' fresh, Yields (reference name) d n d' ∧ Grows d d' [] [n] fresh ∧
      n.named? = some name ∧ (∀ k ∈ fresh, k.Bare) ∧
      fresh.filterMap Node.mention? = [(name, false)] := by
  let word : Node := .identifier ⟨(d.placed name).nextOrigin name, some name⟩
  let d' := (d.placed name).placed name
  have hpreorder : (d.referenceNode name).preorder = [d.referenceNode name, word] := by
    rw [Node.preorder_eq]
    show d.referenceNode name :: [word].flatMap Node.preorder = _
    rw [List.flatMap_singleton, Node.preorder_eq]
    rfl
  refine ⟨d.referenceNode name,
    { d' with references := d'.references ++ [⟨d.referenceNode name, name⟩] },
    [d.referenceNode name, word], rfl, ?_, rfl, ?_, rfl⟩
  · exact {
      nodes := by
        rw [List.flatMap_singleton, hpreorder]
        exact List.Perm.refl _
      ids := List.Perm.refl _
      issued := rfl
      references := List.Perm.refl _
      maker := rfl
      declarations := rfl
      symbols := rfl
      undeclared := rfl }
  · intro k hk
    simp only [List.mem_cons, List.not_mem_nil, or_false] at hk
    rcases hk with rfl | rfl
    · exact ⟨trivial, rfl⟩
    · exact ⟨trivial, rfl⟩

theorem inert_identifier (x : Identifier) : (Node.identifier x).Inert := ⟨⟨trivial, rfl⟩, rfl⟩

/-- A path puts its base into nodes that mention nothing. -/
theorem along_grows (path : List String) (base : Node) (d : Draft) :
    ∃ n d' fresh, Yields (along base path) d n d' ∧ Grows d d' [base] [n] fresh ∧
      ∀ k ∈ fresh, k.Inert := by
  induction path generalizing base d with
  | nil => exact ⟨base, d, [], Yields.pure base d, Grows.refl d [base], by simp⟩
  | cons segment rest ih =>
    let name : Identifier := ⟨(d.placed segment).nextOrigin segment, some segment⟩
    let access : Node := .propertyAccess ⟨d.nextOrigin segment, some base, some name⟩
    let d' := (d.placed segment).placed segment
    obtain ⟨n, d'', fresh, hyields, hgrows, hinert⟩ := ih access d'
    have hword : Grows (d.placed segment) d' [base] [base, .identifier name] [.identifier name] :=
      (Grows.refl _ [base]).append (Grows.leaf _ segment rfl rfl rfl)
    have haccess : Grows d d' [base] [access] [access, .identifier name] :=
      hword.before rfl rfl rfl
    refine ⟨n, d'', [access, .identifier name] ++ fresh, ?_, haccess.trans hgrows, ?_⟩
    · exact (yields_place d segment).bind ((yields_identifier _ segment).bind hyields)
    · intro k hk
      simp only [List.cons_append, List.nil_append, List.mem_cons] at hk
      rcases hk with rfl | rfl | hk
      · exact ⟨⟨trivial, rfl⟩, rfl⟩
      · exact inert_identifier name
      · exact hinert k hk

private theorem filterMap_mention_inert {l : List Node} (h : ∀ k ∈ l, k.Inert) :
    l.filterMap Node.mention? = [] :=
  List.filterMap_eq_nil_iff.mpr fun k hk => (h k hk).2

private theorem member_grows (name : String) (path : List String) (d : Draft) :
    ∃ n d' fresh, Yields (member name path) d n d' ∧ Grows d d' [] [n] fresh ∧
      (∀ k ∈ fresh, k.Bare) ∧ fresh.filterMap Node.mention? = [(name, false)] := by
  obtain ⟨base, d₁, fresh₁, hyields₁, hgrows₁, _, hbare, hmentions⟩ := reference_grows d name
  obtain ⟨n, d₂, fresh₂, hyields₂, hgrows₂, hinert⟩ := along_grows path base d₁
  refine ⟨n, d₂, fresh₁ ++ fresh₂, hyields₁.bind hyields₂, hgrows₁.trans hgrows₂, ?_, ?_⟩
  · intro k hk
    rcases List.mem_append.mp hk with hk | hk
    · exact hbare k hk
    · exact (hinert k hk).1
  · rw [List.filterMap_append, hmentions, filterMap_mention_inert hinert]
    rfl

private theorem element_grows (name : String) {i : Int} (hi : Text.Spellable i)
    (path : List String) (d : Draft) :
    ∃ n d' fresh, Yields (element name i path) d n d' ∧ Grows d d' [] [n] fresh ∧
      (∀ k ∈ fresh, k.Bare) ∧
      fresh.filterMap Node.mention? = [(name, true), (name, false)] := by
  obtain ⟨base, d₁, fresh₁, hyields₁, hgrows₁, hname, hbare, hmentions⟩ :=
    reference_grows (d.placed s!"{name}[{i}]") name
  let index : Node := .integer ⟨d₁.nextOrigin (toString i), some i⟩
  let access : Node :=
    .arrayAccess ⟨d.nextOrigin s!"{name}[{i}]", some base, some index⟩
  obtain ⟨n, d₂, fresh₂, hyields₂, hgrows₂, hinert⟩ :=
    along_grows path access (d₁.placed (toString i))
  have hparts : Grows (d.placed s!"{name}[{i}]") (d₁.placed (toString i)) [] [base, index]
      (fresh₁ ++ [index]) :=
    hgrows₁.append (Grows.leaf d₁ (toString i) rfl rfl rfl)
  have haccess : Grows d (d₁.placed (toString i)) [] [access] (access :: (fresh₁ ++ [index])) :=
    hparts.before rfl rfl rfl
  refine ⟨n, d₂, access :: (fresh₁ ++ [index]) ++ fresh₂, ?_, haccess.trans hgrows₂, ?_, ?_⟩
  · exact (yields_digits hi d).bind
      ((yields_place d _).bind (hyields₁.bind ((yields_place d₁ _).bind hyields₂)))
  · intro k hk
    simp only [List.cons_append, List.append_assoc, List.nil_append, List.mem_cons,
      List.mem_append] at hk
    rcases hk with rfl | hk | rfl | hk
    · exact ⟨trivial, rfl⟩
    · exact hbare k hk
    · exact ⟨trivial, rfl⟩
    · exact (hinert k hk).1
  · have haccess? : access.mention? = some (name, true) := by
      show (base.named?.map fun name => (name, true)) = _
      rw [hname]
      rfl
    rw [List.filterMap_append, filterMap_mention_inert hinert, List.append_nil,
      List.filterMap_cons_some haccess?, List.filterMap_append, hmentions]
    rfl

/-- Making an expression adds one node, and what is new mentions what the expression mentions. -/
theorem make_grows {x : Expression} (hx : x.Placeable) (d : Draft) :
    ∃ n d' fresh, Yields x.make d n d' ∧ Grows d d' [] [n] fresh ∧
      (∀ k ∈ fresh, k.Bare) ∧ fresh.filterMap Node.mention? = x.mentions := by
  cases x with
  | reference name =>
    obtain ⟨n, d', fresh, hyields, hgrows, _, hbare, hmentions⟩ := reference_grows d name
    exact ⟨n, d', fresh, hyields, hgrows, hbare, hmentions⟩
  | member name path => exact member_grows name path d
  | element name i path => exact element_grows name hx path d

/-- Nothing comes of an expression that cannot be written. -/
theorem make_fails {x : Expression} (hx : ¬ x.Placeable) (d : Draft) :
    ∃ e, x.make.run.run d = (.error e, d) := by
  cases x with
  | element name i path =>
    have hdigits : Text.whole i = .error ⟨i⟩ := if_neg hx
    refine ⟨.tooLong ⟨i⟩, ?_⟩
    show (element name i path).run.run d = _
    rw [element, hdigits]
    rfl
  | _ => exact absurd trivial hx

theorem Yields.placeable {x : Expression} {n : Node} (h : Yields x.make d n d') : x.Placeable := by
  by_contra hx
  obtain ⟨e, hfails⟩ := make_fails hx d
  cases hfails.symm.trans h

end Draft

end InfraLint
