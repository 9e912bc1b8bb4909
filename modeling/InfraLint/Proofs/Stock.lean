import InfraLint.Proofs.Entering
import Mathlib.Data.Set.Insert

/-!
The stock of a draft: all nodes that have been made, placed or not, by the draft or elsewhere. Each
node of the draft has an identity of its own, and the bare references among them are just those
that wait for their symbols. Programs aside, they take their places in the text in the order of
their identities, one behind the other. A run keeps the stock and adds to it, also where it fails:
then what it made before stays, although nobody gets to see it. The rules at the end put runs
together, with what they leave in either case.
-/
namespace InfraLint

namespace Node

/-- If the node is a declaration, its name has a text. -/
def Labelled (n : Node) : Prop := n.declares?.isSome = true → n.label?.isSome = true

theorem labelled_of_bare {n : Node} (h : n.declares? = none) : n.Labelled := by
  intro hsome
  rw [h] at hsome
  exact absurd hsome Bool.false_ne_true

/-- The node has an identity from the draft of this number, and it has been placed. Programs are
not: they stand over all of the text. -/
structure PlacedBy (n : Node) (maker : Nat) : Prop where
  maker : n.id.maker = maker
  kind : ∀ p, n ≠ .program p

theorem mem_reference?_iff {n : Node} {r : Reference} :
    r ∈ n.reference?.toList ↔ r.node = n ∧ r.node.named? = some r.name := by
  rw [Option.mem_toList, reference?, Option.map_eq_some_iff]
  constructor
  · rintro ⟨name, hname, rfl⟩
    exact ⟨rfl, hname⟩
  · rintro ⟨rfl, hname⟩
    exact ⟨r.name, hname, rfl⟩

end Node

namespace Draft

variable {d d' d'' b : Draft} {made made' made'' : Set Node} {names more : List String}

structure Stock (d : Draft) (made : Set Node) : Prop where
  issued : ∀ n ∈ made, n.id.maker = d.maker → n.id.serial < d.issued
  distinct : ∀ n ∈ made, ∀ k ∈ made, n.id.maker = d.maker → n.id = k.id → n = k
  closed : ∀ n ∈ made, ∀ c ∈ n.children, c ∈ made
  labelled : ∀ n ∈ made, n.id.maker = d.maker → n.Labelled
  references : ∀ r, r ∈ d.references ↔
    r.node ∈ made ∧ r.node.id.maker = d.maker ∧ r.node.named? = some r.name
  unrepeated : d.references.Nodup
  within : ∀ n ∈ made, n.PlacedBy d.maker → n.span.stop < d.position
  ascending : ∀ n ∈ made, ∀ k ∈ made, n.PlacedBy d.maker → k.PlacedBy d.maker →
    n.id.serial < k.id.serial → n.span.stop < k.span.position

/-- The place of the node in the text is where its identity has it among the others. -/
structure Fits (d : Draft) (made : Set Node) (n : Node) : Prop where
  within : n.span.stop < d.position
  behind : ∀ k ∈ made, k.PlacedBy d.maker → k.id.serial < n.id.serial →
    k.span.stop < n.span.position
  before : ∀ k ∈ made, k.PlacedBy d.maker → n.id.serial < k.id.serial →
    n.span.stop < k.span.position

namespace Stock

theorem start (maker : Nat) : (Draft.start maker).Stock ∅ where
  issued n hn := absurd hn (Set.notMem_empty n)
  distinct n hn := absurd hn (Set.notMem_empty n)
  closed n hn := absurd hn (Set.notMem_empty n)
  labelled n hn := absurd hn (Set.notMem_empty n)
  references r := by simp [Draft.start]
  unrepeated := List.nodup_nil
  within n hn := absurd hn (Set.notMem_empty n)
  ascending n hn := absurd hn (Set.notMem_empty n)

/-- Identities and places that are given out for nothing do no harm; declarations and symbols play
no role. -/
theorem later (h : d.Stock made) (hmaker : d'.maker = d.maker) (hissued : d.issued ≤ d'.issued)
    (hposition : d.position ≤ d'.position) (hreferences : d'.references = d.references) :
    d'.Stock made where
  issued n hn hown := (h.issued n hn (hown.trans hmaker)).trans_le hissued
  distinct n hn k hk hown := h.distinct n hn k hk (hown.trans hmaker)
  closed := h.closed
  labelled n hn hown := h.labelled n hn (hown.trans hmaker)
  references r := by
    rw [hreferences, hmaker]
    exact h.references r
  unrepeated := by
    rw [hreferences]
    exact h.unrepeated
  within n hn hplaced := by
    rw [hmaker] at hplaced
    exact (h.within n hn hplaced).trans_le hposition
  ascending := by
    rw [hmaker]
    exact h.ascending

theorem placed (h : d.Stock made) (text : String) : (d.placed text).Stock made :=
  h.later rfl (Nat.le_succ d.issued) (by simp only [Draft.placed]; omega) rfl

theorem below (h : d.Stock made) {n k : Node} (hn : n ∈ made) (hk : k ∈ n.preorder) :
    k ∈ made := by
  induction n using Node.children_induction with
  | step n ih =>
    rcases Node.mem_preorder_iff.mp hk with rfl | ⟨c, hc, hkc⟩
    · exact hn
    · exact ih c hc (h.closed n hn c hc) hkc

theorem not_mem (h : d.Stock made) {n : Node} {text : String}
    (horigin : n.origin = d.nextOrigin text) : n ∉ made := by
  intro hn
  have hid : n.id = ⟨d.maker, d.issued⟩ := by rw [Node.id, horigin]; rfl
  have hlt := h.issued n hn (congrArg Identity.maker hid)
  rw [hid] at hlt
  exact absurd hlt (Nat.lt_irrefl d.issued)

theorem nodup_references (h : d.Stock made) : (d.references.map fun r => r.node.id).Nodup := by
  refine List.Nodup.map_on ?_ h.unrepeated
  intro r hr t ht hid
  obtain ⟨hrnode, hown, hrname⟩ := (h.references r).mp hr
  obtain ⟨htnode, _, htname⟩ := (h.references t).mp ht
  obtain ⟨node, name⟩ := r
  obtain rfl : node = t.node := h.distinct _ hrnode _ htnode hown hid
  obtain rfl : name = t.name := Option.some.inj (hrname.symm.trans htname)
  rfl

/-- Of two nodes of the draft one stands behind the other. -/
theorem apart (h : d.Stock made) {n k : Node} (hn : n ∈ made) (hk : k ∈ made)
    (hn' : n.PlacedBy d.maker) (hk' : k.PlacedBy d.maker) (hne : n ≠ k) :
    n.span.stop < k.span.position ∨ k.span.stop < n.span.position := by
  have hserial : n.id.serial ≠ k.id.serial := by
    intro heq
    have hid : n.id = k.id := congrArg₂ Identity.mk (hn'.maker.trans hk'.maker.symm) heq
    exact hne (h.distinct n hn k hk hn'.maker hid)
  rcases Nat.lt_or_gt_of_ne hserial with hlt | hgt
  · exact Or.inl (h.ascending n hn k hk hn' hk' hlt)
  · exact Or.inr (h.ascending k hk n hn hk' hn' hgt)

/-- Nodes from elsewhere come into stock, with all that is below them. -/
theorem adopt (h : d.Stock made) {others : Set Node}
    (hclosed : ∀ n ∈ others, ∀ c ∈ n.children, c ∈ others)
    (hown : ∀ n ∈ others, n.id.maker = d.maker → n ∈ made) : d.Stock (made ∪ others) := by
  have hmade : ∀ n ∈ made ∪ others, n.id.maker = d.maker → n ∈ made :=
    fun n hn hmaker => hn.elim id fun hother => hown n hother hmaker
  exact {
    issued := fun n hn hmaker => h.issued n (hmade n hn hmaker) hmaker
    distinct := fun n hn k hk hmaker hid => h.distinct n (hmade n hn hmaker) k
      (hmade k hk (by rw [← hid]; exact hmaker)) hmaker hid
    closed := fun n hn c hc => hn.imp (fun hn => h.closed n hn c hc) fun hn => hclosed n hn c hc
    labelled := fun n hn hmaker => h.labelled n (hmade n hn hmaker) hmaker
    references := fun r => by
      rw [h.references r]
      exact ⟨fun hr => ⟨Or.inl hr.1, hr.2⟩, fun hr => ⟨hmade r.node hr.1 hr.2.1, hr.2⟩⟩
    unrepeated := h.unrepeated
    within := fun n hn hplaced => h.within n (hmade n hn hplaced.maker) hplaced
    ascending := fun n hn k hk hn' hk' =>
      h.ascending n (hmade n hn hn'.maker) k (hmade k hk hk'.maker) hn' hk' }

/-- A node with an identity of its own joins its children; if it is a reference, it waits for its
symbol. -/
theorem insert (h : d.Stock made) {n : Node} {l : List Node} (hmaker : n.id.maker = d.maker)
    (hserial : n.id.serial < d.issued) (hunused : ∀ k ∈ made, n.id ≠ k.id)
    (hchildren : n.children = l) (hl : ∀ c ∈ l, c ∈ made) (hlabelled : n.Labelled)
    (hfits : n.PlacedBy d.maker → d.Fits made n) :
    { d with references := d.references ++ n.reference?.toList }.Stock (insert n made) where
  issued k hk hown := by
    rcases Set.mem_insert_iff.mp hk with rfl | hold
    · exact hserial
    · exact h.issued k hold hown
  distinct k hk j hj hown heq := by
    rcases Set.mem_insert_iff.mp hk with rfl | hold
    · rcases Set.mem_insert_iff.mp hj with rfl | hold
      · rfl
      · exact absurd heq (hunused j hold)
    · rcases Set.mem_insert_iff.mp hj with rfl | hold'
      · exact absurd heq.symm (hunused k hold)
      · exact h.distinct k hold j hold' hown heq
  closed k hk c hc := by
    rcases Set.mem_insert_iff.mp hk with rfl | hold
    · rw [hchildren] at hc
      exact Set.mem_insert_of_mem _ (hl c hc)
    · exact Set.mem_insert_of_mem _ (h.closed k hold c hc)
  labelled k hk hown := by
    rcases Set.mem_insert_iff.mp hk with rfl | hold
    · exact hlabelled
    · exact h.labelled k hold hown
  references r := by
    rw [List.mem_append, h.references r, Node.mem_reference?_iff, Set.mem_insert_iff]
    constructor
    · rintro (⟨hr, hown, hname⟩ | ⟨heq, hname⟩)
      · exact ⟨Or.inr hr, hown, hname⟩
      · exact ⟨Or.inl heq, by rw [heq]; exact hmaker, hname⟩
    · rintro ⟨heq | hr, hown, hname⟩
      · exact Or.inr ⟨heq, hname⟩
      · exact Or.inl ⟨hr, hown, hname⟩
  unrepeated := by
    refine List.nodup_append'.mpr ⟨h.unrepeated, n.reference?.toList_nodup, fun r hold hnew => ?_⟩
    obtain ⟨heq, _⟩ := Node.mem_reference?_iff.mp hnew
    exact hunused r.node ((h.references r).mp hold).1 (congrArg Node.id heq.symm)
  within k hk hplaced := by
    rcases Set.mem_insert_iff.mp hk with rfl | hold
    · exact (hfits hplaced).within
    · exact h.within k hold hplaced
  ascending k hk j hj hplaced hplaced' hlt := by
    rcases Set.mem_insert_iff.mp hk with rfl | hold
    · rcases Set.mem_insert_iff.mp hj with rfl | hold
      · exact absurd hlt (Nat.lt_irrefl _)
      · exact (hfits hplaced).before j hold hplaced' hlt
    · rcases Set.mem_insert_iff.mp hj with rfl | hold'
      · exact (hfits hplaced').behind k hold hplaced hlt
      · exact h.ascending k hold j hold' hplaced hplaced' hlt

end Stock

/-- What waits stays the same when a node joins that is no reference. -/
theorem references_of_unnamed (d : Draft) {n : Node} (hname : n.named? = none) :
    { d with references := d.references ++ n.reference?.toList } = d := by
  rw [Node.reference?, hname, Option.map_none, Option.toList_none, List.append_nil]

/-- Between the two drafts the stock has grown by new nodes, references to `names` have come to
those that wait, and nothing has been entered or declared. -/
structure Leads (d : Draft) (made : Set Node) (names : List String) (d' : Draft)
    (made' : Set Node) : Prop where
  stock : d'.Stock made'
  kept : made ⊆ made'
  fresh : ∀ n ∈ made', n ∉ made →
    n.id.maker = d.maker ∧ d.issued ≤ n.id.serial ∧ d.position ≤ n.span.position
  issued : d.issued ≤ d'.issued
  position : d.position ≤ d'.position
  maker : d'.maker = d.maker
  names : (d'.references.map Reference.name).Perm (d.references.map Reference.name ++ names)
  declarations : d'.declarations = d.declarations
  symbols : d'.symbols = d.symbols
  undeclared : d'.undeclared = d.undeclared

namespace Leads

theorem refl (h : d.Stock made) : Leads d made [] d made where
  stock := h
  kept := Set.Subset.rfl
  fresh n hn hnew := absurd hn hnew
  issued := le_rfl
  position := le_rfl
  maker := rfl
  names := by rw [List.append_nil]
  declarations := rfl
  symbols := rfl
  undeclared := rfl

theorem trans (h : Leads d made names d' made') (h' : Leads d' made' more d'' made'') :
    Leads d made (names ++ more) d'' made'' where
  stock := h'.stock
  kept := h.kept.trans h'.kept
  fresh n hn hnew := by
    by_cases hmid : n ∈ made'
    · exact h.fresh n hmid hnew
    · obtain ⟨hmaker, hserial, hposition⟩ := h'.fresh n hn hmid
      exact ⟨hmaker.trans h.maker, h.issued.trans hserial, h.position.trans hposition⟩
  issued := h.issued.trans h'.issued
  position := h.position.trans h'.position
  maker := h'.maker.trans h.maker
  names := by
    rw [← List.append_assoc]
    exact h'.names.trans (h.names.append_right more)
  declarations := h'.declarations.trans h.declarations
  symbols := h'.symbols.trans h.symbols
  undeclared := h'.undeclared.trans h.undeclared

theorem followed (h : Leads d made names d' made') (h' : Leads d' made' [] d'' made'') :
    Leads d made names d'' made'' := by
  have hall := h.trans h'
  rw [List.append_nil] at hall
  exact hall

theorem place (h : d.Stock made) (text : String) : Leads d made [] (d.placed text) made :=
  { refl (h.placed text) with
    fresh := fun _ hn hnew => absurd hn hnew
    issued := Nat.le_succ d.issued
    position := by simp only [placed]; omega }

/-- A node takes its place, then its children come to be, and then the node. Only what takes its
place later is new meanwhile, so that the identity of the node is still unused, and its span lies
between what was there and what is new. -/
theorem join {text : String} (hs : d.Stock made)
    (h : Leads (d.placed text) made names d' made') {n : Node} {l : List Node}
    (horigin : n.origin = d.nextOrigin text) (hchildren : n.children = l) (hl : ∀ c ∈ l, c ∈ made')
    (hlabelled : n.Labelled) :
    Leads d made (names ++ n.named?.toList)
      { d' with references := d'.references ++ n.reference?.toList } (insert n made') := by
  have hid : n.id = ⟨d.maker, d.issued⟩ := by rw [Node.id, horigin]; rfl
  have hspan : n.span = ⟨d.position, text.length⟩ := by rw [Node.span, horigin]; rfl
  have hissued : d.issued + 1 ≤ d'.issued := h.issued
  have hposition : d.position + text.length + 1 ≤ d'.position := h.position
  have hmaker : d'.maker = d.maker := h.maker
  -- All that is new comes after the node, and all else before it.
  have hnew : ∀ k ∈ made', k ∉ made → k.id.maker = d.maker ∧ d.issued + 1 ≤ k.id.serial ∧
      d.position + text.length + 1 ≤ k.span.position := h.fresh
  have hold : ∀ k ∈ made, k.id.maker = d.maker → k.id.serial < d.issued := hs.issued
  have hunused : ∀ k ∈ made', n.id ≠ k.id := by
    intro k hk heq
    have hserial : k.id.serial = d.issued := by rw [← heq, hid]
    by_cases hmem : k ∈ made
    · have hlt := hold k hmem (by rw [← heq, hid])
      omega
    · have hle := (hnew k hk hmem).2.1
      omega
  have hfits : d'.Fits made' n := by
    refine ⟨?_, fun k hk hplaced hlt => ?_, fun k hk hplaced hlt => ?_⟩
    · rw [hspan]
      exact hposition
    · rw [hspan]
      by_cases hmem : k ∈ made
      · exact hs.within k hmem (hmaker ▸ hplaced)
      · have hle := (hnew k hk hmem).2.1
        rw [hid] at hlt
        exact absurd hlt (Nat.not_lt.mpr (Nat.le_of_succ_le hle))
    · rw [hspan]
      by_cases hmem : k ∈ made
      · have hlt' := hold k hmem (hplaced.maker.trans hmaker)
        rw [hid] at hlt
        exact absurd hlt (Nat.lt_asymm hlt')
      · exact (hnew k hk hmem).2.2
  refine ⟨h.stock.insert ?_ ?_ hunused hchildren hl hlabelled fun _ => hfits,
    h.kept.trans (Set.subset_insert n made'), ?_, (Nat.le_succ d.issued).trans hissued, ?_, hmaker,
    ?_, h.declarations, h.symbols, h.undeclared⟩
  · rw [hid]
    exact hmaker.symm
  · rw [hid]
    exact hissued
  · intro k hk hout
    rcases Set.mem_insert_iff.mp hk with rfl | hk
    · rw [hid, hspan]
      exact ⟨rfl, le_rfl, le_rfl⟩
    · obtain ⟨hown, hserial, hplace⟩ := hnew k hk hout
      exact ⟨hown, Nat.le_of_succ_le hserial, by omega⟩
  · show d.position ≤ d'.position
    omega
  · have hname : n.reference?.toList.map Reference.name = n.named?.toList := by
      rw [Node.reference?]
      cases n.named? <;> rfl
    rw [List.map_append, hname, ← List.append_assoc]
    exact h.names.append_right _

/-- The same for a node that is no reference. -/
theorem enclose {text : String} (hs : d.Stock made)
    (h : Leads (d.placed text) made names d' made') {n : Node} {l : List Node}
    (horigin : n.origin = d.nextOrigin text) (hchildren : n.children = l) (hl : ∀ c ∈ l, c ∈ made')
    (hname : n.named? = none) (hlabelled : n.Labelled) :
    Leads d made names d' (insert n made') := by
  have hjoin := join hs h horigin hchildren hl hlabelled
  rw [references_of_unnamed d' hname, hname, Option.toList_none, List.append_nil] at hjoin
  exact hjoin

theorem put (h : Leads b made names d made') (text : String) {n : Node} {l : List Node}
    (horigin : n.origin = d.nextOrigin text) (hchildren : n.children = l) (hl : ∀ c ∈ l, c ∈ made')
    (hname : n.named? = none) (hlabelled : n.Labelled) :
    Leads b made names (d.placed text) (insert n made') :=
  h.followed (enclose h.stock (refl (h.stock.placed text)) horigin hchildren hl hname hlabelled)

theorem leaf (h : Leads b made names d made') (text : String) {n : Node}
    (horigin : n.origin = d.nextOrigin text) (hchildren : n.children = []) (hinert : n.Inert) :
    Leads b made names (d.placed text) (insert n made') :=
  h.put text horigin hchildren (fun _ hc => absurd hc List.not_mem_nil) hinert.named?
    (Node.labelled_of_bare hinert.1.2)

theorem word (h : Leads b made names d made') (text : String) :
    Leads b made names (d.placed text)
      (insert (.identifier ⟨d.nextOrigin text, some text⟩) made') :=
  h.leaf text rfl rfl ⟨⟨trivial, rfl⟩, rfl⟩

theorem quoted (h : Leads b made names d made') (text : String) :
    Leads b made names (d.placed text) (insert (.string ⟨d.nextOrigin text, some text⟩) made') :=
  h.leaf text rfl rfl ⟨⟨trivial, rfl⟩, rfl⟩

end Leads

end Draft

end InfraLint
