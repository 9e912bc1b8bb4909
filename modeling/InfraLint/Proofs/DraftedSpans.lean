import InfraLint.Proofs.Analysis
import InfraLint.Proofs.Builds
import InfraLint.Proofs.Obstacles
import InfraLint.Proofs.Ownership
import InfraLint.Proofs.Spans

/-!
Spans of drafted documents. Here the calls of a history may be given nodes from elsewhere too, so
that only some of the nodes around are the draft's own. Main statement: whatever calls and builds
have led to a draft, its own nodes lie in the text before its position and one behind the other,
programs aside; so in a document of such nodes alone a span belongs to one node, and a diagnostic
points at one entry.
-/
namespace InfraLint

namespace Span

/-- A span that ends before another one begins shares no character with it, and has its place
elsewhere. -/
theorem apart_of_stop_lt {a b : Span} (h : a.stop < b.position ∨ b.stop < a.position) :
    a.position ≠ b.position ∧ ¬ a.Overlaps b := by
  unfold Overlaps
  unfold stop at h ⊢
  omega

theorem within_of_stop_lt {a : Span} {position : Nat} (h : a.stop < position) :
    a.Within ⟨0, position⟩ :=
  ⟨Nat.zero_le _, by simp only [stop] at h ⊢; omega⟩

end Span

/-- A diagnostic on a redundant entry points at an entry of a resource. -/
theorem Rule.exists_lists_of_diagnostic {provider : Provider} {settings : RuleSettings}
    {consultations : List Bool} {m : Model} {diagnostics : List Diagnostic}
    (h : ((redundancy provider settings consultations).analyze m).outcome = .ok diagnostics)
    {found : Diagnostic} (hfound : found ∈ diagnostics) :
    ∃ x i entry, .resourceDecl x ∈ m.program.preorder ∧ x.Lists i entry ∧
      entry.origin.span = found.span := by
  by_cases hon : settings.level = .off
  · rw [outcome_analyze_of_off hon] at h
    cases h
    exact absurd hfound List.not_mem_nil
  · rw [outcome_analyze hon] at h
    cases hmap : (provider.infer m true).outcome with
    | error e =>
      rw [hmap] at h
      cases h
    | ok map =>
      cases hfind : Redundancy.find m map with
      | error e =>
        simp only [hmap, Except.bind, hfind] at h
        cases h
      | ok redundancies =>
        simp only [hmap, Except.bind, hfind] at h
        obtain rfl := Except.ok.inj h
        obtain ⟨r, hr, rfl⟩ := List.mem_map.mp hfound
        obtain ⟨x, i, hx, hlists⟩ := Redundancy.exists_lists_of_mem_found hfind hr
        exact ⟨x, i, r.entry, hx, hlists, rfl⟩

namespace Draft

variable {past : List Past} {d : Draft} {made : Set Node} {maker : Nat}

/-- A caller has the node, or the draft keeps it among the references that wait. -/
def Held (past : List Past) (d : Draft) (n : Node) : Prop :=
  Known past n ∨ ∃ r ∈ d.references, n ∈ r.node.preorder

/-- The draft can be made by these calls and builds. A call may be given any nodes from elsewhere,
and of the draft's own nodes those that are held then. -/
inductive CalledFreely (maker : Nat) : List Past → Draft → Prop
  | start : CalledFreely maker [] (Draft.start maker)
  | call {past : List Past} {d : Draft} (h : CalledFreely maker past d) (c : Call)
      (hc : ∀ n ∈ c.nodes, ∀ k ∈ n.preorder, k.id.maker = maker → Held past d k) :
      CalledFreely maker (past ++ [.call c (c.perform d).1]) (c.perform d).2
  | build {past : List Past} {d : Draft} (h : CalledFreely maker past d) (k : Nat) :
      CalledFreely maker (past ++ [.build ((d.build k).2.toOption.map Model.program)])
        (d.build k).1

theorem Called.freely (h : Called maker past d) : CalledFreely maker past d := by
  induction h with
  | start => exact .start
  | call _ c hc ih =>
    refine ih.call c fun n hn k hk _ => ?_
    obtain ⟨p, hp, root, hroot, hmem⟩ := hc n hn
    exact Or.inl ⟨p, hp, root, hroot, Node.mem_preorder_trans root hmem hk⟩
  | build _ k ih => exact ih.build k

/-- All that is held is in stock, and so are the declarations. -/
structure Kept (maker : Nat) (past : List Past) (d : Draft) (made : Set Node) : Prop where
  stock : d.Stock made
  own : d.maker = maker
  given : ∀ p ∈ past, ∀ n, p.given = some n → n ∈ made
  declarations : ∀ n ∈ d.declarations, n ∈ made

theorem kept_start (maker : Nat) : Kept maker [] (Draft.start maker) ∅ where
  stock := Stock.start maker
  own := rfl
  given _ hp := absurd hp List.not_mem_nil
  declarations _ hn := absurd hn List.not_mem_nil

namespace Kept

theorem held (h : Kept maker past d made) {n : Node} (hn : Held past d n) : n ∈ made := by
  rcases hn with ⟨p, hp, root, hroot, hmem⟩ | ⟨r, hr, hmem⟩
  · exact h.stock.below (h.given p hp root hroot) hmem
  · exact h.stock.below ((h.stock.references r).mp hr).1 hmem

theorem call (h : Kept maker past d made) (c : Call)
    (hc : ∀ n ∈ c.nodes, ∀ k ∈ n.preorder, k.id.maker = maker → Held past d k) :
    ∃ made', Kept maker (past ++ [.call c (c.perform d).1]) (c.perform d).2 made' := by
  obtain ⟨p, hp⟩ : ∃ p, p = Past.call c (c.perform d).1 := ⟨_, rfl⟩
  have hadopted : d.Stock (made ∪ {k | ∃ n ∈ c.nodes, k ∈ n.preorder}) := by
    refine h.stock.adopt ?_ ?_
    · rintro k ⟨n, hn, hk⟩ j hj
      exact ⟨n, hn, Node.mem_preorder_of_child hk hj⟩
    · rintro k ⟨n, hn, hk⟩ hmaker
      exact h.held (hc n hn k hk (hmaker.trans h.own))
  obtain ⟨d₁, made', hleads, hstate, hgiven, _⟩ := c.performed hp hadopted fun n hn =>
    Or.inr ⟨n, hn, Node.mem_preorder_self n⟩
  have hkept : made ⊆ made' := Set.subset_union_left.trans hleads.kept
  rw [← hp, hstate]
  refine ⟨made', hleads.stock.later rfl le_rfl le_rfl rfl, hleads.maker.trans h.own,
    fun q hq n hn => ?_, fun n hn => ?_⟩
  · rcases List.mem_append.mp hq with hold | hlast
    · exact hkept (h.given q hold n hn)
    · rw [List.mem_singleton.mp hlast] at hn
      exact hgiven n hn
  · rcases List.mem_append.mp hn with hold | hentered
    · rw [hleads.declarations] at hold
      exact hkept (h.declarations n hold)
    · exact hgiven n (Past.given_of_entered? (Option.mem_toList.mp hentered))

theorem build (h : Kept maker past d made) (k : Nat) :
    Kept maker (past ++ [.build ((d.build k).2.toOption.map Model.program)]) (d.build k).1
      (insert (Node.program d.program) made) := by
  obtain ⟨symbols, hstate⟩ := d.build_fst k
  rw [hstate]
  refine ⟨(h.stock.program h.declarations).later rfl le_rfl le_rfl rfl, h.own,
    fun p hp n hn => ?_, fun n hn => Set.mem_insert_of_mem _ (h.declarations n hn)⟩
  rcases List.mem_append.mp hp with hold | hlast
  · exact Set.mem_insert_of_mem _ (h.given p hold n hn)
  · rw [List.mem_singleton.mp hlast] at hn
    rw [given_of_build hn]
    exact Set.mem_insert _ _

/-- In the program of a draft all but the root is in stock. -/
theorem below_program (h : Kept maker past d made) {n : Node}
    (hn : n ∈ (Node.program d.program).preorder) (hkind : ∀ p, n ≠ .program p) : n ∈ made := by
  rcases mem_preorder_program_iff.mp hn with rfl | hn
  · exact absurd rfl (hkind d.program)
  · obtain ⟨k, hk, hmem⟩ := List.mem_flatMap.mp hn
    exact h.stock.below (h.declarations k hk) hmem

end Kept

theorem CalledFreely.kept (h : CalledFreely maker past d) : ∃ made, Kept maker past d made := by
  induction h with
  | start => exact ⟨∅, kept_start maker⟩
  | call _ c hc ih =>
    obtain ⟨made, hkept⟩ := ih
    exact hkept.call c hc
  | build _ k ih =>
    obtain ⟨made, hkept⟩ := ih
    exact ⟨_, hkept.build k⟩

/-- The draft's own nodes, programs aside, lie in the text before the position of the draft; no two
of them share a character or a position. -/
structure SpansApart (maker : Nat) (past : List Past) (d : Draft) : Prop where
  within : ∀ n, Held past d n → n.PlacedBy maker → n.span.Within ⟨0, d.position⟩
  apart : ∀ n k, Held past d n → Held past d k → n.PlacedBy maker → k.PlacedBy maker → n ≠ k →
    n.span.position ≠ k.span.position ∧ ¬ n.span.Overlaps k.span

/-- The nodes of a document, programs aside, lie within its span, and each of them has a span of
its own. So what a diagnostic on redundant entries points at is one entry and no other node. -/
structure SpansIdentify (m : Model) : Prop where
  within : ∀ n ∈ m.program.preorder, (∀ p, n ≠ .program p) → n.span.Within m.program.span
  unique : ∀ n ∈ m.program.preorder, ∀ k ∈ m.program.preorder, (∀ p, n ≠ .program p) →
    (∀ p, k ≠ .program p) → n.span = k.span → n = k
  entry : ∀ provider settings consultations diagnostics,
    ((Rule.redundancy provider settings consultations).analyze m).outcome = .ok diagnostics →
    ∀ found ∈ diagnostics, ∃ x i entry, .resourceDecl x ∈ m.program.preorder ∧ x.Lists i entry ∧
      entry.origin.span = found.span ∧ ∀ n ∈ m.program.preorder, (∀ p, n ≠ .program p) →
        n.span = found.span → n = .item entry

namespace Kept

theorem spansApart (h : Kept maker past d made) : SpansApart maker past d := by
  obtain rfl := h.own
  refine ⟨fun n hn hplaced => ?_, fun n k hn hk hn' hk' hne => ?_⟩
  · exact Span.within_of_stop_lt (h.stock.within n (h.held hn) hplaced)
  · exact Span.apart_of_stop_lt (h.stock.apart (h.held hn) (h.held hk) hn' hk' hne)

theorem spansIdentify (h : Kept maker past d made) {k : Nat} {m : Model}
    (hm : (d.build k).2 = .ok m) (hown : ∀ n ∈ m.program.preorder, n.id.maker = maker) :
    SpansIdentify m := by
  obtain rfl := h.own
  have hprogram := program_of_build hm
  have hplaced : ∀ n ∈ m.program.preorder, (∀ p, n ≠ .program p) →
      n ∈ made ∧ n.PlacedBy d.maker := by
    intro n hn hkind
    refine ⟨h.below_program ?_ hkind, hown n hn, hkind⟩
    rw [← hprogram]
    exact hn
  have hunique : ∀ n ∈ m.program.preorder, ∀ k ∈ m.program.preorder, (∀ p, n ≠ .program p) →
      (∀ p, k ≠ .program p) → n.span = k.span → n = k := by
    intro n hn k hk hn' hk' hspan
    by_contra hne
    obtain ⟨hnmem, hnplaced⟩ := hplaced n hn hn'
    obtain ⟨hkmem, hkplaced⟩ := hplaced k hk hk'
    have happart := Span.apart_of_stop_lt (h.stock.apart hnmem hkmem hnplaced hkplaced hne)
    exact happart.1 (congrArg Span.position hspan)
  refine ⟨fun n hn hkind => ?_, hunique, ?_⟩
  · obtain ⟨hmem, hplaced⟩ := hplaced n hn hkind
    rw [hprogram]
    exact Span.within_of_stop_lt (h.stock.within n hmem hplaced)
  · intro provider settings consultations diagnostics hanalyze found hfound
    obtain ⟨x, i, entry, hx, hlists, hspan⟩ := Rule.exists_lists_of_diagnostic hanalyze hfound
    refine ⟨x, i, entry, hx, hlists, hspan, fun n hn hkind hn' => ?_⟩
    exact hunique n hn (.item entry) (Resource.entry_mem_preorder hx hlists) hkind nofun
      (hn'.trans hspan.symm)

end Kept

/-- Spans in a draft, for all sequences of calls and builds. -/
theorem spans_apart (h : CalledFreely maker past d) :
    SpansApart maker past d ∧ ∀ k m, (d.build k).2 = .ok m →
      (∀ n ∈ m.program.preorder, n.id.maker = maker) → SpansIdentify m := by
  obtain ⟨made, hkept⟩ := h.kept
  exact ⟨hkept.spansApart, fun k m hm hown => hkept.spansIdentify hm hown⟩

namespace Sample

def form (name : String) (properties : Option (Entries Literal)) (dependsOn : Option Explicit) :
    ResourceForm :=
  ⟨name, properties, dependsOn, none, false, false, true, true, []⟩

/-- A first resource. Its name is empty, so that it covers no character. -/
def first : Option Node × Draft := (Call.resource (form "" none none)).perform (Draft.start 0)

def referred : Option Node × Draft := (Call.expression (.reference "")).perform first.2

/-- A second resource that refers to the first one and lists it. -/
def second : Call :=
  .resource (form "b" (some [("k", .node (first.2.referenceNode ""))]) (some (.entries [.text ""])))

def listing : Option Node × Draft := second.perform referred.2

/-- A variable of a value from elsewhere, with the span of a node that is there already. -/
def foreign : Call := .variable "v" (.node (.string ⟨⟨⟨1, 0⟩, ⟨0, 2⟩⟩, some "ab"⟩))

def mixed : Option Node × Draft := foreign.perform listing.2

def calls : List Past :=
  [.call (.resource (form "" none none)) first.1, .call (.expression (.reference "")) referred.1,
    .call second listing.1]

theorem calledFreely : CalledFreely 0 calls listing.2 := by
  have hfirst : CalledFreely 0 [.call (.resource (form "" none none)) first.1] first.2 :=
    CalledFreely.start.call (.resource (form "" none none)) fun n hn => absurd hn List.not_mem_nil
  have hreferred : CalledFreely 0 [.call (.resource (form "" none none)) first.1,
      .call (.expression (.reference "")) referred.1] referred.2 :=
    hfirst.call (.expression (.reference "")) fun n hn => absurd hn List.not_mem_nil
  refine hreferred.call second fun n hn k hk _ => Or.inl ?_
  obtain rfl := List.mem_singleton.mp hn
  exact ⟨_, List.mem_cons_of_mem _ (List.mem_singleton_self _), first.2.referenceNode "", rfl, hk⟩

theorem calledFreely_foreign : CalledFreely 0 (calls ++ [.call foreign mixed.1]) mixed.2 := by
  refine calledFreely.call foreign fun n hn k hk hmaker => ?_
  obtain rfl := List.mem_singleton.mp hn
  rcases Node.mem_preorder_iff.mp hk with rfl | ⟨c, hc, _⟩
  · exact absurd hmaker Nat.one_ne_zero
  · exact absurd hc List.not_mem_nil

end Sample

theorem spans_apart_sample :
    (CalledFreely 0 Sample.calls Sample.listing.2 ∧ ∃ m diagnostics,
      (Sample.listing.2.build 0).2 = .ok m ∧ SpansIdentify m ∧
        ((Rule.redundancy .scan .standard []).analyze m).outcome = .ok diagnostics ∧
        diagnostics.length = 1) ∧
    CalledFreely 0 (Sample.calls ++ [.call Sample.foreign Sample.mixed.1]) Sample.mixed.2 ∧
      SpansApart 0 (Sample.calls ++ [.call Sample.foreign Sample.mixed.1]) Sample.mixed.2 := by
  have hcount : ((Sample.listing.2.build 0).2.toOption.bind fun m =>
      ((Rule.redundancy .scan .standard []).analyze m).outcome.toOption).map List.length =
        some 1 := by
    decide +kernel
  have hown : ∀ n ∈ (Node.program Sample.listing.2.program).preorder, n.id.maker = 0 := by
    decide +kernel
  obtain ⟨diagnostics, hsome, hlength⟩ := Option.map_eq_some_iff.mp hcount
  obtain ⟨m, hm, hdiagnostics⟩ := Option.bind_eq_some_iff.mp hsome
  have hbuild := Journal.eq_ok_of_toOption hm
  have hidentify := (spans_apart Sample.calledFreely).2 0 m hbuild
    (by rw [program_of_build hbuild]; exact hown)
  exact ⟨⟨Sample.calledFreely, m, diagnostics, hbuild, hidentify,
    Journal.eq_ok_of_toOption hdiagnostics, hlength⟩, Sample.calledFreely_foreign,
    (spans_apart Sample.calledFreely_foreign).1⟩

end Draft

end InfraLint
