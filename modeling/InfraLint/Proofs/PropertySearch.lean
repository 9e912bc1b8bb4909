import InfraLint.Syntax.Body

/-!
The search for a property by its key text, said without the function that searches. A search goes
from the front and stops at the first place that cannot be read, if it has not found a property
by then. Main statements: a search fails just if it is blocked in this way, and otherwise finds
the first property with the name.
-/
namespace InfraLint

namespace Property

/-- The property has a key that reads `name`. -/
def Named (name : String) (p : Property) : Prop := ∃ k, p.key = some k ∧ k.text = some name

/-- Of some properties `p` is the first with the key text `name`. -/
def IsFirst (name : String) (properties : List (Option Property)) (p : Property) : Prop :=
  ∃ before after, properties = before ++ some p :: after ∧ p.Named name ∧
    ∀ q, some q ∈ before → ¬ q.Named name

/-- All properties are there, and so are their keys. -/
def AllKeyed (properties : List (Option Property)) : Prop :=
  ∀ place ∈ properties, ∃ p k, place = some p ∧ p.key = some k

theorem IsFirst.mem {name : String} {properties : List (Option Property)} {p : Property}
    (h : IsFirst name properties p) : some p ∈ properties := by
  obtain ⟨before, after, rfl, _, _⟩ := h
  exact List.mem_append_right before List.mem_cons_self

theorem IsFirst.named {name : String} {properties : List (Option Property)} {p : Property}
    (h : IsFirst name properties p) : p.Named name := by
  obtain ⟨_, _, _, hname, _⟩ := h
  exact hname

theorem isFirst_cons_iff {name : String} {q p : Property} {rest : List (Option Property)} :
    IsFirst name (some q :: rest) p ↔
      (q.Named name ∧ p = q) ∨ (¬ q.Named name ∧ IsFirst name rest p) := by
  constructor
  · intro h
    obtain ⟨before, after, heq, hp, hbefore⟩ := h
    cases before with
    | nil =>
      simp only [List.nil_append, List.cons.injEq, Option.some.injEq] at heq
      obtain ⟨rfl, _⟩ := heq
      exact Or.inl ⟨hp, rfl⟩
    | cons place before =>
      simp only [List.cons_append, List.cons.injEq] at heq
      obtain ⟨rfl, hrest⟩ := heq
      refine Or.inr ⟨hbefore q List.mem_cons_self, before, after, hrest, hp, ?_⟩
      exact fun r hr => hbefore r (List.mem_cons_of_mem _ hr)
  · intro h
    rcases h with ⟨hq, rfl⟩ | ⟨hq, before, after, heq, hp, hbefore⟩
    · exact ⟨[], rest, rfl, hq, fun r hr => absurd hr List.not_mem_nil⟩
    · refine ⟨some q :: before, after, by rw [heq]; rfl, hp, ?_⟩
      intro r hr
      rcases List.mem_cons.mp hr with heq | hr
      · rw [Option.some.inj heq]
        exact hq
      · exact hbefore r hr

theorem named_iff {name : String} {p : Property} {k : Key} (hk : p.key = some k) :
    p.Named name ↔ k.text = some name := by
  constructor
  · intro h
    obtain ⟨k', hk', hname⟩ := h
    rw [← Option.some.inj (hk'.symm.trans hk)]
    exact hname
  · exact fun hname => ⟨k, hk, hname⟩

/-- What stands at a place cannot be asked for its key text: it is absent, or it has no key. -/
def Unreadable (place : Option Property) : Prop := ∀ p, place = some p → p.key = none

/-- A place that cannot be read comes before the first property with the key text `name`, or
anywhere if there is no such property. -/
def Blocked (name : String) (properties : List (Option Property)) : Prop :=
  ∃ before place after, properties = before ++ place :: after ∧ Unreadable place ∧
    ∀ q, some q ∈ before → ¬ q.Named name

theorem keyTextAt_eq_ok {q : Property} {k : Key} (hk : q.key = some k) :
    keyTextAt (some q) = .ok k.text := by
  simp only [keyTextAt, keyText, hk]

/-- A place cannot be read, or it has a property with a key. -/
theorem unreadable_or (place : Option Property) :
    Unreadable place ∨ ∃ q k, place = some q ∧ q.key = some k := by
  cases place with
  | none => exact Or.inl nofun
  | some q =>
    cases hk : q.key with
    | none =>
      refine Or.inl fun p hp => ?_
      rw [← Option.some.inj hp, hk]
    | some k => exact Or.inr ⟨q, k, rfl, hk⟩

theorem blocked_cons_iff {name : String} {place : Option Property}
    {rest : List (Option Property)} :
    Blocked name (place :: rest) ↔
      Unreadable place ∨ ((∀ q, place = some q → ¬ q.Named name) ∧ Blocked name rest) := by
  constructor
  · rintro ⟨before, blocking, after, heq, hblocking, hbefore⟩
    cases before with
    | nil =>
      obtain ⟨rfl, _⟩ := List.cons.inj heq
      exact Or.inl hblocking
    | cons first before =>
      obtain ⟨rfl, hrest⟩ := List.cons.inj heq
      refine Or.inr ⟨fun q hq => hbefore q (hq ▸ List.mem_cons_self), before, blocking, after,
        hrest, hblocking, fun q hq => hbefore q (List.mem_cons_of_mem _ hq)⟩
  · rintro (hplace | ⟨hname, before, blocking, after, rfl, hblocking, hbefore⟩)
    · exact ⟨[], place, rest, rfl, hplace, fun q hq => absurd hq List.not_mem_nil⟩
    · refine ⟨place :: before, blocking, after, rfl, hblocking, fun q hq => ?_⟩
      rcases List.mem_cons.mp hq with hq | hq
      · exact hname q hq.symm
      · exact hbefore q hq

theorem AllKeyed.not_blocked {properties : List (Option Property)} (h : AllKeyed properties)
    (name : String) : ¬ Blocked name properties := by
  rintro ⟨before, place, after, rfl, hplace, _⟩
  obtain ⟨p, k, rfl, hk⟩ := h place (List.mem_append_right before List.mem_cons_self)
  exact nomatch hk.symm.trans (hplace p rfl)

private theorem first_cons {name : String} {q : Property} {k : Key} (hk : q.key = some k)
    (rest : List (Option Property)) :
    first (some name) (some q :: rest) =
      if k.text = some name then .ok (some q) else first (some name) rest := by
  simp only [first, keyTextAt_eq_ok hk]

/-- A place that cannot be read stops the search, for want of a property or of a key. -/
private theorem first_of_unreadable {place : Option Property} (h : Unreadable place)
    (name : String) (rest : List (Option Property)) :
    ∃ f, first (some name) (place :: rest) = .error f ∧ (f = .absentProperty ∨ f = .absentKey) := by
  cases place with
  | none => exact ⟨.absentProperty, rfl, Or.inl rfl⟩
  | some q =>
    refine ⟨.absentKey, ?_, Or.inr rfl⟩
    simp only [first, keyTextAt, keyText, h q rfl]

/-- A search fails just where it is blocked. -/
theorem exists_first_eq_error_iff {name : String} {properties : List (Option Property)} :
    (∃ f, first (some name) properties = .error f) ↔ Blocked name properties := by
  induction properties with
  | nil =>
    refine ⟨fun h => ?_, fun h => ?_⟩
    · obtain ⟨f, hf⟩ := h
      exact nomatch hf
    · obtain ⟨before, place, after, heq, _⟩ := h
      exact absurd heq (by simp)
  | cons place rest ih =>
    rw [blocked_cons_iff]
    rcases unreadable_or place with hplace | ⟨q, k, rfl, hk⟩
    · obtain ⟨f, hf, _⟩ := first_of_unreadable hplace name rest
      exact ⟨fun _ => Or.inl hplace, fun _ => ⟨f, hf⟩⟩
    · have hreadable : ¬ Unreadable (some q) := fun h => nomatch hk.symm.trans (h q rfl)
      rw [first_cons hk]
      by_cases hname : k.text = some name
      · simp [hname, hreadable, named_iff hk]
      · simp [hname, hreadable, named_iff hk, ih]

theorem first_eq_error {name : String} {properties : List (Option Property)} {f : Fault}
    (h : first (some name) properties = .error f) : f = .absentProperty ∨ f = .absentKey := by
  induction properties with
  | nil => exact nomatch h
  | cons place rest ih =>
    rcases unreadable_or place with hplace | ⟨q, k, rfl, hk⟩
    · obtain ⟨f', hf', hcases⟩ := first_of_unreadable hplace name rest
      rw [← Except.error.inj (hf'.symm.trans h)]
      exact hcases
    · rw [first_cons hk] at h
      split at h
      · exact nomatch h
      · exact ih h

/-- A search that is not blocked finds the first property with the name. -/
theorem first_eq_some_iff {name : String} {properties : List (Option Property)}
    {p : Property} (h : ¬ Blocked name properties) :
    first (some name) properties = .ok (some p) ↔ IsFirst name properties p := by
  induction properties with
  | nil =>
    constructor
    · intro hfirst
      exact nomatch hfirst
    · intro hp
      exact absurd hp.mem List.not_mem_nil
  | cons place rest ih =>
    rw [blocked_cons_iff] at h
    rcases unreadable_or place with hplace | ⟨q, k, rfl, hk⟩
    · exact absurd (Or.inl hplace) h
    · rw [first_cons hk, isFirst_cons_iff, named_iff hk]
      by_cases hname : k.text = some name
      · rw [if_pos hname]
        simp only [hname, not_true_eq_false, false_and, or_false, true_and, Except.ok.injEq,
          Option.some.injEq]
        exact eq_comm
      · have hrest : ¬ Blocked name rest := by
          intro hblocked
          refine h (Or.inr ⟨fun p hp => ?_, hblocked⟩)
          rw [← Option.some.inj hp, named_iff hk]
          exact hname
        rw [if_neg hname, ih hrest]
        simp only [hname, not_false_eq_true, false_and, false_or, true_and]

theorem exists_first {name : String} {properties : List (Option Property)}
    (h : ¬ Blocked name properties) : ∃ found, first (some name) properties = .ok found := by
  cases hfirst : first (some name) properties with
  | error f => exact absurd (exists_first_eq_error_iff.mp ⟨f, hfirst⟩) h
  | ok found => exact ⟨found, rfl⟩

end Property

end InfraLint
