import InfraLint.Journal

/-!
What a journal comes to, its notes left aside. The outcome of two parts is the outcome of the
first handed on to the second. A computation for each member of a list succeeds with all the
results in order if each of them succeeds, and otherwise fails as the first failure does.
-/
namespace InfraLint.Journal

variable {ν ε α β : Type}

@[simp] theorem outcome_pure (a : α) : (pure a : Journal ν ε α).outcome = .ok a := rfl

@[simp] theorem outcome_fail (e : ε) : (fail e : Journal ν ε α).outcome = .error e := rfl

@[simp] theorem outcome_note (x : ν) : (note x : Journal ν ε Unit).outcome = .ok () := rfl

@[simp] theorem outcome_lift (outcome : Except ε α) :
    (lift outcome : Journal ν ε α).outcome = outcome := rfl

@[simp] theorem outcome_bind (first : Journal ν ε α) (next : α → Journal ν ε β) :
    (first >>= next).outcome = first.outcome.bind fun a => (next a).outcome := by
  rw [bind_eq]
  unfold andThen
  cases first.outcome with
  | error e => rfl
  | ok a => rfl

theorem eq_ok_of_toOption {outcome : Except ε α} {a : α} (h : outcome.toOption = some a) :
    outcome = .ok a := by
  cases outcome with
  | error e => cases h
  | ok b => exact congrArg Except.ok (Option.some.inj h)

theorem outcome_forEach_cons (f : α → Journal ν ε (List β)) (x : α) (rest : List α) :
    (forEach f (x :: rest)).outcome =
      (f x).outcome.bind fun here => (forEach f rest).outcome.bind fun more =>
        .ok (here ++ more) := by
  show ((f x) >>= fun here => forEach f rest >>= fun more => pure (here ++ more)).outcome = _
  simp only [outcome_bind, outcome_pure]

theorem outcome_forEach_ok {f : α → Journal ν ε (List β)} {g : α → List β} {xs : List α}
    (h : ∀ x ∈ xs, (f x).outcome = .ok (g x)) : (forEach f xs).outcome = .ok (xs.flatMap g) := by
  induction xs with
  | nil => rfl
  | cons x rest ih =>
    have hx : (f x).outcome = .ok (g x) := h x List.mem_cons_self
    have hrest := ih fun y hy => h y (List.mem_cons_of_mem x hy)
    rw [outcome_forEach_cons, hx, hrest, List.flatMap_cons]
    rfl

/-- What holds of the members of a list one by one, that a translation of a member comes to the
translated results of the member, holds of the list. -/
theorem outcome_forEach_map {ν' α' β' : Type} {f : α → Journal ν ε (List β)}
    {f' : α' → Journal ν' ε (List β')} {g : α → α'} {k : β → β'} {xs : List α}
    (h : ∀ x ∈ xs, (f' (g x)).outcome = (f x).outcome.map (List.map k)) :
    (forEach f' (xs.map g)).outcome = (forEach f xs).outcome.map (List.map k) := by
  induction xs with
  | nil => rfl
  | cons x rest ih =>
    rw [List.map_cons, outcome_forEach_cons, outcome_forEach_cons, h x List.mem_cons_self,
      ih fun y hy => h y (List.mem_cons_of_mem x hy)]
    cases (f x).outcome with
    | error e => rfl
    | ok here =>
      cases (forEach f rest).outcome with
      | error e => rfl
      | ok more => exact congrArg Except.ok List.map_append.symm

/-- All that a list that succeeds can come to: what its first member comes to, and after it what
the rest comes to. -/
theorem outcome_forEach_cons_eq_ok {f : α → Journal ν ε (List β)} {x : α} {rest : List α}
    {ys : List β} (h : (forEach f (x :: rest)).outcome = .ok ys) :
    ∃ here more, (f x).outcome = .ok here ∧ (forEach f rest).outcome = .ok more ∧
      ys = here ++ more := by
  rw [outcome_forEach_cons] at h
  cases hx : (f x).outcome with
  | error e =>
    rw [hx] at h
    exact nomatch h
  | ok here =>
    cases hrest : (forEach f rest).outcome with
    | error e =>
      rw [hx, hrest] at h
      exact nomatch h
    | ok more =>
      rw [hx, hrest] at h
      exact ⟨here, more, rfl, rfl, (Except.ok.inj h).symm⟩

theorem exists_ok_of_outcome_forEach_ok {f : α → Journal ν ε (List β)} {xs : List α}
    {ys : List β} (h : (forEach f xs).outcome = .ok ys) {x : α} (hx : x ∈ xs) :
    ∃ bs, (f x).outcome = .ok bs := by
  induction xs generalizing ys with
  | nil => exact absurd hx List.not_mem_nil
  | cons y rest ih =>
    obtain ⟨here, more, hy, hrest, _⟩ := outcome_forEach_cons_eq_ok h
    rcases List.mem_cons.mp hx with rfl | hx
    · exact ⟨here, hy⟩
    · exact ih hrest hx

/-- If the members that succeed come to what `g` says, so does the list if it succeeds. -/
theorem eq_flatMap_of_outcome_forEach_ok {f : α → Journal ν ε (List β)} {g : α → List β}
    {xs : List α} (h : ∀ x ∈ xs, ∀ bs, (f x).outcome = .ok bs → bs = g x) {ys : List β}
    (hok : (forEach f xs).outcome = .ok ys) : ys = xs.flatMap g := by
  induction xs generalizing ys with
  | nil => exact (Except.ok.inj hok).symm
  | cons x rest ih =>
    obtain ⟨here, more, hx, hrest, rfl⟩ := outcome_forEach_cons_eq_ok hok
    rw [List.flatMap_cons, h x List.mem_cons_self here hx,
      ih (fun y hy => h y (List.mem_cons_of_mem x hy)) hrest]

/-- What a list that succeeds comes to, one of its members comes to. -/
theorem exists_of_mem_outcome_forEach_ok {f : α → Journal ν ε (List β)} {xs : List α}
    {ys : List β} (h : (forEach f xs).outcome = .ok ys) {y : β} (hy : y ∈ ys) :
    ∃ x ∈ xs, ∃ bs, (f x).outcome = .ok bs ∧ y ∈ bs := by
  induction xs generalizing ys with
  | nil =>
    cases h
    exact absurd hy List.not_mem_nil
  | cons x rest ih =>
    obtain ⟨here, more, hx, hrest, rfl⟩ := outcome_forEach_cons_eq_ok h
    rcases List.mem_append.mp hy with hy | hy
    · exact ⟨x, List.mem_cons_self, here, hx, hy⟩
    · obtain ⟨z, hz, hzok⟩ := ih hrest hy
      exact ⟨z, List.mem_cons_of_mem x hz, hzok⟩

/-- A list fails as one of its members does. -/
theorem exists_of_outcome_forEach_error {f : α → Journal ν ε (List β)} {e : ε} {xs : List α}
    (h : (forEach f xs).outcome = .error e) : ∃ x ∈ xs, (f x).outcome = .error e := by
  induction xs with
  | nil => exact nomatch h
  | cons x rest ih =>
    rw [outcome_forEach_cons] at h
    cases hx : (f x).outcome with
    | error e' =>
      rw [hx] at h
      rw [← Except.error.inj h]
      exact ⟨x, List.mem_cons_self, hx⟩
    | ok here =>
      cases hrest : (forEach f rest).outcome with
      | error e' =>
        rw [hx, hrest] at h
        obtain ⟨y, hy, hye⟩ := ih (hrest.trans h)
        exact ⟨y, List.mem_cons_of_mem x hy, hye⟩
      | ok more =>
        rw [hx, hrest] at h
        exact nomatch h

/-- A list fails just if one of its members does. -/
theorem exists_outcome_forEach_error_iff {f : α → Journal ν ε (List β)} {xs : List α} :
    (∃ e, (forEach f xs).outcome = .error e) ↔ ∃ x ∈ xs, ∃ e, (f x).outcome = .error e := by
  constructor
  · rintro ⟨e, he⟩
    obtain ⟨x, hx, hxe⟩ := exists_of_outcome_forEach_error he
    exact ⟨x, hx, e, hxe⟩
  · rintro ⟨x, hx, e, hxe⟩
    cases hlist : (forEach f xs).outcome with
    | error e' => exact ⟨e', rfl⟩
    | ok ys =>
      obtain ⟨bs, hbs⟩ := exists_ok_of_outcome_forEach_ok hlist hx
      exact nomatch hxe.symm.trans hbs

/-- If members fail in one way only, one failing member is enough for the whole to fail so. -/
theorem outcome_forEach_error {f : α → Journal ν ε (List β)} {e : ε} {xs : List α}
    (h : ∀ x ∈ xs, (f x).outcome = .error e ∨ ∃ bs, (f x).outcome = .ok bs)
    (hfail : ∃ x ∈ xs, (f x).outcome = .error e) : (forEach f xs).outcome = .error e := by
  obtain ⟨x, hx, hxe⟩ := hfail
  obtain ⟨e', he'⟩ := exists_outcome_forEach_error_iff.mpr ⟨x, hx, e, hxe⟩
  obtain ⟨y, hy, hye⟩ := exists_of_outcome_forEach_error he'
  rcases h y hy with hfails | ⟨bs, hok⟩
  · rw [he', ← Except.error.inj (hye.symm.trans hfails)]
  · exact nomatch hye.symm.trans hok

end InfraLint.Journal
