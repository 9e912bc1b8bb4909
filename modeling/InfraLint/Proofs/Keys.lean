import InfraLint.Datum.Basic
import Mathlib.Data.List.Basic

/-!
Entries and their keys. What is under a key after entries have been put, joined or erased, and
that no operation gives two entries one key.
-/
namespace InfraLint.Entries

variable {α : Type} {entries more : Entries α} {e : String × α} {key : String} {value : α}

theorem mem_putIfAbsent (h : e ∈ entries.putIfAbsent key value) :
    e ∈ entries ∨ e = (key, value) := by
  unfold putIfAbsent at h
  split at h
  · exact Or.inl h
  · exact (List.mem_append.mp h).imp_right List.mem_singleton.mp

theorem mem_join (h : e ∈ more.foldl (fun acc v => acc.putIfAbsent v.1 v.2) entries) :
    e ∈ entries ∨ e ∈ more := by
  induction more generalizing entries with
  | nil => exact Or.inl h
  | cons v rest ih =>
    rcases ih h with he | he
    · exact (mem_putIfAbsent he).imp_right fun heq => List.mem_cons.mpr (Or.inl heq)
    · exact Or.inr (List.mem_cons_of_mem v he)

theorem mem_insertByKey {f : String × α} : e ∈ entries.insertByKey f ↔ e = f ∨ e ∈ entries := by
  induction entries with
  | nil => simp [insertByKey]
  | cons first rest ih =>
    unfold insertByKey
    split
    · exact List.mem_cons
    · rw [List.mem_cons, ih, List.mem_cons, or_left_comm]

theorem mem_byKey : e ∈ entries.byKey ↔ e ∈ entries := by
  unfold byKey
  induction entries with
  | nil => rfl
  | cons first rest ih => rw [List.foldr_cons, mem_insertByKey, ih, List.mem_cons]

theorem mem_of_get? (h : entries.get? key = some value) : (key, value) ∈ entries := by
  induction entries with
  | nil => exact nomatch h
  | cons first rest ih =>
    obtain ⟨k, v⟩ := first
    unfold get? at h
    rw [List.lookup_cons] at h
    split at h
    · rename_i hk
      rw [← Option.some.inj h, beq_iff_eq.mp hk]
      exact List.mem_cons_self
    · exact List.mem_cons_of_mem _ (ih h)

theorem get?_eq_none_iff_not_mem : entries.get? key = none ↔ key ∉ entries.map Prod.fst := by
  unfold get?
  rw [List.lookup_eq_none_iff]
  refine ⟨fun h hmem => ?_, fun h e he => ?_⟩
  · obtain ⟨e, he, hkey⟩ := List.mem_map.mp hmem
    exact absurd hkey.symm (bne_iff_ne.mp (h e he))
  · exact bne_iff_ne.mpr fun hkey => h (hkey ▸ List.mem_map_of_mem he)

theorem get?_append (entries more : Entries α) (key : String) :
    get? (entries ++ more) key = (entries.get? key).or (more.get? key) := by
  induction entries with
  | nil => rfl
  | cons first rest ih =>
    obtain ⟨k, v⟩ := first
    unfold get? at ih ⊢
    rw [List.cons_append, List.lookup_cons, List.lookup_cons]
    split
    · rfl
    · exact ih

theorem get?_put (entries : Entries α) (key other : String) (value : α) :
    (entries.put key value).get? other =
      if other = key then some value else entries.get? other := by
  by_cases h : other = key
  · rw [if_pos h, h, get?_put_self]
  · rw [if_neg h, get?_put_of_ne entries value h]

theorem get?_putIfAbsent (entries : Entries α) (name key : String) (value : α) :
    (entries.putIfAbsent name value).get? key =
      (entries.get? key).or (get? [(name, value)] key) := by
  unfold putIfAbsent
  split
  · rename_i found hfound
    cases hkey : entries.get? key with
    | some v => rfl
    | none =>
      have hne : (key == name) = false := by
        refine beq_false_of_ne ?_
        rintro rfl
        exact nomatch hkey.symm.trans hfound
      simp [get?, List.lookup_cons, hne]
  · exact get?_append entries _ key

/-- What joins entries shows only under names that they do not have. -/
theorem get?_join (entries more : Entries α) (key : String) :
    (more.foldl (fun acc v => acc.putIfAbsent v.1 v.2) entries).get? key =
      (entries.get? key).or (more.get? key) := by
  induction more generalizing entries with
  | nil => exact (Option.or_none).symm
  | cons v rest ih =>
    rw [List.foldl_cons, ih, get?_putIfAbsent, Option.or_assoc, ← get?_append]
    rfl

theorem get?_erase_of_ne (entries : Entries α) {key other : String} (h : other ≠ key) :
    (entries.erase key).get? other = entries.get? other := by
  unfold erase get?
  induction entries with
  | nil => rfl
  | cons first rest ih =>
    obtain ⟨k, v⟩ := first
    rw [List.filter_cons, List.lookup_cons]
    by_cases hk : k = key
    · have hother : (other == k) = false := by
        rw [hk]
        exact beq_false_of_ne h
      simp only [hk, ne_eq, not_true_eq_false, decide_false, Bool.false_eq_true, if_false]
      rw [ih, ← hk, hother]
    · simp only [hk, ne_eq, not_false_eq_true, decide_true, if_true]
      rw [List.lookup_cons, ih]

theorem get?_erase (entries : Entries α) (key other : String) :
    (entries.erase key).get? other = if other = key then none else entries.get? other := by
  by_cases h : other = key
  · rw [if_pos h, h, get?_eq_none_iff_not_mem]
    intro hmem
    obtain ⟨e, he, heq⟩ := List.mem_map.mp hmem
    exact absurd heq (of_decide_eq_true (List.mem_filter.mp he).2)
  · rw [if_neg h, get?_erase_of_ne entries h]

/-- It makes no difference for the keys whether the value of one that is there is replaced. -/
theorem keys_putIfAbsent (entries : Entries α) (key : String) (value : α) :
    (entries.putIfAbsent key value).map Prod.fst = (entries.put key value).map Prod.fst := by
  rw [keys_put]
  unfold putIfAbsent
  split
  · rename_i found hfound
    rw [if_pos]
    by_contra hnew
    exact nomatch (get?_eq_none_iff_not_mem.mpr hnew).symm.trans hfound
  · rename_i hnone
    rw [if_neg (get?_eq_none_iff_not_mem.mp hnone), List.map_append]
    rfl

namespace Distinct

theorem putIfAbsent (h : entries.Distinct) (key : String) (value : α) :
    (entries.putIfAbsent key value).Distinct := by
  unfold Distinct
  rw [keys_putIfAbsent entries key value]
  exact h.put key value

theorem join (h : entries.Distinct) (more : Entries α) :
    Distinct (more.foldl (fun acc v => acc.putIfAbsent v.1 v.2) entries) := by
  induction more generalizing entries with
  | nil => exact h
  | cons v rest ih => exact ih (h.putIfAbsent v.1 v.2)

theorem erase (h : entries.Distinct) (key : String) : (entries.erase key).Distinct :=
  h.sublist (List.filter_sublist.map Prod.fst)

/-- A key that no two entries have leads to the entry that has it. -/
theorem get?_of_mem (h : entries.Distinct) (he : (key, value) ∈ entries) :
    entries.get? key = some value := by
  induction entries with
  | nil => exact absurd he List.not_mem_nil
  | cons first rest ih =>
    obtain ⟨k, v⟩ := first
    obtain ⟨hnew, hrest⟩ := List.nodup_cons.mp h
    unfold get?
    rw [List.lookup_cons]
    rcases List.mem_cons.mp he with heq | hmem
    · obtain ⟨rfl, rfl⟩ := Prod.mk.inj heq
      rw [beq_self_eq_true]
    · have hne : key ≠ k := fun hk => hnew (List.mem_map.mpr ⟨_, hmem, hk⟩)
      rw [beq_false_of_ne hne]
      exact ih hrest hmem

end Distinct

/-- What is put goes over what was there. -/
theorem get?_putAll (entries : Entries α) (h : more.Distinct) (key : String) :
    (entries.putAll more).get? key = (more.get? key).or (entries.get? key) := by
  unfold putAll
  induction more generalizing entries with
  | nil => rfl
  | cons e rest ih =>
    obtain ⟨k, v⟩ := e
    obtain ⟨hk, hrest⟩ := List.nodup_cons.mp h
    rw [List.foldl_cons, ih _ hrest, get?_put]
    by_cases hkey : key = k
    · have hnone : get? rest key = none := by
        rw [hkey, get?_eq_none_iff_not_mem]
        exact hk
      rw [hnone, if_pos hkey, hkey]
      simp [get?]
    · have hlookup : get? ((k, v) :: rest) key = get? rest key := by
        simp [get?, List.lookup_cons, beq_false_of_ne hkey]
      rw [if_neg hkey, hlookup]

end InfraLint.Entries
