import InfraLint.Decimal.Shortest
import InfraLint.Text.Spelling

/-!
Data of no fixed shape: what settings are read from and what events carry. Entries of a record
keep the order in which their keys first came.
-/
namespace InfraLint

inductive Datum where
  | null
  | boolean (b : Bool)
  | integer (n : Int)
  /-- How many there are of something. Such a number is never too long for a text. -/
  | count (n : Nat)
  | float (x : Float)
  | text (s : String)
  | list (items : List Datum)
  | record (entries : List (String × Datum))
  deriving Inhabited

/-- Entries by key, in order. -/
abbrev Entries (α : Type) := List (String × α)

namespace Entries

variable {α : Type}

def get? (entries : Entries α) (key : String) : Option α := entries.lookup key

/-- A key that is there keeps its place and takes the new value; a new key goes to the end. -/
def put : Entries α → String → α → Entries α
  | [], key, value => [(key, value)]
  | (k, v) :: rest, key, value =>
    if k = key then (key, value) :: rest else (k, v) :: put rest key value

/-- Like `put`, except that a key that is there keeps its value too. -/
def putIfAbsent (entries : Entries α) (key : String) (value : α) : Entries α :=
  match entries.get? key with
  | some _ => entries
  | none => entries ++ [(key, value)]

def erase (entries : Entries α) (key : String) : Entries α :=
  entries.filter fun e => e.1 ≠ key

/-- Puts the entries of `more` one after another. -/
def putAll (entries more : Entries α) : Entries α :=
  more.foldl (fun acc e => acc.put e.1 e.2) entries

/-- Puts an entry in front of the first one whose key comes after its own. -/
def insertByKey (e : String × α) : Entries α → Entries α
  | [] => [e]
  | f :: rest => if e.1 ≤ f.1 then e :: f :: rest else f :: insertByKey e rest

/-- The entries in the order of their keys. -/
def byKey (entries : Entries α) : Entries α := entries.foldr insertByKey []

/-- No two entries have the same key. -/
def Distinct (entries : Entries α) : Prop := (entries.map Prod.fst).Nodup

instance (entries : Entries α) : Decidable entries.Distinct :=
  inferInstanceAs (Decidable (List.Nodup _))

/-- A key keeps its place, or comes last if it is new. -/
theorem keys_put (entries : Entries α) (key : String) (value : α) :
    (entries.put key value).map Prod.fst =
      if key ∈ entries.map Prod.fst then entries.map Prod.fst
      else entries.map Prod.fst ++ [key] := by
  induction entries with
  | nil => rfl
  | cons e rest ih =>
    obtain ⟨k, v⟩ := e
    unfold put
    by_cases hk : k = key
    · simp [hk]
    · rw [if_neg hk, List.map_cons, ih]
      by_cases hrest : key ∈ rest.map Prod.fst <;> simp [hrest, Ne.symm hk]

namespace Distinct

variable {entries : Entries α}

theorem nil : Distinct ([] : Entries α) := List.nodup_nil

theorem put (h : entries.Distinct) (key : String) (value : α) :
    (entries.put key value).Distinct := by
  unfold Distinct at h ⊢
  rw [keys_put]
  split
  · exact h
  · rename_i hnew
    exact List.nodup_append.mpr ⟨h, List.pairwise_singleton _ key, fun k hk other hother heq =>
      hnew (List.mem_singleton.mp hother ▸ heq ▸ hk)⟩

theorem putAll (h : entries.Distinct) (more : Entries α) : (entries.putAll more).Distinct := by
  unfold Entries.putAll
  induction more generalizing entries with
  | nil => exact h
  | cons e rest ih => exact ih (h.put e.1 e.2)

end Distinct

theorem get?_put_self (entries : Entries α) (key : String) (value : α) :
    (entries.put key value).get? key = some value := by
  induction entries with
  | nil => simp [put, get?]
  | cons e rest ih =>
    obtain ⟨k, v⟩ := e
    unfold put
    split
    · simp [get?]
    · rename_i h
      have hk : (key == k) = false := by simpa using fun h' => h h'.symm
      simpa [get?, List.lookup_cons, hk] using ih

theorem get?_put_of_ne (entries : Entries α) {key other : String} (value : α)
    (h : other ≠ key) : (entries.put key value).get? other = entries.get? other := by
  have ho : (other == key) = false := by simpa using h
  induction entries with
  | nil => simp [put, get?, List.lookup_cons, ho]
  | cons e rest ih =>
    obtain ⟨k, v⟩ := e
    unfold put
    split
    · rename_i hk
      subst hk
      simp [get?, List.lookup_cons, ho]
    · simp only [get?, List.lookup_cons] at ih ⊢
      split
      · rfl
      · exact ih

theorem mem_put {entries : Entries α} {e : String × α} {key : String} {value : α}
    (h : e ∈ entries.put key value) : e ∈ entries ∨ e = (key, value) := by
  induction entries with
  | nil => exact Or.inr (List.mem_singleton.mp h)
  | cons first rest ih =>
    obtain ⟨k, v⟩ := first
    unfold put at h
    split at h
    · exact (List.mem_cons.mp h).symm.imp_left (List.mem_cons_of_mem _)
    · rcases List.mem_cons.mp h with rfl | hrest
      · exact Or.inl List.mem_cons_self
      · exact (ih hrest).imp_left (List.mem_cons_of_mem _)

theorem mem_putAll {entries more : Entries α} {e : String × α} (h : e ∈ entries.putAll more) :
    e ∈ entries ∨ e ∈ more := by
  unfold putAll at h
  induction more generalizing entries with
  | nil => exact Or.inl h
  | cons first rest ih =>
    rcases ih h with he | he
    · exact (mem_put he).imp_right fun heq => List.mem_cons.mpr (Or.inl heq)
    · exact Or.inr (List.mem_cons_of_mem first he)

end Entries

namespace Datum

/-- The words for plain values. -/
structure Words where
  absent : String
  truth : Bool → String
  /-- Numbers that are not finite. -/
  numbers : Decimal.SpecialTexts
  quoted : String → String

mutual

/-- A datum in such words. -/
def spell (w : Words) : Datum → Except TooLong String
  | .null => .ok w.absent
  | .boolean b => .ok (w.truth b)
  | .integer n => Text.whole n
  | .count n => .ok (toString n)
  | .float x => .ok (Decimal.render w.numbers x)
  | .text s => .ok (w.quoted s)
  | .list items => (spellAll w items).map Text.list
  | .record entries => (spellIn w entries).map Text.table

def spellAll (w : Words) : List Datum → Except TooLong (List String)
  | [] => .ok []
  | d :: rest => do
    let here ← spell w d
    let more ← spellAll w rest
    return here :: more

def spellIn (w : Words) : List (String × Datum) → Except TooLong (List (String × String))
  | [] => .ok []
  | (k, d) :: rest => do
    let here ← spell w d
    let more ← spellIn w rest
    return (w.quoted k, here) :: more

end

mutual

/-- All whole numbers in a datum have texts. -/
def Spellable : Datum → Prop
  | .integer n => Text.Spellable n
  | .list items => SpellableAll items
  | .record entries => SpellableIn entries
  | _ => True

def SpellableAll : List Datum → Prop
  | [] => True
  | d :: rest => d.Spellable ∧ SpellableAll rest

def SpellableIn : List (String × Datum) → Prop
  | [] => True
  | (_, d) :: rest => d.Spellable ∧ SpellableIn rest

end

section Words

variable {w : Words}

mutual

/-- A datum is put into words exactly if all whole numbers in it have texts. -/
theorem exists_spell_iff : (d : Datum) → ((∃ text, d.spell w = .ok text) ↔ d.Spellable)
  | .null | .boolean _ | .count _ | .float _ | .text _ => by simp [spell, Spellable]
  | .integer n => Text.exists_whole_iff
  | .list items => by
    rw [spell, Spellable, ← exists_spellAll_iff items]
    exact exists_map_ok_iff
  | .record entries => by
    rw [spell, Spellable, ← exists_spellIn_iff entries]
    exact exists_map_ok_iff

theorem exists_spellAll_iff :
    (items : List Datum) → ((∃ texts, spellAll w items = .ok texts) ↔ SpellableAll items)
  | [] => by simp [spellAll, SpellableAll]
  | d :: rest => by
    rw [spellAll, SpellableAll, ← exists_spell_iff d, ← exists_spellAll_iff rest]
    simp only [exists_bind_ok_iff, exists_pure_ok, and_true, exists_and_right]

theorem exists_spellIn_iff : (entries : List (String × Datum)) →
    ((∃ texts, spellIn w entries = .ok texts) ↔ SpellableIn entries)
  | [] => by simp [spellIn, SpellableIn]
  | (k, d) :: rest => by
    rw [spellIn, SpellableIn, ← exists_spell_iff d, ← exists_spellIn_iff rest]
    simp only [exists_bind_ok_iff, exists_pure_ok, and_true, exists_and_right]

end

end Words

theorem spellableIn_iff {entries : Entries Datum} :
    SpellableIn entries ↔ ∀ e ∈ entries, e.2.Spellable := by
  induction entries with
  | nil => simp [SpellableIn]
  | cons e rest ih =>
    obtain ⟨k, d⟩ := e
    rw [SpellableIn, ih, List.forall_mem_cons]

/-- The name of a datum's kind in messages. -/
def kindName : Datum → String
  | .null => "NoneType"
  | .boolean _ => "bool"
  | .integer _ | .count _ => "int"
  | .float _ => "float"
  | .text _ => "str"
  | .list _ => "list"
  | .record _ => "dict"

/-- Whether a datum counts as said: it is there, and neither false nor zero nor empty. -/
def holds : Datum → Bool
  | .null => false
  | .boolean b => b
  | .integer n => n ≠ 0
  | .count n => n ≠ 0
  | .float x => x != 0
  | .text s => s ≠ ""
  | .list items => !items.isEmpty
  | .record entries => !entries.isEmpty

/-- A text that may be absent. -/
def ofText (s : Option String) : Datum := s.elim .null .text

theorem spellable_ofText (s : Option String) : (ofText s).Spellable := by
  cases s <;> trivial

/-- The words of messages. -/
def messageWords : Words where
  absent := Text.absent
  truth := Text.truth
  numbers := ⟨"nan", "inf", "-inf"⟩
  quoted := Text.quoted

/-- The spelling of a datum in messages. -/
def describe (d : Datum) : Except TooLong String := d.spell messageWords

/-- A text stands for itself; everything else is described. -/
def display : Datum → Except TooLong String
  | .text s => .ok s
  | d => d.describe

theorem exists_display_iff (d : Datum) : (∃ text, d.display = .ok text) ↔ d.Spellable := by
  cases d with
  | text s => simp [display, Spellable]
  | _ => exact exists_spell_iff _

end Datum

end InfraLint
