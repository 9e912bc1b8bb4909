import InfraLint.Text.Quoted

/-!
How plain values and groups of values are spelled in messages and descriptions. A whole number has
no text if it has too many digits, and then nothing that it is part of has one.
-/
namespace InfraLint

section Outcomes

variable {ε α β : Type} {x : Except ε α}

theorem exists_pure_ok (a : α) : ∃ b, (pure a : Except ε α) = .ok b := ⟨a, rfl⟩

theorem exists_map_ok_iff {f : α → β} : (∃ b, x.map f = .ok b) ↔ ∃ a, x = .ok a := by
  cases x <;> simp [Except.map]

theorem exists_mapError_ok_iff {ε' : Type} {f : ε → ε'} :
    (∃ a, x.mapError f = .ok a) ↔ ∃ a, x = .ok a := by
  cases x with
  | error e => exact iff_of_false nofun nofun
  | ok a => exact iff_of_true ⟨a, rfl⟩ ⟨a, rfl⟩

/-- Two steps succeed if the first does and the second does with what the first gives. -/
theorem exists_bind_ok_iff {f : α → Except ε β} :
    (∃ b, (x >>= f) = .ok b) ↔ ∃ a, x = .ok a ∧ ∃ b, f a = .ok b := by
  cases x <;> simp [bind, Except.bind]

theorem exists_check_ok_iff {check : Except ε Unit} :
    (∃ a, (check >>= fun _ => x) = .ok a) ↔ check = .ok () ∧ ∃ a, x = .ok a := by
  rw [exists_bind_ok_iff]
  exact ⟨fun ⟨_, hcheck, h⟩ => ⟨hcheck, h⟩, fun ⟨hcheck, h⟩ => ⟨(), hcheck, h⟩⟩

end Outcomes

/-- A whole number of more digits than a text of it may have. -/
structure TooLong where
  number : Int
  deriving DecidableEq, Repr

namespace Text

/-- The digits that whole numbers may have in texts, where they are read and where they are
written. -/
def maxDigits : Nat := 4300

def Spellable (n : Int) : Prop := (Nat.toDigits 10 n.natAbs).length ≤ maxDigits

instance (n : Int) : Decidable (Spellable n) := inferInstanceAs (Decidable (_ ≤ maxDigits))

/-- A whole number in decimal digits. -/
def whole (n : Int) : Except TooLong String :=
  if Spellable n then .ok (toString n) else .error ⟨n⟩

theorem whole_eq_ok_iff {n : Int} {text : String} :
    whole n = .ok text ↔ Spellable n ∧ text = toString n := by
  unfold whole
  by_cases h : Spellable n <;> simp [h, eq_comm]

theorem exists_whole_iff {n : Int} : (∃ text, whole n = .ok text) ↔ Spellable n := by
  simp [whole_eq_ok_iff]

/-- Several texts, unless one of them cannot be had. -/
def each {ε : Type} : List (Except ε String) → Except ε (List String)
  | [] => .ok []
  | text :: rest => do
    let here ← text
    let more ← each rest
    return here :: more

theorem exists_each_iff {ε : Type} {texts : List (Except ε String)} :
    (∃ found, each texts = .ok found) ↔ ∀ text ∈ texts, ∃ s, text = .ok s := by
  induction texts with
  | nil => simp [each]
  | cons text rest ih =>
    rw [List.forall_mem_cons, ← ih, each]
    simp only [exists_bind_ok_iff, exists_pure_ok, and_true, exists_and_right]

/-- The absent value. -/
def absent : String := "None"

def optional {α : Type} (spell : α → String) (x : Option α) : String := x.elim absent spell

def truth (b : Bool) : String := if b then "True" else "False"

/-- A sequence of fixed length; a single part keeps a comma behind it. -/
def sequence : List String → String
  | [part] => "(" ++ part ++ ",)"
  | parts => "(" ++ ", ".intercalate parts ++ ")"

def list (parts : List String) : String := "[" ++ ", ".intercalate parts ++ "]"

def table (entries : List (String × String)) : String :=
  "\x7b" ++ ", ".intercalate (entries.map fun e => e.1 ++ ": " ++ e.2) ++ "\x7d"

/-- A kind with its named parts. -/
def record (kind : String) (parts : List (String × String)) : String :=
  kind ++ "(" ++ ", ".intercalate (parts.map fun part => part.1 ++ "=" ++ part.2) ++ ")"

end Text

def TooLong.message (_ : TooLong) : String :=
  s!"Exceeds the limit ({Text.maxDigits} digits) for integer string conversion; " ++
    "use sys.set_int_max_str_digits() to increase the limit"

end InfraLint
