import InfraLint.Datum.Basic

/-!
Named values that meet a name which the call they are given to has taken already. The first such
value is the one that is refused. `find?_eq_none_iff` says that nothing is refused exactly if no
value has a name that is taken.
-/
namespace InfraLint

/-- A name that got a second value. -/
structure NameClash where
  call : String
  name : String
  /-- The first value was given by name too, rather than by its place. -/
  named : Bool
  deriving DecidableEq, Repr

namespace NameClash

def message (e : NameClash) : String :=
  e.call ++ "() got multiple values for " ++ (if e.named then "keyword argument" else "argument") ++
    " '" ++ e.name ++ "'"

/-- The first of some named values whose name `call` has taken. -/
def find? (call : String) (named : Bool) (taken : List String) (given : Entries Datum) :
    Option NameClash :=
  (given.find? fun e => taken.contains e.1).map fun e => ⟨call, e.1, named⟩

/-- Fails with a clash, if there is one. -/
def refuse : Option NameClash → Except NameClash Unit
  | none => .ok ()
  | some e => .error e

theorem find?_eq_none_iff {call : String} {named : Bool} {taken : List String}
    {given : Entries Datum} :
    find? call named taken given = none ↔ ∀ e ∈ given, e.1 ∉ taken := by
  simp [find?]

end NameClash

end InfraLint
