/-!
Computations that write notes as they go and may fail. What was noted before a failure stays.
-/
namespace InfraLint

structure Journal (ν ε α : Type) where
  notes : List ν
  outcome : Except ε α

namespace Journal

variable {ν ε α β : Type}

def ok (a : α) : Journal ν ε α := ⟨[], .ok a⟩

def fail (e : ε) : Journal ν ε α := ⟨[], .error e⟩

def note (x : ν) : Journal ν ε Unit := ⟨[x], .ok ()⟩

def lift (outcome : Except ε α) : Journal ν ε α := ⟨[], outcome⟩

/-- The notes of both parts in order; a failure of the first leaves out the second. -/
def andThen (first : Journal ν ε α) (next : α → Journal ν ε β) : Journal ν ε β :=
  match first.outcome with
  | .ok a => ⟨first.notes ++ (next a).notes, (next a).outcome⟩
  | .error e => ⟨first.notes, .error e⟩

/-- The same computation, with its notes and its failure said in other terms. -/
def translate {ν' ε' : Type} (f : ν → ν') (g : ε → ε') (j : Journal ν ε α) : Journal ν' ε' α :=
  ⟨j.notes.map f, j.outcome.mapError g⟩

instance : Monad (Journal ν ε) where
  pure := ok
  bind := andThen

/-- One computation for each member of a list, with the results in order. -/
def forEach (f : α → Journal ν ε (List β)) : List α → Journal ν ε (List β)
  | [] => ok []
  | x :: rest => do
    let here ← f x
    let more ← forEach f rest
    return here ++ more

theorem bind_eq (first : Journal ν ε α) (next : α → Journal ν ε β) :
    first >>= next = first.andThen next := rfl

theorem forEach_cons (f : α → Journal ν ε (List β)) (x : α) (rest : List α) :
    forEach f (x :: rest) =
      (f x).andThen fun here => (forEach f rest).andThen fun more => ok (here ++ more) := rfl

end Journal

end InfraLint
