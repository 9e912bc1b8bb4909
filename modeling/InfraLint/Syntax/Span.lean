import InfraLint.Text.Spelling

/-!
Half-open ranges of characters in a document. Positions and lengths are natural numbers;
numbers from outside are checked once, when a span is made of them.
-/
namespace InfraLint

structure Span where
  position : Nat
  length : Nat
  deriving DecidableEq, Repr, Inhabited

/-- Two numbers that are no span because one of them is negative. -/
structure InvalidSpan where
  position : Int
  length : Int
  deriving DecidableEq, Repr

/-- A number that has no text is complained about instead. -/
def InvalidSpan.message (e : InvalidSpan) : String :=
  let shown : Except TooLong String := do
    let position ← Text.whole e.position
    let length ← Text.whole e.length
    return s!"Invalid span: position={position}, length={length}"
  match shown with
  | .ok text => text
  | .error e => e.message

namespace Span

def ofInts (position length : Int) : Except InvalidSpan Span :=
  if position < 0 ∨ length < 0 then .error ⟨position, length⟩
  else .ok ⟨position.toNat, length.toNat⟩

/-- The first position after the span. -/
def stop (s : Span) : Nat := s.position + s.length

/-- The span as it stands in front of a finding. -/
def render (s : Span) : Except TooLong String := do
  let position ← Text.whole s.position
  let stop ← Text.whole s.stop
  return s!"[{position}:{stop}]"

/-- The span with its parts named. -/
def describe (s : Span) : Except TooLong String := do
  let position ← Text.whole s.position
  let length ← Text.whole s.length
  return s!"TextSpan(position={position}, length={length})"

end Span

end InfraLint
