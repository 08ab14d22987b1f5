import Dataflow.Fault

/-!
# Supplies of identifiers

A `Supply` hands out consecutive numbers. The last identifier is never handed out, so that `next`
always fits.
-/

namespace Dataflow

/-- What has been handed out so far: every number from the start up to `next`. -/
structure Supply where
  next : Nat := 0
deriving DecidableEq

namespace Supply

/-- The next number and the supply without it. -/
def take (s : Supply) : Except Fault (Nat × Supply) :=
  if s.next < idLimit then .ok (s.next, ⟨s.next + 1⟩) else .error .idsExhausted

/-- The form a supply takes in a diagnostic dump. -/
def dump (s : Supply) : String := s!"IdAllocator \x7b next_id: {s.next} \x7d"

theorem take_eq_ok {s s' : Supply} {n : Nat} :
    s.take = .ok (n, s') ↔ s.next < idLimit ∧ n = s.next ∧ s' = ⟨s.next + 1⟩ := by
  by_cases h : s.next < idLimit <;> simp [take, h, eq_comm]

end Supply

end Dataflow
