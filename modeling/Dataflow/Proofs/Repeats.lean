import Mathlib.Tactic.Common

/-!
# Loops

`Repeats guard body n s t`: from `s` the loop that runs `body` while `guard` holds ends in `t`, after `n`
rounds. A loop inside the body is a `Repeats` of its own. `exists_repeats` is how loops are shown to end:
an invariant under which every round can be run and lowers a variant. If each round lowers it by exactly
one, it counts the rounds (`Repeats.add_variant_eq`).
-/

namespace Dataflow

variable {α : Type} {guard : α → Prop} {body : α → α → Prop}

/-- Running `body` while `guard` holds leads from `s` to `t` in `n` rounds. -/
inductive Repeats (guard : α → Prop) (body : α → α → Prop) : Nat → α → α → Prop
  | stop {s : α} : ¬ guard s → Repeats guard body 0 s s
  | round {n : Nat} {s t u : α} : guard s → body s t → Repeats guard body n t u →
    Repeats guard body (n + 1) s u

theorem Repeats.not_guard {n : Nat} {s t : α} (h : Repeats guard body n s t) : ¬ guard t := by
  induction h with
  | stop hstop => exact hstop
  | round _ _ _ ih => exact ih

theorem Repeats.eq_of_zero {s t : α} (h : Repeats guard body 0 s t) : s = t := by
  cases h
  rfl

/-- A loop ends if some number gets smaller in every round. -/
theorem exists_repeats (inv : α → Prop) (variant : α → Nat)
    (hbody : ∀ s, inv s → guard s → ∃ t, body s t ∧ inv t ∧ variant t < variant s) (s : α)
    (hs : inv s) : ∃ n t, Repeats guard body n s t ∧ inv t ∧ n + variant t ≤ variant s := by
  generalize hv : variant s = v
  induction v using Nat.strongRecOn generalizing s with
  | ind v ih =>
    by_cases hguard : guard s
    · obtain ⟨t, ht, hinv, hlt⟩ := hbody s hs hguard
      obtain ⟨n, u, hrest, hu, hle⟩ := ih _ (hv ▸ hlt) t hinv rfl
      exact ⟨n + 1, u, .round hguard ht hrest, hu, by omega⟩
    · exact ⟨0, s, .stop hguard, hs, by omega⟩

/-- A number that every round lowers by one counts the rounds. -/
theorem Repeats.add_variant_eq {inv : α → Prop} {variant : α → Nat}
    (hbody : ∀ s t, inv s → guard s → body s t → inv t ∧ variant t + 1 = variant s) {n : Nat} {s t : α}
    (h : Repeats guard body n s t) (hs : inv s) : inv t ∧ n + variant t = variant s := by
  induction h with
  | stop _ => exact ⟨hs, Nat.zero_add _⟩
  | round hguard hround _ ih =>
    obtain ⟨hinv, hvariant⟩ := hbody _ _ hs hguard hround
    obtain ⟨hend, hsum⟩ := ih hinv
    exact ⟨hend, by rw [← hvariant, ← hsum, Nat.add_right_comm]⟩

end Dataflow
