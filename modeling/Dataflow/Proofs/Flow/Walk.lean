import Dataflow.Ident
import Mathlib.Logic.Relation
import Mathlib.Tactic.Common

/-!
# Walks and dominance

The declarative side of the control flow analysis, over any edge relation `E` on blocks:

* `Walk E u v vs`: the vertices `vs` lead from `u` to `v`, one edge after the other.
* `Dominates E r a b`: `b` can be reached from the root `r`, and every walk from `r` to `b` goes
  through `a`. `dominates_iff` says the same by walks that avoid `a` (`Skip E a`), which is the form
  most proofs use.

Dominance is a partial order on what the root reaches (`Dominates.refl`, `Dominates.trans`,
`Dominates.antisymm`), and a block other than the root is dominated by what dominates all its
predecessors (`Dominates.pred`, `Dominates.of_preds`).
-/

namespace Dataflow.Flow

open Relation

variable {E : BlockId → BlockId → Prop} {r a b c u v w : BlockId}

/-- The vertices of a walk, from its first to its last. -/
inductive Walk (E : BlockId → BlockId → Prop) : BlockId → BlockId → List BlockId → Prop
  | single (u : BlockId) : Walk E u u [u]
  | step {u v w : BlockId} {vs : List BlockId} : Walk E u v vs → E v w → Walk E u w (vs ++ [w])

/-- `b` can be reached from `r`, and only through `a`. -/
structure Dominates (E : BlockId → BlockId → Prop) (r a b : BlockId) : Prop where
  reaches : ReflTransGen E r b
  mem : ∀ vs, Walk E r b vs → a ∈ vs

/-- The edges that do not lead to `a`. -/
def Skip (E : BlockId → BlockId → Prop) (a u v : BlockId) : Prop := E u v ∧ v ≠ a

/-- An edge whose target dominates its source. -/
def IsBack (E : BlockId → BlockId → Prop) (r u v : BlockId) : Prop := E u v ∧ Dominates E r v u

/-- An edge that is not a back edge. -/
def IsForward (E : BlockId → BlockId → Prop) (r u v : BlockId) : Prop :=
  E u v ∧ ¬ Dominates E r v u

/-- Every cycle that the root reaches goes through a back edge. -/
def Reducible (E : BlockId → BlockId → Prop) (r : BlockId) : Prop :=
  ∀ u, ReflTransGen E r u → ¬ TransGen (IsForward E r) u u

/-! ## Walks -/

theorem Walk.reaches {vs : List BlockId} (h : Walk E u v vs) : ReflTransGen E u v := by
  induction h with
  | single => exact .refl
  | step _ he ih => exact ih.tail he

theorem exists_walk (h : ReflTransGen E u v) : ∃ vs, Walk E u v vs := by
  induction h with
  | refl => exact ⟨_, .single u⟩
  | tail _ he ih =>
    obtain ⟨vs, hw⟩ := ih
    exact ⟨_, hw.step he⟩

theorem Walk.last_mem {vs : List BlockId} (h : Walk E u v vs) : v ∈ vs := by
  cases h <;> simp

theorem Walk.first_mem {vs : List BlockId} (h : Walk E u v vs) : u ∈ vs := by
  induction h with
  | single => simp
  | step _ _ ih => simp [ih]

/-- The part of a walk up to one of its vertices. -/
theorem Walk.exists_initial {vs : List BlockId} (h : Walk E u v vs) (ha : a ∈ vs) :
    ∃ us, Walk E u a us ∧ us ⊆ vs ∧ us.length ≤ vs.length ∧ (a ≠ v → us.length < vs.length) := by
  induction h with
  | single =>
    obtain rfl := List.mem_singleton.1 ha
    exact ⟨_, .single a, fun _ h => h, Nat.le_refl _, fun h => absurd rfl h⟩
  | @step _ w vs hw he ih =>
    by_cases haw : a = w
    · subst haw
      exact ⟨_, hw.step he, fun _ h => h, Nat.le_refl _, fun h => absurd rfl h⟩
    · obtain ⟨us, hu, hsub, hle, -⟩ := ih (by simpa [haw] using ha)
      have hlt : us.length < (vs ++ [w]).length := by simpa using Nat.lt_succ_of_le hle
      exact ⟨us, hu, fun x hx => List.mem_append_left _ (hsub hx), Nat.le_of_lt hlt, fun _ => hlt⟩

/-! ## Walks that avoid a vertex -/

theorem Skip.reaches (h : ReflTransGen (Skip E a) u v) : ReflTransGen E u v :=
  ReflTransGen.mono (fun _ _ h => h.1) _ _ h

theorem Skip.ne (h : ReflTransGen (Skip E a) u v) (hu : u ≠ a) : v ≠ a := by
  cases h with
  | refl => exact hu
  | tail _ he => exact he.2

theorem exists_walk_avoiding (h : ReflTransGen (Skip E a) u v) (hu : u ≠ a) :
    ∃ vs, Walk E u v vs ∧ a ∉ vs := by
  induction h with
  | refl => exact ⟨_, .single u, by simpa using hu.symm⟩
  | tail _ he ih =>
    obtain ⟨vs, hw, ha⟩ := ih
    exact ⟨_, hw.step he.1, by simpa using ⟨ha, he.2.symm⟩⟩

theorem Walk.skip {vs : List BlockId} (h : Walk E u v vs) (ha : a ∉ vs) :
    ReflTransGen (Skip E a) u v := by
  induction h with
  | single => exact .refl
  | step _ he ih =>
    simp only [List.mem_append, List.mem_singleton, not_or] at ha
    exact (ih ha.1).tail ⟨he, Ne.symm ha.2⟩

theorem dominates_iff :
    Dominates E r a b ↔ ReflTransGen E r b ∧ (r ≠ a → ¬ ReflTransGen (Skip E a) r b) := by
  constructor
  · intro h
    refine ⟨h.reaches, fun hr hs => ?_⟩
    obtain ⟨vs, hw, ha⟩ := exists_walk_avoiding hs hr
    exact ha (h.mem vs hw)
  · rintro ⟨hb, hs⟩
    refine ⟨hb, fun vs hw => ?_⟩
    by_contra ha
    have hr : r ≠ a := fun h => ha (h ▸ hw.first_mem)
    exact hs hr (hw.skip ha)

/-! ## Dominance -/

theorem Dominates.refl (h : ReflTransGen E r b) : Dominates E r b b := ⟨h, fun _ hw => hw.last_mem⟩

theorem Dominates.root (h : ReflTransGen E r b) : Dominates E r r b := ⟨h, fun _ hw => hw.first_mem⟩

theorem Dominates.reaches_left (h : Dominates E r a b) : ReflTransGen E r a := by
  obtain ⟨vs, hw⟩ := exists_walk h.reaches
  obtain ⟨us, hu, -⟩ := hw.exists_initial (h.mem vs hw)
  exact hu.reaches

/-- Nothing but the root dominates the root. -/
theorem Dominates.eq_root (h : Dominates E r a r) : a = r := by
  simpa using h.mem _ (.single r)

theorem Dominates.trans (h₁ : Dominates E r a b) (h₂ : Dominates E r b c) : Dominates E r a c := by
  refine ⟨h₂.reaches, fun vs hw => ?_⟩
  obtain ⟨us, hu, hsub, -⟩ := hw.exists_initial (h₂.mem vs hw)
  exact hsub (h₁.mem us hu)

theorem Dominates.antisymm (h₁ : Dominates E r a b) (h₂ : Dominates E r b a) : a = b := by
  by_contra hab
  -- a walk to `b` has a shorter one to `a` in it, and that one a shorter one to `b`
  have descend : ∀ n vs, vs.length = n → ¬ Walk E r b vs := by
    intro n
    induction n using Nat.strongRecOn with
    | ind n ih =>
      rintro vs rfl hw
      obtain ⟨us, hu, -, -, hlu⟩ := hw.exists_initial (h₁.mem vs hw)
      obtain ⟨ts, ht, -, -, hlt⟩ := hu.exists_initial (h₂.mem us hu)
      exact ih _ (Nat.lt_trans (hlt (Ne.symm hab)) (hlu hab)) ts rfl ht
  obtain ⟨vs, hw⟩ := exists_walk h₁.reaches
  exact descend _ vs rfl hw

/-- What dominates a block dominates its predecessors, the block itself apart. -/
theorem Dominates.pred (h : Dominates E r a b) (hab : a ≠ b) (hp : ReflTransGen E r v)
    (he : E v b) : Dominates E r a v := by
  refine dominates_iff.2 ⟨hp, fun hr hs => ?_⟩
  exact (dominates_iff.1 h).2 hr (hs.tail ⟨he, hab.symm⟩)

theorem Dominates.of_preds (hb : ReflTransGen E r b) (hr : b ≠ r)
    (h : ∀ p, ReflTransGen E r p → E p b → Dominates E r a p) : Dominates E r a b := by
  refine dominates_iff.2 ⟨hb, fun hra hs => ?_⟩
  cases hs with
  | refl => exact hr rfl
  | tail hs he =>
    rename_i p
    exact (dominates_iff.1 (h p (Skip.reaches hs) he.1)).2 hra hs

/-- What the root reaches it reaches without a back edge: such an edge leads to where a walk has been
before. -/
theorem reaches_forward (h : ReflTransGen E r b) : ReflTransGen (IsForward E r) r b := by
  obtain ⟨vs, hw⟩ := exists_walk h
  clear h
  induction hn : vs.length using Nat.strongRecOn generalizing b vs with
  | ind n ih =>
    cases hw with
    | single => exact .refl
    | @step v _ us hw he =>
      have hlt : us.length < n := by
        rw [← hn, List.length_append]
        exact Nat.lt_succ_self _
      by_cases hd : Dominates E r b v
      · obtain ⟨ts, ht, -, hle, -⟩ := hw.exists_initial (hd.mem us hw)
        exact ih ts.length (Nat.lt_of_le_of_lt hle hlt) ts ht rfl
      · exact (ih us.length hlt us hw rfl).tail ⟨he, hd⟩

end Dataflow.Flow
