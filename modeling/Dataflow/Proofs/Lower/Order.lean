import Dataflow.Proofs.Lower.AllWires

/-!
# Which accesses are put in order

The accesses of a plan stand in declaration order, and each is paired with those in front of it. A
pair is kept in order if one of the two writes, the first can run before the second, and the
disambiguator does not rule out that they touch the same memory.

A disambiguator may be replaced by one that gives the same answers (`Disambiguator.Follows`), such as
one that keeps a record.
-/

namespace Dataflow

open Relation

namespace Disambiguator

variable {σ : Type} (d : Disambiguator σ)

theorem length_regions (as : List Access) (s : σ) : (d.regions as s).1.length = as.length := by
  induction as generalizing s with
  | nil => rfl
  | cons a as ih => exact congrArg (· + 1) (ih _)

theorem aliasing_sublist (ps : List (Access × Access)) (s : σ) :
    ((d.aliasing ps s).1).Sublist ps := by
  induction ps generalizing s with
  | nil => exact .slnil
  | cons q ps ih =>
    simp only [aliasing]
    split
    · exact (ih _).cons_cons q
    · exact (ih _).cons q

/-- The other disambiguator gives the same answers, and its state tells this one's. -/
structure Follows {τ : Type} (d : Disambiguator σ) (d' : Disambiguator τ) (see : τ → σ) : Prop where
  region : ∀ a t, (d'.region a t).1 = (d.region a (see t)).1 ∧
    see (d'.region a t).2 = (d.region a (see t)).2
  mayAlias : ∀ a b t, (d'.mayAlias a b t).1 = (d.mayAlias a b (see t)).1 ∧
    see (d'.mayAlias a b t).2 = (d.mayAlias a b (see t)).2

section
variable {d} {τ : Type} {d' : Disambiguator τ} {see : τ → σ} (h : d.Follows d' see)
include h

theorem Follows.regions (as : List Access) (t : τ) :
    (d'.regions as t).1 = (d.regions as (see t)).1 ∧
      see (d'.regions as t).2 = (d.regions as (see t)).2 := by
  induction as generalizing t with
  | nil => exact ⟨rfl, rfl⟩
  | cons a as ih =>
    obtain ⟨hanswer, hstate⟩ := h.region a t
    obtain ⟨hanswers, hend⟩ := ih (d'.region a t).2
    rw [hstate] at hanswers hend
    exact ⟨congrArg₂ (· :: ·) hanswer hanswers, hend⟩

theorem Follows.aliasing (ps : List (Access × Access)) (t : τ) :
    (d'.aliasing ps t).1 = (d.aliasing ps (see t)).1 ∧
      see (d'.aliasing ps t).2 = (d.aliasing ps (see t)).2 := by
  induction ps generalizing t with
  | nil => exact ⟨rfl, rfl⟩
  | cons q ps ih =>
    obtain ⟨hanswer, hstate⟩ := h.mayAlias q.1 q.2 t
    obtain ⟨hanswers, hend⟩ := ih (d'.mayAlias q.1 q.2 t).2
    rw [hstate] at hanswers hend
    simp only [Disambiguator.aliasing, hanswer, hanswers, hend, and_self]

/-- Lowering cannot tell the two apart. -/
theorem Follows.lower (s : Session) (f : Function) (t : τ) :
    (s.lower f d' t).result = (s.lower f d (see t)).result ∧
      (s.lower f d' t).session = (s.lower f d (see t)).session ∧
      see (s.lower f d' t).oracle = (s.lower f d (see t)).oracle := by
  unfold Session.lower
  cases s.prepare f with
  | error e => exact ⟨rfl, rfl, rfl⟩
  | ok start =>
    obtain ⟨p, net⟩ := start
    dsimp only
    cases p.construct.run net with
    | error e net => exact ⟨rfl, rfl, rfl⟩
    | ok accesses net =>
      dsimp only
      cases p.conflicting accesses with
      | error e => exact ⟨rfl, rfl, rfl⟩
      | ok conflicting =>
        obtain ⟨hregions, hstate⟩ := h.regions accesses t
        obtain ⟨hordered, hend⟩ := h.aliasing conflicting (d'.regions accesses t).2
        rw [hstate] at hordered hend
        simp only [Session.settle, hregions, hordered]
        cases (p.complete s.options _ _).run net <;> exact ⟨rfl, rfl, hend⟩

end

theorem aliasing_single (ps : List (Access × Access)) : (single.aliasing ps ()).1 = ps := by
  induction ps with
  | nil => rfl
  | cons q ps ih => exact congrArg (q :: ·) ih

end Disambiguator

namespace Plan

variable {p : Plan}

/-- One access can run before another one within one run of the function. -/
def Precedes (f : Function) (a b : Access) : Prop :=
  if a.block = b.block then a.index < b.index
  else TransGen (Flow.IsForward f.Edge Function.entry) a.block b.block

/-- Two accesses are in order and one of them writes. -/
def Conflicts (f : Function) (q : Access × Access) : Prop :=
  ¬ (q.1.kind = .load ∧ q.2.kind = .load) ∧ Precedes f q.1 q.2

theorem mem_pairs {as : List Access} {a b : Access} : (a, b) ∈ pairs as ↔
    ∃ i j : Nat, i < j ∧ as[i]? = some a ∧ as[j]? = some b := by
  simp only [pairs, List.mem_flatMap, List.mem_map, Prod.exists, List.mem_zipIdx_iff_getElem?,
    Prod.mk.injEq]
  constructor
  · rintro ⟨b, j, hj, a, ha, rfl, rfl⟩
    obtain ⟨i, hi⟩ := List.mem_iff_getElem?.1 ha
    rw [List.getElem?_take] at hi
    split at hi
    · exact ⟨i, j, ‹_›, hi, hj⟩
    · cases hi
  · rintro ⟨i, j, hij, hi, hj⟩
    refine ⟨b, j, hj, a, List.mem_iff_getElem?.2 ⟨i, ?_⟩, rfl, rfl⟩
    rw [List.getElem?_take, if_pos hij]
    exact hi

/-- In a sorted list, each is paired with those that are smaller. -/
theorem mem_pairs_of_pairwise {as : List Access} {R : Access → Access → Prop} (has : as.Pairwise R)
    (hR : ∀ a b, R a b → ¬ R b a) {a b : Access} :
    (a, b) ∈ pairs as ↔ a ∈ as ∧ b ∈ as ∧ R a b := by
  have hlt : ∀ {i j : Nat} {a b : Access}, i < j → as[i]? = some a → as[j]? = some b → R a b := by
    intro i j a b hij hi hj
    obtain ⟨hi', rfl⟩ := List.getElem?_eq_some_iff.1 hi
    obtain ⟨hj', rfl⟩ := List.getElem?_eq_some_iff.1 hj
    exact List.pairwise_iff_getElem.1 has i j hi' hj' hij
  rw [mem_pairs]
  constructor
  · rintro ⟨i, j, hij, hi, hj⟩
    exact ⟨List.mem_of_getElem? hi, List.mem_of_getElem? hj, hlt hij hi hj⟩
  · rintro ⟨ha, hb, hab⟩
    obtain ⟨i, hi⟩ := List.mem_iff_getElem?.1 ha
    obtain ⟨j, hj⟩ := List.mem_iff_getElem?.1 hb
    refine ⟨i, j, ?_, hi, hj⟩
    rcases Nat.lt_trichotomy i j with hij | rfl | hij
    · exact hij
    · rw [hi] at hj
      obtain rfl := Option.some.inj hj
      exact absurd hab (hR a a hab)
    · exact absurd hab (hR b a (hlt hij hj hi))

section
variable (hp : p.Sound)
include hp

theorem Sound.conflicts_eq (q : Access × Access) :
    ∃ yes, p.conflicts q = .ok yes ∧ (yes = true ↔ Conflicts p.function q) := by
  unfold conflicts Conflicts
  split
  · rename_i h
    exact ⟨false, rfl, by simp [h]⟩
  · rename_i h
    unfold precedes Precedes
    split
    · exact ⟨_, rfl, by simp [h]⟩
    · obtain ⟨yes, hyes, hiff⟩ := hp.describes.forwardReaches_eq hp.wellFormed.toNumbered
        q.1.block q.2.block
      exact ⟨yes, hyes, by simp [h, hiff]⟩

/-- The pairs that conflict can be found, and they are all of them. -/
theorem Sound.conflicting_eq (as : List Access) : ∃ cs, p.conflicting as = .ok cs ∧
    cs.Sublist (pairs as) ∧ ∀ q, q ∈ cs ↔ q ∈ pairs as ∧ Conflicts p.function q := by
  classical
  refine ⟨(pairs as).filter fun q => Conflicts p.function q, filterM_eq_ok fun q _ => ?_,
    List.filter_sublist, fun q => by simp⟩
  obtain ⟨yes, hyes, hiff⟩ := hp.conflicts_eq q
  rw [hyes]
  exact congrArg _ (by rw [Bool.eq_iff_iff, hiff, decide_eq_true_iff])

end

end Plan

end Dataflow
