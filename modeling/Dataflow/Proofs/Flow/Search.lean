import Dataflow.Flow.Reach
import Dataflow.Proofs.Flow.Walk
import Mathlib.Data.List.Chain

/-!
# What the searches find

`mem_gather`: gathering finds exactly what can be reached inside the unfound vertices.

`postorder_depthFirst`: depth-first search lists what the root reaches in a depth-first order
(`DepthFirst`): every vertex can be reached from the root by edges that go forward in the list, and
an edge that does not go forward in the list closes a way that does. While the search runs, the
vertices met so far already stand in the order they will end up in, those on the stack from the
bottom up and then those that are done (`met`); a newly found vertex is put between the two, which
keeps every order relation there is (`Searching`).
-/

namespace Dataflow.Flow

open Relation

variable {next : Nat → List Nat} {n root : Nat}

/-! ## Gathering -/

/-- An edge to a vertex that is still to be found. -/
def StepIn (next : Nat → List Nat) (unfound : List Nat) (u v : Nat) : Prop :=
  v ∈ next u ∧ v ∈ unfound

theorem StepIn.of_erase {unfound : List Nat} {v x y : Nat}
    (h : ReflTransGen (StepIn next (unfound.erase v)) x y) :
    ReflTransGen (StepIn next unfound) x y :=
  ReflTransGen.mono (fun _ _ h => ⟨h.1, List.mem_of_mem_erase h.2⟩) _ _ h

/-- A way from `x` either ends at `v`, or its part behind the last `v` on it avoids `v`. -/
theorem StepIn.avoid {unfound rest : List Nat} {v x y : Nat} (hx : x = v ∨ x ∈ rest ∧ x ∈ unfound)
    (h : ReflTransGen (StepIn next unfound) x y) :
    y = v ∨ ∃ z ∈ next v ++ rest, z ∈ unfound.erase v ∧
      ReflTransGen (StepIn next (unfound.erase v)) z y := by
  induction h with
  | refl =>
    refine or_iff_not_imp_left.2 fun hxv => ?_
    obtain ⟨hr, hu⟩ := hx.resolve_left hxv
    exact ⟨x, List.mem_append_right _ hr, (List.mem_erase_of_ne hxv).2 hu, .refl⟩
  | @tail y w _ hw ih =>
    refine or_iff_not_imp_left.2 fun hwv => ?_
    have hwe : w ∈ unfound.erase v := (List.mem_erase_of_ne hwv).2 hw.2
    rcases ih with rfl | ⟨z, hz, hze, hp⟩
    · exact ⟨w, List.mem_append_left _ hw.1, hwe, .refl⟩
    · exact ⟨z, hz, hze, hp.tail ⟨hw.1, hwe⟩⟩

theorem mem_gather {unfound pending : List Nat} {y : Nat} :
    y ∈ gather next unfound pending ↔
      ∃ x ∈ pending, x ∈ unfound ∧ ReflTransGen (StepIn next unfound) x y := by
  fun_induction gather next unfound pending with
  | case1 unfound => simp
  | case2 unfound v rest hv ih =>
    rw [List.mem_cons, ih]
    constructor
    · rintro (rfl | ⟨z, hz, hze, hp⟩)
      · exact ⟨y, List.mem_cons_self, hv, .refl⟩
      · have hzu := List.mem_of_mem_erase hze
        rcases List.mem_append.1 hz with hz | hz
        · exact ⟨v, List.mem_cons_self, hv, .head ⟨hz, hzu⟩ (StepIn.of_erase hp)⟩
        · exact ⟨z, List.mem_cons_of_mem _ hz, hzu, StepIn.of_erase hp⟩
    · rintro ⟨x, hx, hxu, hp⟩
      exact StepIn.avoid ((List.mem_cons.1 hx).imp_right fun h => ⟨h, hxu⟩) hp
  | case3 unfound v rest hv ih =>
    rw [ih]
    constructor
    · rintro ⟨x, hx, hxu, hp⟩
      exact ⟨x, List.mem_cons_of_mem _ hx, hxu, hp⟩
    · rintro ⟨x, hx, hxu, hp⟩
      rcases List.mem_cons.1 hx with rfl | hx
      · exact absurd hxu hv
      · exact ⟨x, hx, hxu, hp⟩

/-! ## Depth-first orders -/

/-- An edge that goes forward in a list. -/
def Onward (next : Nat → List Nat) (order : List Nat) (u v : Nat) : Prop :=
  v ∈ next u ∧ [u, v].Sublist order

/-- An edge goes forward in a list or closes a way that does. -/
def Settled (next : Nat → List Nat) (order : List Nat) (u v : Nat) : Prop :=
  [u, v].Sublist order ∨ ReflTransGen (Onward next order) v u

/-- The list orders what can be reached from the root as depth-first search does. -/
structure DepthFirst (next : Nat → List Nat) (root : Nat) (order : List Nat) : Prop where
  nodup : order.Nodup
  head : order.head? = some root
  onward : ∀ x ∈ order, ReflTransGen (Onward next order) root x
  settled : ∀ u ∈ order, ∀ v ∈ next u, Settled next order u v

theorem Onward.mono {order order' : List Nat} (h : order.Sublist order') {u v : Nat}
    (hp : ReflTransGen (Onward next order) u v) : ReflTransGen (Onward next order') u v :=
  ReflTransGen.mono (fun _ _ h' => ⟨h'.1, h'.2.trans h⟩) _ _ hp

theorem Settled.mono {order order' : List Nat} (h : order.Sublist order') {u v : Nat}
    (hs : Settled next order u v) : Settled next order' u v :=
  hs.imp (·.trans h) (Onward.mono h)

theorem Settled.mem {order : List Nat} {u v : Nat} (hs : Settled next order u v) (hu : u ∈ order) :
    v ∈ order := by
  rcases hs with hs | hs
  · exact hs.subset (by simp)
  · rcases hs.cases_head with rfl | ⟨w, hw, -⟩
    · exact hu
    · exact hw.2.subset (by simp)

theorem pair_sublist_append {xs ys : List Nat} {x y : Nat} (hx : x ∈ xs) (hy : y ∈ ys) :
    [x, y].Sublist (xs ++ ys) :=
  (List.singleton_sublist.2 hx).append (List.singleton_sublist.2 hy)

/-! ## Depth-first search -/

/-- The vertices met so far, in the order they will end up in. -/
def met (stack : List (Nat × List Nat)) (done : List Nat) : List Nat :=
  (stack.map (·.1)).reverse ++ done

/-- What holds while depth-first search runs. -/
structure Searching (next : Nat → List Nat) (n root : Nat) (unfound : List Nat)
    (stack : List (Nat × List Nat)) (done : List Nat) : Prop where
  nodup : (met stack done ++ unfound).Nodup
  covers : ∀ x < n, x ∈ met stack done ∨ x ∈ unfound
  head : (met stack done).head? = some root
  chain : (stack.map (·.1)).IsChain fun v w => v ∈ next w
  onward : ∀ x ∈ met stack done, ReflTransGen (Onward next (met stack done)) root x
  stacked : ∀ f ∈ stack, ∀ t ∈ next f.1, t ∈ f.2 ∨ Settled next (met stack done) f.1 t
  finished : ∀ v ∈ done, ∀ t ∈ next v, Settled next (met stack done) v t

/-- The stack is a way from any vertex on it to its top. -/
theorem stack_onward {v t : Nat} {vs order : List Nat}
    (hc : (v :: vs).IsChain fun v w => v ∈ next w) (hs : (v :: vs).reverse.Sublist order)
    (ht : t ∈ v :: vs) : ReflTransGen (Onward next order) t v := by
  induction vs generalizing v order with
  | nil =>
    rw [List.mem_singleton.1 ht]
  | cons w vs ih =>
    rw [List.reverse_cons] at hs
    rcases List.mem_cons.1 ht with rfl | ht
    · exact .refl
    · have hw := ih hc.tail ((List.sublist_append_left _ _).trans hs) ht
      refine hw.tail ⟨(List.isChain_cons_cons.1 hc).1, ?_⟩
      exact (pair_sublist_append (by simp) (by simp)).trans hs

section
variable {unfound done ts : List Nat} {stack rest : List (Nat × List Nat)} {v t : Nat}

theorem Searching.pop (h : Searching next n root unfound ((v, []) :: rest) done) :
    Searching next n root unfound rest (v :: done) := by
  have hm : met rest (v :: done) = met ((v, []) :: rest) done := by simp [met]
  constructor
  · rw [hm]; exact h.nodup
  · rw [hm]; exact h.covers
  · rw [hm]; exact h.head
  · exact h.chain.tail
  · rw [hm]; exact h.onward
  · rw [hm]; exact fun f hf => h.stacked f (List.mem_cons_of_mem _ hf)
  · rw [hm]
    intro w hw t ht
    rcases List.mem_cons.1 hw with rfl | hw
    · exact (h.stacked _ List.mem_cons_self t ht).resolve_left List.not_mem_nil
    · exact h.finished w hw t ht

/-- A vertex that is found stands behind the stack. -/
theorem met_push : met ((t, next t) :: (v, ts) :: rest) done =
    (((v, t :: ts) :: rest).map (·.1)).reverse ++ t :: done := by
  simp [met]

theorem met_sublist_push : (met ((v, t :: ts) :: rest) done).Sublist
    (met ((t, next t) :: (v, ts) :: rest) done) := by
  rw [met_push]
  exact (List.Sublist.refl _).append (List.sublist_cons_self _ _)

theorem mem_met_push {x : Nat} : x ∈ met ((t, next t) :: (v, ts) :: rest) done ↔
    x = t ∨ x ∈ met ((v, t :: ts) :: rest) done := by
  simp only [met, List.map_cons, List.reverse_cons, List.mem_append, List.mem_reverse,
    List.mem_singleton]
  tauto

theorem perm_met_push (ht : t ∈ unfound) :
    (met ((t, next t) :: (v, ts) :: rest) done ++ unfound.erase t).Perm
      (met ((v, t :: ts) :: rest) done ++ unfound) := by
  rw [met_push]
  refine List.Perm.trans ?_ ((List.perm_cons_erase ht).symm.append_left _)
  simp only [met, List.append_assoc, List.cons_append]
  exact (List.perm_middle.symm).append_left _

theorem Searching.push (h : Searching next n root unfound ((v, t :: ts) :: rest) done)
    (ht : t ∈ unfound) (hv : t ∈ next v) :
    Searching next n root (unfound.erase t) ((t, next t) :: (v, ts) :: rest) done := by
  have hsub : (met ((v, t :: ts) :: rest) done).Sublist (met ((t, next t) :: (v, ts) :: rest) done) :=
    met_sublist_push
  have hvt : [v, t].Sublist (met ((t, next t) :: (v, ts) :: rest) done) := by
    rw [met_push]
    exact pair_sublist_append (by simp) (by simp)
  constructor
  · exact (perm_met_push ht).nodup_iff.2 h.nodup
  · intro x hx
    by_cases hxt : x = t
    · exact .inl (mem_met_push.2 (.inl hxt))
    · exact (h.covers x hx).imp (fun hx => mem_met_push.2 (.inr hx)) (List.mem_erase_of_ne hxt).2
  · rw [met_push]
    have hroot := h.head
    simp only [met] at hroot
    cases hr : (((v, t :: ts) :: rest).map (·.1)).reverse with
    | nil => simp at hr
    | cons x xs =>
      rw [hr] at hroot
      simpa using hroot
  · exact List.isChain_cons_cons.2 ⟨hv, h.chain⟩
  · intro x hx
    rcases mem_met_push.1 hx with rfl | hx
    · exact (Onward.mono hsub (h.onward v (by simp [met]))).tail ⟨hv, hvt⟩
    · exact Onward.mono hsub (h.onward x hx)
  · intro f hf s hs
    rcases List.mem_cons.1 hf with rfl | hf
    · exact .inl hs
    rcases List.mem_cons.1 hf with rfl | hf
    · rcases h.stacked _ List.mem_cons_self s hs with h' | h'
      · rcases List.mem_cons.1 h' with rfl | h'
        · exact .inr (.inl hvt)
        · exact .inl h'
      · exact .inr (h'.mono hsub)
    · exact (h.stacked f (List.mem_cons_of_mem _ hf) s hs).imp_right (·.mono hsub)
  · exact fun w hw s hs => (h.finished w hw s hs).mono hsub

/-- A vertex that has been met is done or on the stack; either way the edge to it is settled. -/
theorem Searching.skip (h : Searching next n root unfound ((v, t :: ts) :: rest) done)
    (ht : t ∉ unfound) (hn : t < n) :
    Searching next n root unfound ((v, ts) :: rest) done := by
  have hm : met ((v, ts) :: rest) done = met ((v, t :: ts) :: rest) done := by simp [met]
  have hs : Settled next (met ((v, t :: ts) :: rest) done) v t := by
    rcases List.mem_append.1 ((h.covers t hn).resolve_right ht) with hst | hd
    · exact .inr (stack_onward h.chain (List.sublist_append_left _ _) (List.mem_reverse.1 hst))
    · exact .inl (pair_sublist_append (by simp) hd)
  constructor
  · rw [hm]; exact h.nodup
  · rw [hm]; exact h.covers
  · rw [hm]; exact h.head
  · exact h.chain
  · rw [hm]; exact h.onward
  · rw [hm]
    intro f hf s hsn
    rcases List.mem_cons.1 hf with rfl | hf
    · rcases h.stacked _ List.mem_cons_self s hsn with h' | h'
      · rcases List.mem_cons.1 h' with rfl | h'
        · exact .inr hs
        · exact .inl h'
      · exact .inr h'
    · exact h.stacked f (List.mem_cons_of_mem _ hf) s hsn
  · rw [hm]; exact h.finished

end

/-- The edges a frame of the stack has still to follow are edges of its vertex. -/
def Framed (next : Nat → List Nat) (stack : List (Nat × List Nat)) : Prop :=
  ∀ f ∈ stack, f.2 ⊆ next f.1

theorem Searching.depthFirst (hn : ∀ v, ∀ t ∈ next v, t < n) {unfound done : List Nat}
    {stack : List (Nat × List Nat)} (h : Searching next n root unfound stack done)
    (hf : Framed next stack) : DepthFirst next root (postorder next unfound stack done) := by
  fun_induction postorder next unfound stack done with
  | case1 unfound done =>
    exact ⟨(List.nodup_append.1 h.nodup).1, h.head, h.onward, h.finished⟩
  | case2 unfound done v rest ih =>
    exact ih h.pop fun f hfr => hf f (List.mem_cons_of_mem _ hfr)
  | case3 unfound done v t ts rest ht ih =>
    obtain ⟨hv, hts⟩ := List.cons_subset.1 (hf _ List.mem_cons_self)
    refine ih (h.push ht hv) fun f hfr => ?_
    rcases List.mem_cons.1 hfr with rfl | hfr
    · exact fun _ h => h
    rcases List.mem_cons.1 hfr with rfl | hfr
    · exact hts
    · exact hf f (List.mem_cons_of_mem _ hfr)
  | case4 unfound done v t ts rest ht ih =>
    obtain ⟨hv, hts⟩ := List.cons_subset.1 (hf _ List.mem_cons_self)
    refine ih (h.skip ht (hn v t hv)) fun f hfr => ?_
    rcases List.mem_cons.1 hfr with rfl | hfr
    · exact hts
    · exact hf f (List.mem_cons_of_mem _ hfr)

theorem postorder_depthFirst (hn : ∀ v, ∀ t ∈ next v, t < n) (hr : root < n) :
    DepthFirst next root
      (postorder next ((List.range n).erase root) [(root, next root)] []) := by
  have hm : met [(root, next root)] [] = [root] := rfl
  refine Searching.depthFirst hn ?_ fun f hf => by simp_all
  constructor
  · rw [hm, List.singleton_append, (List.perm_cons_erase (List.mem_range.2 hr)).symm.nodup_iff]
    exact List.nodup_range
  · intro x hx
    rw [hm]
    by_cases hxr : x = root
    · exact .inl (by simp [hxr])
    · exact .inr ((List.mem_erase_of_ne hxr).2 (List.mem_range.2 hx))
  · rfl
  · simp
  · rw [hm]
    intro x hx
    rw [List.mem_singleton.1 hx]
  · intro f hf t ht
    rw [List.mem_singleton.1 hf] at ht ⊢
    exact .inl ht
  · simp

end Dataflow.Flow
