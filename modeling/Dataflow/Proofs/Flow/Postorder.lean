import Dataflow.Proofs.Flow.Exact

/-!
# The order of the blocks

`FlowGraph.reversePostorder_depthFirstOrder`: a flow graph lists the reachable blocks of its function in
a depth-first order (`Function.DepthFirstOrder`). Blocks need not be numbered by their positions for that;
it is enough that branches lead to existing blocks.
-/

namespace Dataflow

open Relation

/-! ## Walks inside a list -/

theorem cons_sublist_of_append {xs ys zs : List Nat} {v : Nat} (hv : v ∉ xs)
    (h : (v :: zs).Sublist (xs ++ ys)) : (v :: zs).Sublist ys := by
  obtain ⟨front, back, heq, hfront, hback⟩ := List.sublist_append_iff.1 h
  cases front with
  | nil => rwa [heq, List.nil_append]
  | cons w front =>
    obtain rfl : v = w := (List.cons.inj heq).1
    exact absurd (hfront.subset List.mem_cons_self) hv

/-- Two sublists are joined at an element that the list has once. -/
theorem sublist_join {order xs ys : List Nat} (hnd : order.Nodup) {v : Nat}
    (hx : (xs ++ [v]).Sublist order) (hy : (v :: ys).Sublist order) :
    (xs ++ v :: ys).Sublist order := by
  obtain ⟨front, back, rfl, hfront, hback⟩ := List.append_sublist_iff.1 hx
  have hv : v ∉ front := fun hmem =>
    (List.nodup_append.1 hnd).2.2 v hmem v (List.singleton_sublist.1 hback) rfl
  exact hfront.append (cons_sublist_of_append hv hy)

namespace Flow

variable {E : BlockId → BlockId → Prop} {next : BlockId → List BlockId} {order : List BlockId}
variable {u v : BlockId}

theorem Walk.exists_eq_concat {vs : List BlockId} (h : Walk E u v vs) : ∃ us, vs = us ++ [v] := by
  cases h with
  | single => exact ⟨[], rfl⟩
  | step _ _ => exact ⟨_, rfl⟩

/-- Edges that go forward in a list make up a walk inside it. -/
theorem exists_walk_sublist (hnd : order.Nodup) (hnext : ∀ u v, v ∈ next u ↔ E u v) (hu : u ∈ order)
    (h : ReflTransGen (Onward next order) u v) : ∃ vs, Walk E u v vs ∧ vs.Sublist order := by
  induction h with
  | refl => exact ⟨_, .single u, List.singleton_sublist.2 hu⟩
  | @tail v w _ he ih =>
    obtain ⟨vs, hwalk, hsub⟩ := ih
    obtain ⟨us, rfl⟩ := hwalk.exists_eq_concat
    refine ⟨_, hwalk.step ((hnext v w).1 he.1), ?_⟩
    rw [List.append_assoc]
    exact sublist_join hnd hsub he.2

end Flow

namespace Function

/-- The list holds the reachable blocks of a function in the order in which depth-first search leaves
them, the last one first. -/
structure DepthFirstOrder (f : Function) (order : List BlockId) : Prop where
  mem_iff : ∀ b, b ∈ order ↔ f.Reachable b
  nodup : order.Nodup
  head : order.head? = some entry
  /-- Every other block has a predecessor in front of it. -/
  pred : ∀ {j : Nat} {v : BlockId}, order[j]? = some v → v ≠ entry →
    ∃ i < j, ∃ u, order[i]? = some u ∧ f.Edge u v
  /-- An edge that does not lead on in the list closes a walk that does. -/
  closes : ∀ {i j : Nat} {u v : BlockId}, order[i]? = some u → order[j]? = some v → f.Edge u v →
    j ≤ i → ∃ vs, Flow.Walk f.Edge v u vs ∧ vs.Sublist order

end Function

namespace Flow

variable {f : Function} {next : BlockId → List BlockId} {order : List BlockId}

theorem idxOf_of_getElem? (hnd : order.Nodup) {i : Nat} {v : BlockId} (h : order[i]? = some v) :
    order.idxOf v = i := by
  obtain ⟨hi, rfl⟩ := List.getElem?_eq_some_iff.1 h
  exact hnd.idxOf_getElem i hi

theorem DepthFirst.toOrder (ho : DepthFirst next Function.entry order)
    (hnext : ∀ u v, v ∈ next u ↔ f.Edge u v) : f.DepthFirstOrder order where
  mem_iff _ := ho.mem_iff hnext
  nodup := ho.nodup
  head := ho.head
  pred {j v} hj hv := by
    rcases (ho.onward v (List.mem_of_getElem? hj)).cases_tail with h | ⟨u, -, hu⟩
    · exact absurd h hv
    · have hmem : u ∈ order := hu.2.subset List.mem_cons_self
      refine ⟨order.idxOf u, ?_, u, List.getElem?_idxOf hmem, (hnext u v).1 hu.1⟩
      exact Nat.lt_of_lt_of_eq (idxOf_lt_idxOf ho.nodup hu.2) (idxOf_of_getElem? ho.nodup hj)
  closes {i j u v} hi hj he hle := by
    rcases ho.settled u (List.mem_of_getElem? hi) v ((hnext u v).2 he) with hs | hs
    · have hlt := idxOf_lt_idxOf ho.nodup hs
      rw [idxOf_of_getElem? ho.nodup hi, idxOf_of_getElem? ho.nodup hj] at hlt
      exact absurd hle (Nat.not_le_of_lt hlt)
    · exact exists_walk_sublist ho.nodup hnext (List.mem_of_getElem? hj) hs

end Flow

namespace FlowGraph

/-- **The blocks are listed in a depth-first order**, by the search and so by every flow graph that the
analysis gives. -/
theorem reversePostorder_depthFirstOrder {f : Function}
    (htargets : ∀ b ∈ f.blocks, ∀ t ∈ b.exit.targets, t < f.blocks.length) :
    (f.blocks ≠ [] → f.DepthFirstOrder (reversePostorder (successorsOf f))) ∧
    ∀ g, ofFunction f = .ok g → f.DepthFirstOrder g.order := by
  have hlt : ∀ {u v}, f.Edge u v → v < f.blocks.length := by
    rintro u v ⟨b, hb, hv⟩
    exact htargets b (List.mem_of_getElem? hb) v hv
  have hsearch : f.blocks ≠ [] → f.DepthFirstOrder (reversePostorder (successorsOf f)) := fun hne =>
    (depthFirst_reversePostorder hne hlt).toOrder fun _ _ => mem_row_successorsOf
  refine ⟨hsearch, fun g hgf => ?_⟩
  obtain ⟨hne, horder, -⟩ := ofFunction_eq_ok hgf
  rw [horder]
  exact hsearch hne

theorem reversePostorder_depthFirstOrder_crossing :
    ofFunction .crossing = .ok .crossing ∧ crossing.order = [0, 1, 2] ∧
    ¬ Function.crossing.Reachable 3 ∧
    (∃ i < 2, ∃ u, crossing.order[i]? = some u ∧ Function.crossing.Edge u 2) ∧
    ∃ vs, Flow.Walk Function.crossing.Edge 1 2 vs ∧ vs.Sublist crossing.order := by
  have hgf : ofFunction .crossing = .ok .crossing := by decide +kernel
  have h := (reversePostorder_depthFirstOrder (by decide)).2 _ hgf
  refine ⟨hgf, rfl, fun hr => ?_, ?_, ?_⟩
  · exact absurd ((h.mem_iff 3).2 hr) (by decide)
  · exact h.pred (j := 2) rfl (by decide)
  · exact h.closes (i := 2) (j := 1) rfl rfl ⟨_, rfl, by decide⟩ (by decide)

end FlowGraph

end Dataflow
