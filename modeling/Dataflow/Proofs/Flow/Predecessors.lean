import Dataflow.Proofs.Ssa.WellFormed
import Mathlib.Data.List.Sort

/-!
# Predecessors, listed twice

A function's predecessors are listed by two computations. `Function.predecessors` goes through the
targets as they are declared, skips a block that is listed already, and sorts at the end; phis are
checked against its lists. `FlowGraph.ofFunction` drops repeated targets first and then leaves out the
blocks that the entry does not reach; the inputs of phis and blocks are wired by its lists.

`FlowGraph.ofFunction_predecessors`: on a well-formed function the second lists are the first ones
without the unreachable blocks, in the same order.
-/

namespace Dataflow

namespace Function

section
variable {f : Function} (hf : f.Numbered)
include hf

/-- The row of a block lists its predecessors once each, in ascending order. -/
theorem Numbered.exists_sources {table : List (List BlockId)} (ht : f.predecessors = .ok table)
    {b : BlockId} (hb : b < f.blocks.length) :
    ∃ sources, table[b]? = some sources ∧ sources.Pairwise (· < ·) ∧
      ∀ x, x ∈ sources ↔ f.Edge x b := by
  refine ⟨_, lookup_eq_ok.1 (hf.lookup_predecessors ht hb), ?_, fun x => ?_⟩
  · have hnodup := (sortBy_perm (fun a b : Nat => decide (a ≤ b)) _).nodup_iff.2
      (nodup_eraseDups ((f.blocks.filter (b ∈ ·.exit.targets)).map Block.id))
    exact ((ascending_sorted _).and hnodup).imp fun h => Nat.lt_of_le_of_ne h.1 h.2
  · rw [mem_ascending]
    exact hf.mem_sources

end

/-- A loop of one block that is entered by both arms of a branch, and from a block that is out of
reach. Its phi has an entry for each of the three. -/
def doubleDoor : Function where
  name := "doubleDoor"
  params := [⟨"c", .int .w1⟩]
  globals := []
  blocks := [⟨0, "entry", [], .branch (.arg 0) 2 2⟩, ⟨1, "dead", [], .jump 2⟩,
    ⟨2, "loop", [.phi 0 (.int .w1) [(0, .arg 0), (1, .arg 0), (2, .inst 0)]], .branch (.inst 0) 2 3⟩,
    ⟨3, "done", [], .ret none⟩]

end Function

namespace FlowGraph

/-- **The two lists of predecessors agree.** On a well-formed function both computations succeed. The
flow graph lists as predecessors of a block those that the function lists, without the blocks that
the entry does not reach; both lists are strictly ascending. A block is among them exactly if it is
reachable and the flow graph has the other block among its successors. -/
theorem ofFunction_predecessors {f : Function} (h : f.check = .ok ()) :
    ∃ g table, ofFunction f = .ok g ∧ f.predecessors = .ok table ∧
      (∀ x, g.isReachable x = true ↔ f.Reachable x) ∧
      ∀ b < f.blocks.length, ∃ sources, table[b]? = some sources ∧
        sources.Pairwise (· < ·) ∧ (∀ x, x ∈ sources ↔ f.Edge x b) ∧
        g.preds b = sources.filter g.isReachable ∧
        ∀ x, x ∈ g.preds b ↔ f.Reachable x ∧ b ∈ g.succs x := by
  have hf := (Function.check_eq_ok_iff.1 h).toNumbered
  obtain ⟨g, hgf, hg⟩ := ofFunction_eq hf
  refine ⟨g, _, hgf, hf.predecessors_eq, fun x => hg.isReachable_iff, fun b hb => ?_⟩
  obtain ⟨sources, hrow, hsorted, hmem⟩ := hf.exists_sources hf.predecessors_eq hb
  refine ⟨sources, hrow, hsorted, hmem, ?_, fun x => ?_⟩
  · refine (hg.ascending_preds b).eq_of_mem_iff (hsorted.filter _) fun x => ?_
    rw [hg.mem_preds hf, List.mem_filter, hmem, hg.isReachable_iff, and_comm]
  · rw [hg.mem_preds hf, hg.mem_succs]

theorem ofFunction_predecessors_doubleDoor :
    Function.check .doubleDoor = .ok () ∧
    ∃ g table, ofFunction .doubleDoor = .ok g ∧ Function.predecessors .doubleDoor = .ok table ∧
      table[2]? = some [0, 1, 2] ∧ g.preds 2 = [0, 2] ∧ ¬ Function.doubleDoor.Reachable 1 := by
  have hcheck : Function.check .doubleDoor = .ok () := by decide +kernel
  obtain ⟨g, table, hgf, htable, -, hrows⟩ := ofFunction_predecessors hcheck
  obtain ⟨sources, hrow, -, -, -, hmem⟩ := hrows 2 (by decide)
  have htable' : Function.predecessors .doubleDoor = .ok [[], [], [0, 1, 2], [2]] := by decide +kernel
  have hgf' : (ofFunction .doubleDoor).map (fun g => (g.preds 2, g.succs 1)) = .ok ([0, 2], [2]) := by
    decide +kernel
  rw [htable', Except.ok.injEq] at htable
  simp only [hgf, Except.map, Except.ok.injEq, Prod.mk.injEq] at hgf'
  refine ⟨hcheck, g, table, hgf, ?_, ?_, hgf'.1, fun hreach => ?_⟩
  · rw [htable', htable]
  · rw [← htable]
    rfl
  · have := (hmem 1).2 ⟨hreach, by rw [hgf'.2]; decide⟩
    rw [hgf'.1] at this
    exact absurd this (by decide)

end FlowGraph

end Dataflow
