import Dataflow.Proofs.Flow.Exact
import Dataflow.Proofs.Flow.Loop

/-!
# Ways forward

What `FlowGraph.forwardReaches` answers, against the walks of the function without back edges. As in
`Dataflow.Proofs.Flow.Exact`, blocks carry their positions and branches lead to existing blocks, and
nothing else is asked of the function.

`FlowGraph.ofFunction_forward`: the search finds a way exactly if there is one. If no edge is
irreducible, the ways forward order the reachable blocks, and the reverse postorder agrees with them.
Blocks out of reach are not ordered: nothing dominates them, so a cycle of them is a way forward from
each of them to itself.
-/

namespace Dataflow

open Relation

namespace Function

/-- There is a way from `a` to `b`, of one edge at least, and none of its edges is a back edge. -/
def LeadsForward (f : Function) (a b : BlockId) : Prop :=
  TransGen (fun u v => f.Edge u v ∧ ¬ f.Dominates v u) a b

/-- On the reachable blocks the relation is a strict order, and positions in the list grow along
it. -/
structure OrdersReachable (f : Function) (before : BlockId → BlockId → Prop)
    (order : List BlockId) : Prop where
  irrefl : ∀ a, f.Reachable a → ¬ before a a
  trans : ∀ a b c, f.Reachable a → f.Reachable b → f.Reachable c → before a b → before b c →
    before a c
  idxOf_lt : ∀ a b, f.Reachable a → f.Reachable b → before a b → order.idxOf a < order.idxOf b

/-- A loop whose body is a loop of one block; the last block is out of reach and branches to
itself. -/
def ticking : Function where
  name := "ticking"
  params := [⟨"c", .int .w1⟩]
  globals := []
  blocks := [⟨0, "entry", [], .jump 1⟩, ⟨1, "head", [], .branch (.arg 0) 2 3⟩,
    ⟨2, "body", [], .branch (.arg 0) 2 1⟩, ⟨3, "done", [], .ret none⟩, ⟨4, "dead", [], .jump 4⟩]

end Function

/-- The flow graph of `Function.ticking`. -/
def FlowGraph.ticking : FlowGraph where
  successors := [[1], [2, 3], [2, 1], [], [4]]
  predecessors := [[], [0, 2], [1, 2], [1], []]
  order := [0, 1, 3, 2]
  idom := [none, some 0, some 1, some 1, none]

namespace FlowGraph

section
variable {g : FlowGraph} {f : Function} (hf : f.Numbered) (hg : g.Describes f)
include hf hg

theorem Describes.forwardReaches_eq_true {a b : BlockId} :
    g.forwardReaches a b = .ok true ↔ f.LeadsForward a b := by
  obtain ⟨found, hfound, hiff⟩ := hg.forwardReaches_eq hf a b
  rw [hfound, Except.ok.injEq, hiff]
  rfl

theorem Describes.testIrreducible_of_edge {u v : BlockId} (he : f.Edge u v) :
    g.testIrreducible u v = .ok (g.isIrreducible u v) := by
  have hlt := hf.edge_lt he
  rw [← hg.count_eq] at hlt
  exact if_pos hlt

/-- Without irreducible edges every edge that is not a back edge goes forward in the order. -/
theorem Describes.ordersReachable (hirr : ∀ u v, f.Edge u v → g.isIrreducible u v = false) :
    f.OrdersReachable f.LeadsForward g.order where
  irrefl _ ha hway := Nat.lt_irrefl _ (hg.idxOf_lt_of_transGen hf hirr ha hway).2
  trans _ _ _ _ _ _ := TransGen.trans
  idxOf_lt _ _ ha _ hway := (hg.idxOf_lt_of_transGen hf hirr ha hway).2

end

/-- **Forward reachability is exact.** The search finds a way without back edges exactly if there is
one. If no edge is irreducible, this orders the reachable blocks, in agreement with the reverse
postorder. -/
theorem ofFunction_forward {f : Function}
    (hids : f.blocks.map Block.id = List.range f.blocks.length)
    (htargets : ∀ b ∈ f.blocks, ∀ t ∈ b.exit.targets, t < f.blocks.length) :
    (f.blocks ≠ [] → ∃ g, ofFunction f = .ok g) ∧
    ∀ g, ofFunction f = .ok g →
      (∀ a b, a < f.blocks.length → b < f.blocks.length → ∃ found,
        g.forwardReaches a b = .ok found ∧ (found = true ↔ f.LeadsForward a b)) ∧
      ((∀ u v, f.Edge u v → g.testIrreducible u v = .ok false) →
        f.OrdersReachable (fun a b => g.forwardReaches a b = .ok true) g.order) := by
  refine ⟨exists_ofFunction hids htargets, fun g hgf => ?_⟩
  obtain ⟨hf, hg⟩ := describes_of_ofFunction hids htargets hgf
  refine ⟨fun a b _ _ => hg.forwardReaches_eq hf a b, fun htest => ?_⟩
  have hirr : ∀ u v, f.Edge u v → g.isIrreducible u v = false := fun u v he =>
    Except.ok.inj ((hg.testIrreducible_of_edge hf he).symm.trans (htest u v he))
  have hways : (fun a b => g.forwardReaches a b = .ok true) = f.LeadsForward := by
    funext a b
    exact propext (hg.forwardReaches_eq_true hf)
  rw [hways]
  exact hg.ordersReachable hf hirr

theorem ofFunction_forward_ticking :
    ofFunction .ticking = .ok .ticking ∧
    (ticking.forwardReaches 4 4 = .ok true ∧ Function.ticking.LeadsForward 4 4) ∧
    (ticking.forwardReaches 2 1 = .ok false ∧ ¬ Function.ticking.LeadsForward 2 1) ∧
    Function.ticking.OrdersReachable (fun a b => ticking.forwardReaches a b = .ok true)
      ticking.order := by
  have hgf : ofFunction .ticking = .ok .ticking := by decide +kernel
  obtain ⟨hexact, horder⟩ := (ofFunction_forward (by decide) (by decide)).2 _ hgf
  have hdead : ticking.forwardReaches 4 4 = .ok true := by decide +kernel
  have hback : ticking.forwardReaches 2 1 = .ok false := by decide +kernel
  refine ⟨hgf, ⟨hdead, ?_⟩, ⟨hback, fun hway => ?_⟩, horder fun u v he => ?_⟩
  · obtain ⟨found, hfound, hiff⟩ := hexact 4 4 (by decide) (by decide)
    rw [hdead, Except.ok.injEq] at hfound
    exact hiff.1 hfound.symm
  · obtain ⟨found, hfound, hiff⟩ := hexact 2 1 (by decide) (by decide)
    rw [hback, hiff.2 hway] at hfound
    cases hfound
  · obtain ⟨b, hb, hv⟩ := he
    have htest : ∀ b ∈ Function.ticking.blocks, ∀ t ∈ b.exit.targets,
        ticking.testIrreducible b.id t = .ok false := by decide
    have hid : b.id = u :=
      (Function.numbered_of_ids (f := .ticking) (by decide) (by decide) (by decide)).id_eq hb
    exact hid ▸ htest b (List.mem_of_getElem? hb) v hv

end FlowGraph

end Dataflow
