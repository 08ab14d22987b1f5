import Dataflow.Proofs.Flow.Graph
import Dataflow.Proofs.Outcome

/-!
# Exact answers of the flow analysis

What the flow graph of a function answers, against what the walks of the function say. Nothing is
asked of the function but that its blocks carry their positions and its branches lead to existing
blocks: cycles may be entered anywhere, the entry may be a branch target, and blocks may be out of
reach.

* `FlowGraph.ofFunction_dominance`: the recorded dominators are the immediate ones
  (`Function.IsImmediate`), and the chains of them give dominance.
* `FlowGraph.ofFunction_irreducible`: some edge is found irreducible exactly if a cycle is left when
  the back edges are taken away. The test looks at one depth-first order; any other would do.
-/

namespace Dataflow

open Relation

namespace Function

/-- `a` dominates `b` and is another block. -/
def StrictlyDominates (f : Function) (a b : BlockId) : Prop := f.Dominates a b ∧ a ≠ b

/-- The strict dominator of `b` that all its strict dominators dominate. -/
structure IsImmediate (f : Function) (c b : BlockId) : Prop where
  strict : f.StrictlyDominates c b
  lowest : ∀ d, f.StrictlyDominates d b → f.Dominates d c

theorem IsImmediate.unique {f : Function} {b c c' : BlockId} (h : f.IsImmediate c b)
    (h' : f.IsImmediate c' b) : c = c' :=
  (h'.lowest c h.strict).antisymm (h.lowest c' h'.strict)

/-- Nothing strictly dominates the entry. -/
theorem IsImmediate.ne_entry {f : Function} {b c : BlockId} (h : f.IsImmediate c b) : b ≠ entry := by
  rintro rfl
  exact h.strict.2 h.strict.1.eq_root

/-- A reachable cycle without a back edge. -/
def HasForwardCycle (f : Function) : Prop :=
  ∃ u, f.Reachable u ∧ TransGen (Flow.IsForward f.Edge entry) u u

theorem not_reducible_iff {f : Function} :
    ¬ Flow.Reducible f.Edge entry ↔ f.HasForwardCycle := by
  simp only [Flow.Reducible, HasForwardCycle, Reachable, not_forall, not_not, exists_prop]

theorem numbered_of_ids {f : Function} (hne : f.blocks ≠ [])
    (hids : f.blocks.map Block.id = List.range f.blocks.length)
    (htargets : ∀ b ∈ f.blocks, ∀ t ∈ b.exit.targets, t < f.blocks.length) : f.Numbered where
  nonempty := hne
  id_eq {i b} hb := by
    have hi : (f.blocks.map Block.id)[i]? = some b.id := by rw [List.getElem?_map, hb]; rfl
    rw [hids, List.getElem?_range (List.getElem?_eq_some_iff.1 hb).1] at hi
    exact (Option.some.inj hi).symm
  target_lt hb := htargets _ (List.mem_of_getElem? hb)

/-- Two blocks that branch to each other, both entered from the entry, to which one of them branches
back; the last block is out of reach. -/
def crossing : Function where
  name := "crossing"
  params := [⟨"c", .int .w1⟩]
  globals := []
  blocks := [⟨0, "entry", [], .branch (.arg 0) 1 2⟩, ⟨1, "left", [], .jump 2⟩,
    ⟨2, "right", [], .branch (.arg 0) 1 0⟩, ⟨3, "dead", [], .jump 1⟩]

end Function

/-- The flow graph of `Function.crossing`. -/
def FlowGraph.crossing : FlowGraph where
  successors := [[1, 2], [2], [1, 0], [1]]
  predecessors := [[2], [0, 2], [0, 1], []]
  order := [0, 1, 2]
  idom := [none, some 0, some 0, none]

namespace FlowGraph

section
variable {g : FlowGraph} {f : Function} (hg : g.Describes f)
include hg

/-! ## Immediate dominators -/

theorem Describes.listed {b c : BlockId} (h : g.idom.get b = some c) :
    f.Reachable b ∧ f.Reachable c := by
  obtain ⟨hb, hc⟩ := hg.tree.listed h
  exact ⟨hg.mem_order.1 (List.mem_of_mem_tail hb), hg.mem_order.1 (hg.order_eq ▸ hc)⟩

theorem Describes.above_iff {a b : BlockId} (hb : f.Reachable b) :
    Flow.Idoms.Above g.idom a b ↔ f.Dominates a b :=
  hg.tree.above_iff (hg.order_eq ▸ hg.mem_order.2 hb)

theorem Describes.idom_eq_none_iff {b : BlockId} :
    g.idom.get b = none ↔ b = Function.entry ∨ ¬ f.Reachable b := by
  constructor
  · intro h
    refine or_iff_not_imp_left.2 fun hne hb => ?_
    have hmem : b ∈ g.order.tail := by
      have := hg.mem_order.2 hb
      rw [hg.order_eq] at this
      exact (List.mem_cons.1 this).resolve_left hne
    have hsome := hg.tree.isSome b hmem
    rw [h] at hsome
    cases hsome
  · rintro (rfl | hb)
    · exact hg.tree.get_entry
    · cases h : g.idom.get b with
      | none => rfl
      | some c => exact absurd (hg.listed h).1 hb

theorem Describes.isImmediate_of_idom {b c : BlockId} (h : g.idom.get b = some c) :
    f.IsImmediate c b := by
  obtain ⟨hb, hc⟩ := hg.listed h
  refine ⟨⟨(hg.above_iff hb).1 (.up h (.refl c)), ?_⟩, fun d hd => ?_⟩
  · rintro rfl
    exact Nat.lt_irrefl _ (hg.tree.order_lt h)
  · exact (hg.above_iff hc).1 (((hg.above_iff hb).2 hd.1).of_ne hd.2 h)

theorem Describes.idom_eq_some_iff {b c : BlockId} :
    g.idom.get b = some c ↔ f.IsImmediate c b := by
  refine ⟨hg.isImmediate_of_idom, fun h => ?_⟩
  cases hb : g.idom.get b with
  | none =>
    rcases hg.idom_eq_none_iff.1 hb with hentry | hunreachable
    · exact absurd hentry h.ne_entry
    · exact absurd h.strict.1.reaches hunreachable
  | some c' => rw [(hg.isImmediate_of_idom hb).unique h]

/-! ## Irreducible edges -/

theorem Describes.testIrreducible_eq (hf : f.Numbered) {u v : BlockId} (hu : f.Reachable u)
    (hv : f.Reachable v) : g.testIrreducible u v = .ok (g.isIrreducible u v) := by
  have hlt : u < g.count ∧ v < g.count := by
    rw [hg.count_eq]
    exact ⟨hf.reachable_lt hu, hf.reachable_lt hv⟩
  rw [testIrreducible, if_pos hlt]

end

/-! ## The analysis of a function -/

theorem ofFunction_eq_ok {f : Function} {g : FlowGraph} (h : ofFunction f = .ok g) :
    f.blocks ≠ [] ∧ g.order = reversePostorder (successorsOf f) ∧
      Flow.dominators g.count g.order g.preds = .ok g.idom := by
  obtain ⟨hne, hs, ho, -, hidom⟩ := fields_of_ofFunction h
  have hcount : g.count = f.blocks.length := by rw [count, hs, successorsOf, List.length_map]
  exact ⟨hne, ho, hcount ▸ hidom⟩

section
variable {f : Function} (hids : f.blocks.map Block.id = List.range f.blocks.length)
variable (htargets : ∀ b ∈ f.blocks, ∀ t ∈ b.exit.targets, t < f.blocks.length)
include hids htargets

/-- The analysis only needs a block to start from. -/
theorem exists_ofFunction (hne : f.blocks ≠ []) : ∃ g, ofFunction f = .ok g := by
  obtain ⟨g, hgf, -⟩ := ofFunction_eq (Function.numbered_of_ids hne hids htargets)
  exact ⟨g, hgf⟩

theorem describes_of_ofFunction {g : FlowGraph} (h : ofFunction f = .ok g) :
    f.Numbered ∧ g.Describes f := by
  have hf := Function.numbered_of_ids (fields_of_ofFunction h).1 hids htargets
  exact ⟨hf, describes_of_eq_ok hf h⟩

end

/-- **Dominators are correct.** Dominance is what all walks from the entry say, and the record of a
block is its immediate dominator, which only the entry and unreachable blocks lack. -/
theorem ofFunction_dominance {f : Function}
    (hids : f.blocks.map Block.id = List.range f.blocks.length)
    (htargets : ∀ b ∈ f.blocks, ∀ t ∈ b.exit.targets, t < f.blocks.length) :
    (f.blocks ≠ [] → ∃ g, ofFunction f = .ok g) ∧
    ∀ g, ofFunction f = .ok g → ∀ a b,
      (g.dominates a b = true ↔ f.Dominates a b) ∧
      (g.idom.get b = none ↔ b = Function.entry ∨ ¬ f.Reachable b) ∧
      ∀ c, g.idom.get b = some c ↔ f.IsImmediate c b := by
  refine ⟨exists_ofFunction hids htargets, fun g hgf a b => ?_⟩
  obtain ⟨hf, hg⟩ := describes_of_ofFunction hids htargets hgf
  exact ⟨hg.dominates_iff hf, hg.idom_eq_none_iff, fun _ => hg.idom_eq_some_iff⟩

theorem ofFunction_dominance_crossing :
    ofFunction .crossing = .ok .crossing ∧
    (crossing.dominates 1 2 = false ∧ ¬ Function.crossing.Dominates 1 2) ∧
    (crossing.idom.get 3 = none ∧ ¬ Function.crossing.Reachable 3) ∧
    crossing.idom.get 2 = some 0 ∧ Function.crossing.IsImmediate 0 2 := by
  have hgf : ofFunction .crossing = .ok .crossing := by decide +kernel
  have h := (ofFunction_dominance (by decide) (by decide)).2 _ hgf
  refine ⟨hgf, ⟨by decide, fun hd => ?_⟩, ⟨by decide, ?_⟩, by decide, ((h 0 2).2.2 0).1 (by decide)⟩
  · exact absurd ((h 1 2).1.2 hd) (by decide)
  · exact ((h 0 3).2.1.1 (by decide)).resolve_left (by decide)

/-- **The test for irreducible edges is exact.** It finds one exactly if a cycle is left in the
reachable part when the back edges are taken away. So would the same test in any other depth-first
order of the blocks. -/
theorem ofFunction_irreducible {f : Function}
    (hids : f.blocks.map Block.id = List.range f.blocks.length)
    (htargets : ∀ b ∈ f.blocks, ∀ t ∈ b.exit.targets, t < f.blocks.length) :
    (f.blocks ≠ [] → ∃ g, ofFunction f = .ok g) ∧
    (∀ g, ofFunction f = .ok g →
      ((∃ u v, f.Reachable u ∧ f.Reachable v ∧ f.Edge u v ∧ g.testIrreducible u v = .ok true) ↔
        f.HasForwardCycle)) ∧
    ∀ next order, (∀ u v, v ∈ next u ↔ f.Edge u v) →
      Flow.DepthFirst next Function.entry order →
      ((∃ u v, f.Reachable u ∧ f.Edge u v ∧ order.idxOf v ≤ order.idxOf u ∧ ¬ f.Dominates v u) ↔
        f.HasForwardCycle) := by
  refine ⟨exists_ofFunction hids htargets, fun g hgf => ?_, fun next order hnext ho => ?_⟩
  · obtain ⟨hf, hg⟩ := describes_of_ofFunction hids htargets hgf
    rw [← Function.not_reducible_iff, ← hg.reducible_iff hf]
    simp only [not_forall, Bool.not_eq_false]
    constructor
    · rintro ⟨u, v, hu, hv, he, htest⟩
      rw [hg.testIrreducible_eq hf hu hv] at htest
      exact ⟨u, v, he, Except.ok.inj htest⟩
    · rintro ⟨u, v, he, hi⟩
      obtain ⟨hu, hv, -⟩ := (hg.isIrreducible_iff hf).1 hi
      exact ⟨u, v, hu, hv, he, by rw [hg.testIrreducible_eq hf hu hv, hi]⟩
  · rw [← Function.not_reducible_iff, ← ho.reducible_iff hnext]
    simp only [not_forall, exists_prop]
    rfl

theorem ofFunction_irreducible_crossing :
    ofFunction .crossing = .ok .crossing ∧
    crossing.testIrreducible 2 1 = .ok true ∧ Function.crossing.HasForwardCycle := by
  have hgf : ofFunction .crossing = .ok .crossing := by decide +kernel
  have htest : crossing.testIrreducible 2 1 = .ok true := by decide
  have h := (ofFunction_irreducible (by decide) (by decide)).2.1 _ hgf
  have hleft : Function.crossing.Reachable 1 := .single ⟨_, rfl, by decide⟩
  have hright : Function.crossing.Reachable 2 := .single ⟨_, rfl, by decide⟩
  exact ⟨hgf, htest, h.1 ⟨2, 1, hright, hleft, ⟨_, rfl, by decide⟩, htest⟩⟩

end FlowGraph

end Dataflow
