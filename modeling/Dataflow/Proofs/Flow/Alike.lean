import Dataflow.Proofs.Flow.Loop
import Dataflow.Proofs.Outcome

/-!
# Control flow graphs that agree where control can get to

What a block branches to matters to the analysis of control flow only if the entry reaches the block.
`FlowGraph.Alike`: two flow graphs agree on everything but the successors of other blocks, so they have
the same loops (`Alike.loops_eq`) and the same ways forward (`Alike.forwardReaches_eq`).
`alike_of_exits`: the flow graphs of two functions are alike if the blocks that control can get to have
the same exits.
-/

namespace Dataflow

namespace Flow

/-- Depth-first search asks for the edges of what it finds, and of nothing else. -/
theorem postorder_congr {next next' : Nat → List Nat} {live : Nat → Prop}
    (heq : ∀ v, live v → next v = next' v) (hlive : ∀ v, live v → ∀ t ∈ next v, live t)
    (unfound : List Nat) (stack : List (Nat × List Nat)) (done : List Nat)
    (hstack : ∀ x ∈ stack, ∀ t ∈ x.2, live t) :
    postorder next unfound stack done = postorder next' unfound stack done := by
  fun_induction postorder next unfound stack done with
  | case1 unfound done => rw [postorder]
  | case2 unfound done v rest ih =>
    rw [ih fun x hx => hstack x (List.mem_cons_of_mem _ hx), postorder]
  | case3 unfound done v t ts rest ht ih =>
    have hvt : live t := hstack _ List.mem_cons_self t List.mem_cons_self
    rw [postorder, if_pos ht, ih, ← heq t hvt]
    intro x hx
    rcases List.mem_cons.1 hx with rfl | hx
    · exact hlive t hvt
    rcases List.mem_cons.1 hx with rfl | hx
    · exact fun u hu => hstack _ List.mem_cons_self u (List.mem_cons_of_mem _ hu)
    · exact hstack x (List.mem_cons_of_mem _ hx)
  | case4 unfound done v t ts rest ht ih =>
    rw [postorder, if_neg ht, ih]
    intro x hx
    rcases List.mem_cons.1 hx with rfl | hx
    · exact fun u hu => hstack _ List.mem_cons_self u (List.mem_cons_of_mem _ hu)
    · exact hstack x (List.mem_cons_of_mem _ hx)

end Flow

namespace FlowGraph

/-- Two flow graphs agree on everything but the successors of blocks that the entry does not reach. -/
structure Alike (g g' : FlowGraph) : Prop where
  count_eq : g.count = g'.count
  predecessors_eq : g.predecessors = g'.predecessors
  order_eq : g.order = g'.order
  idom_eq : g.idom = g'.idom
  succs_eq : ∀ b ∈ g.order, g.succs b = g'.succs b

section
variable {g g' : FlowGraph} (hg : g.Alike g')
include hg

theorem Alike.preds_eq : g.preds = g'.preds := by
  funext b
  rw [preds, preds, hg.predecessors_eq]

theorem Alike.isReachable_eq : g.isReachable = g'.isReachable := by
  funext b
  rw [isReachable, isReachable, hg.order_eq]

theorem Alike.dominates_eq : g.dominates = g'.dominates := by
  have hancestors : ∀ fuel b, g.ancestors fuel b = g'.ancestors fuel b := by
    intro fuel
    induction fuel with
    | zero => exact fun b => rfl
    | succ fuel ih =>
      intro b
      rw [ancestors, ancestors, hg.idom_eq]
      cases g'.idom.get b with
      | none => rfl
      | some c => exact congrArg (b :: ·) (ih c)
  funext a b
  rw [dominates, dominates, hg.isReachable_eq, hancestors, hg.count_eq]

theorem Alike.isBackEdge_eq : g.isBackEdge = g'.isBackEdge := by
  funext u v
  rw [isBackEdge, isBackEdge, hg.dominates_eq]

theorem Alike.isIrreducible_eq : g.isIrreducible = g'.isIrreducible := by
  funext u v
  rw [isIrreducible, isIrreducible, hg.isReachable_eq, hg.order_eq, hg.dominates_eq]

theorem Alike.testIrreducible_eq : g.testIrreducible = g'.testIrreducible := by
  funext u v
  rw [testIrreducible, testIrreducible, hg.count_eq, hg.isIrreducible_eq]

/-! ## Loops -/

theorem Alike.loops_eq : g.loops = g'.loops := by
  have hlatches : g.latches = g'.latches := by
    funext h
    rw [latches, latches, hg.preds_eq, hg.isBackEdge_eq]
  have hloopAt : g.loopAt = g'.loopAt := by
    funext h
    simp only [loopAt, loopBody, hlatches, hg.preds_eq, hg.count_eq]
  rw [loops, loops, hlatches, hloopAt, hg.order_eq]

theorem Alike.entries_eq : g.entries = g'.entries := by
  funext l
  rw [entries, entries, hg.preds_eq]

/-! ## Ways forward -/

/-- A search for a way forward asks for the edges of what it finds. -/
theorem Alike.searchForward_eq (hclosed : ∀ b ∈ g.order, ∀ t ∈ g.succs b, t ∈ g.order)
    (target : BlockId) (unfound stack : List BlockId) (pending : List (BlockId × BlockId))
    (hstack : ∀ b ∈ stack, b ∈ g.order) (hpending : ∀ e ∈ pending, e.2 ∈ g.order) :
    g.searchForward target unfound stack pending = g'.searchForward target unfound stack pending := by
  fun_induction searchForward g target unfound stack pending with
  | case1 unfound => rw [searchForward]
  | case2 unfound b stack ih =>
    obtain ⟨hb, hstack⟩ := List.forall_mem_cons.1 hstack
    have hedges : g.edgesFrom b = g'.edgesFrom b := by rw [edgesFrom, edgesFrom, hg.succs_eq b hb]
    rw [searchForward, ← hedges, ih hstack]
    intro e he
    obtain ⟨t, ht, rfl⟩ := List.mem_map.1 he
    exact hclosed b hb t ht
  | case3 unfound b t pending stack hlt => rw [searchForward, if_pos (hg.count_eq ▸ hlt)]
  | case4 unfound b pending stack hlt h =>
    rw [searchForward, if_neg (hg.count_eq ▸ hlt), if_pos (hg.isBackEdge_eq ▸ h), if_pos rfl]
  | case5 unfound b t pending stack hlt h htt ih =>
    obtain ⟨ht, hpending⟩ := List.forall_mem_cons.1 hpending
    rw [searchForward, if_neg (hg.count_eq ▸ hlt), if_pos (hg.isBackEdge_eq ▸ h), if_neg htt]
    exact ih (List.forall_mem_cons.2 ⟨ht, hstack⟩) hpending
  | case6 unfound b t pending stack hlt h ih =>
    rw [searchForward, if_neg (hg.count_eq ▸ hlt), if_neg (hg.isBackEdge_eq ▸ h)]
    exact ih hstack (List.forall_mem_cons.1 hpending).2

theorem Alike.forwardReaches_eq (hclosed : ∀ b ∈ g.order, ∀ t ∈ g.succs b, t ∈ g.order)
    {a : BlockId} (ha : a ∈ g.order) (b : BlockId) :
    g.forwardReaches a b = g'.forwardReaches a b := by
  rw [forwardReaches, forwardReaches, ← hg.count_eq]
  exact hg.searchForward_eq hclosed b _ [a] [] (by simpa using ha) (by simp)

end

theorem Alike.refl (g : FlowGraph) : g.Alike g := ⟨rfl, rfl, rfl, rfl, fun _ _ => rfl⟩

/-! ## Flow graphs of functions -/

/-- Where control can get to is what the search finds. -/
theorem mem_reversePostorder {f : Function} (hf : f.Numbered) {b : BlockId} :
    b ∈ reversePostorder (successorsOf f) ↔ f.Reachable b := by
  obtain ⟨g, hgf, hg⟩ := ofFunction_eq hf
  rw [← (fields_of_ofFunction hgf).2.2.1, hg.mem_order]

theorem alike_of_exits {f f' : Function} {g g' : FlowGraph} (hf : f.Numbered) (hf' : f'.Numbered)
    (hgf : ofFunction f = .ok g) (hgf' : ofFunction f' = .ok g') (hg : g.Describes f)
    (hlength : f.blocks.length = f'.blocks.length)
    (hexit : ∀ b, f.Reachable b → f.blocks[b]?.map Block.exit = f'.blocks[b]?.map Block.exit) :
    g.Alike g' := by
  obtain ⟨-, hs, ho, hp, hd⟩ := fields_of_ofFunction hgf
  obtain ⟨-, hs', ho', hp', hd'⟩ := fields_of_ofFunction hgf'
  have hrow : ∀ b, f.Reachable b → row (successorsOf f) b = row (successorsOf f') b := by
    intro b hb
    have hexits : ∀ h : Function, row (successorsOf h) b =
        ((h.blocks[b]?.map Block.exit).map fun e => e.targets.eraseDups).getD [] := fun h => by
      rw [successorsOf, row_map, Option.map_map]
      rfl
    rw [hexits, hexits, hexit b hb]
  -- no search gets to a block whose exits may differ
  have hclosed : ∀ b, f.Reachable b → ∀ t ∈ row (successorsOf f) b, f.Reachable t := fun b hb t ht =>
    hb.tail (mem_row_successorsOf.1 ht)
  have hcount : (successorsOf f).length = (successorsOf f').length := by
    rw [successorsOf, successorsOf, List.length_map, List.length_map, hlength]
  have horder : g.order = g'.order := by
    rw [ho, ho', reversePostorder, reversePostorder, ← hcount, ← hrow _ .refl]
    refine Flow.postorder_congr hrow hclosed _ _ _ fun x hx => ?_
    obtain rfl := List.mem_singleton.1 hx
    exact hclosed _ .refl
  have hpreds : g.predecessors = g'.predecessors := by
    have hrows : ∀ {h : Function}, h.Numbered → ∀ order, collectPredecessors h (successorsOf h) order =
        (List.range h.blocks.length).map fun v =>
          (List.range h.blocks.length).filter fun u => u ∈ order ∧ v ∈ row (successorsOf h) u := by
      intro h hh order
      rw [collectPredecessors_eq]
      refine List.map_congr_left fun v _ => ?_
      rw [← hh.ids, List.filter_map]
      rfl
    rw [hp, hp', ← horder, hrows hf, hrows hf', ← hlength]
    refine List.map_congr_left fun v _ => List.filter_congr fun u _ => ?_
    refine decide_eq_decide.2 (and_congr_right fun hu => ?_)
    rw [hrow u (hg.mem_order.1 hu)]
  refine ⟨?_, hpreds, horder, ?_, fun b hb => ?_⟩
  · rw [count, count, hs, hs', hcount]
  · rw [← horder, ← hpreds, ← hlength, hd] at hd'
    exact Except.ok.inj hd'
  · rw [succs, succs, hs, hs', hrow b (hg.mem_order.1 hb)]

end FlowGraph

end Dataflow
