import Dataflow.Proofs.Flow.Exact
import Dataflow.Proofs.Flow.Nesting

/-!
# The natural loops of a function

`Function.IsLoop` says what a natural loop is by the walks of the function, and `Function.IsLoopNest`
what a list of all of them is. The flow graph lists such a nest for every function whose blocks carry
their positions and whose branches lead to existing blocks (`FlowGraph.ofFunction_loops`). Cycles that
are entered at several blocks are no natural loops, and do no harm to those that are.
-/

namespace Dataflow

open Relation

namespace Function

/-- A natural loop and its record: the latches and the body are listed in ascending order, the body is
the header and what gets to a latch around it, and asking for a block of the loop is answered by the
body. -/
structure IsLoop (f : Function) (l : NaturalLoop) : Prop where
  ascending_latches : l.latches.Pairwise (· < ·)
  mem_latches : ∀ u, u ∈ l.latches ↔ f.Reachable u ∧ f.Edge u l.header ∧ f.Dominates l.header u
  ascending_body : l.body.Pairwise (· < ·)
  mem_body : ∀ b, b ∈ l.body ↔ b = l.header ∨ f.Reachable b ∧
    ∃ u ∈ l.latches, ∃ vs, Flow.Walk f.Edge b u vs ∧ l.header ∉ vs
  dominates : ∀ b ∈ l.body, f.Dominates l.header b
  contains_iff : ∀ b, l.contains b = true ↔ b ∈ l.body

/-- All natural loops, each one once. They nest, and outer loops come before the loops in them. -/
structure IsLoopNest (f : Function) (ls : List NaturalLoop) : Prop where
  isLoop : ∀ l ∈ ls, f.IsLoop l
  heads_once : (ls.map NaturalLoop.header).Nodup
  heads_iff : ∀ h, h ∈ ls.map NaturalLoop.header ↔
    ∃ u, f.Reachable u ∧ f.Edge u h ∧ f.Dominates h u
  nested : ls.Pairwise fun l l' => l.body.Disjoint l'.body ∨ l.Encloses l' ∨ l'.Encloses l
  outer_first : ∀ {i j : Nat} {l l' : NaturalLoop}, ls[i]? = some l →
    ls[j]? = some l' → l.Encloses l' → i < j

/-- A loop in a loop, of which both lead into a cycle with two entries; the last block is out of reach
and branches to the inner header. -/
def tangle : Function where
  name := "tangle"
  params := [⟨"c", .int .w1⟩]
  globals := []
  blocks := [⟨0, "entry", [], .jump 1⟩, ⟨1, "outer", [], .branch (.arg 0) 2 5⟩,
    ⟨2, "inner", [], .branch (.arg 0) 3 4⟩, ⟨3, "again", [], .jump 2⟩,
    ⟨4, "next", [], .branch (.arg 0) 1 6⟩, ⟨5, "left", [], .jump 6⟩, ⟨6, "right", [], .jump 5⟩,
    ⟨7, "dead", [], .jump 2⟩]

end Function

namespace FlowGraph

/-- The headers are the reached blocks with a latch, in some order. -/
theorem perm_headers (g : FlowGraph) : (g.loops.map NaturalLoop.header).Perm
    (g.order.filter fun b => !(g.latches b).isEmpty) := by
  have hperm := (sortBy_perm NaturalLoop.before
    ((g.order.filter fun b => !(g.latches b).isEmpty).map g.loopAt)).map NaturalLoop.header
  rwa [List.map_map, List.map_id''] at hperm
  exact fun _ => rfl

section
variable {g : FlowGraph} {f : Function} (hf : f.Numbered) (hg : g.Describes f)
include hg

theorem Describes.nodup_headers : (g.loops.map NaturalLoop.header).Nodup :=
  g.perm_headers.nodup_iff.2 (hg.depthFirst.nodup.filter _)

include hf

theorem Describes.mem_headers {h : BlockId} : h ∈ g.loops.map NaturalLoop.header ↔
    ∃ u, f.Reachable u ∧ f.Edge u h ∧ f.Dominates h u := by
  rw [g.perm_headers.mem_iff, List.mem_filter, hg.mem_order]
  constructor
  · rintro ⟨-, hlatches⟩
    obtain ⟨u, hu⟩ := List.exists_mem_of_ne_nil _ (by simpa using hlatches)
    obtain ⟨he, hd⟩ := (hg.mem_latches hf).1 hu
    exact ⟨u, hd.reaches, he, hd⟩
  · rintro ⟨u, -, he, hd⟩
    refine ⟨hd.reaches_left, ?_⟩
    have hne := List.ne_nil_of_mem ((hg.mem_latches hf).2 ⟨he, hd⟩)
    simpa using hne

theorem Describes.isLoop {l : NaturalLoop} (hl : l ∈ g.loops) : f.IsLoop l := by
  have hcontains := fun b => contains_iff hl (b := b)
  obtain ⟨h, hh, -, rfl⟩ := mem_loops.1 hl
  rw [hg.mem_order] at hh
  have hlatches : ∀ u, u ∈ (g.loopAt h).latches ↔ f.Edge u h ∧ f.Dominates h u :=
    fun u => hg.mem_latches hf
  refine ⟨(hg.ascending_preds h).filter _, fun u => ?_, List.pairwise_lt_range.filter _,
    fun b => (hg.mem_loopBody hf hh).trans ?_, fun b => hg.dominates_of_mem_loopBody hf hh, hcontains⟩
  · exact (hlatches u).trans ⟨fun h => ⟨h.2.reaches, h⟩, And.right⟩
  · by_cases hbh : b = h
    · exact iff_of_true (.inl hbh) (.inl hbh)
    refine or_congr_right (and_congr_right fun _ => exists_congr fun u => ?_)
    refine and_congr (hlatches u).symm ⟨fun hway => ?_, ?_⟩
    · exact Flow.exists_walk_avoiding hway hbh
    · rintro ⟨vs, hwalk, havoid⟩
      exact hwalk.skip havoid

theorem Describes.isLoopNest : f.IsLoopNest g.loops where
  isLoop l := hg.isLoop hf
  heads_once := hg.nodup_headers
  heads_iff h := hg.mem_headers hf
  nested := by
    have hne : g.loops.Pairwise fun l l' => l.header ≠ l'.header := List.pairwise_map.1 hg.nodup_headers
    refine hne.imp_of_mem fun hl hl' hne => ?_
    obtain ⟨h, hh, -, rfl⟩ := mem_loops.1 hl
    obtain ⟨h', hh', -, rfl⟩ := mem_loops.1 hl'
    exact hg.nested hf (hg.mem_order.1 hh) (hg.mem_order.1 hh') hne
  outer_first {i j l l'} hi hj hencloses := by
    -- the inner loop is smaller, and smaller loops do not come first
    have hnd := (hg.isLoop hf (List.mem_of_getElem? hj)).ascending_body.imp Nat.ne_of_lt
    have hlt := hencloses.length_lt hnd
    obtain ⟨hi', rfl⟩ := List.getElem?_eq_some_iff.1 hi
    obtain ⟨hj', rfl⟩ := List.getElem?_eq_some_iff.1 hj
    rcases Nat.lt_trichotomy i j with hij | rfl | hji
    · exact hij
    · exact absurd hlt (Nat.lt_irrefl _)
    · exact absurd (List.pairwise_iff_getElem.1 g.pairwise_loops j i hj' hi' hji) (Nat.not_le.2 hlt)

end

/-- **Natural loops are found exactly.** The analysis lists all natural loops of the function and
nothing else, whether the function is reducible or not. -/
theorem ofFunction_loops {f : Function}
    (hids : f.blocks.map Block.id = List.range f.blocks.length)
    (htargets : ∀ b ∈ f.blocks, ∀ t ∈ b.exit.targets, t < f.blocks.length) :
    (f.blocks ≠ [] → ∃ g, ofFunction f = .ok g) ∧
    ∀ g, ofFunction f = .ok g → f.IsLoopNest g.loops := by
  refine ⟨exists_ofFunction hids htargets, fun g hgf => ?_⟩
  obtain ⟨hf, hg⟩ := describes_of_ofFunction hids htargets hgf
  exact hg.isLoopNest hf

theorem ofFunction_loops_tangle :
    ∃ g, ofFunction .tangle = .ok g ∧
      g.loops = [⟨1, [4], [1, 2, 3, 4]⟩, ⟨2, [3], [2, 3]⟩] ∧ Function.tangle.IsLoopNest g.loops := by
  have h := ofFunction_loops (f := .tangle) (by decide) (by decide)
  obtain ⟨g, hgf⟩ := h.1 (by decide)
  have hloops : (ofFunction .tangle).map loops =
      .ok [⟨1, [4], [1, 2, 3, 4]⟩, ⟨2, [3], [2, 3]⟩] := by decide +kernel
  rw [hgf] at hloops
  exact ⟨g, hgf, Except.ok.inj hloops, h.2 g hgf⟩

end FlowGraph

end Dataflow
