import Dataflow.Flow.Loop
import Dataflow.Proofs.Flow.Graph

/-!
# Forward reachability and natural loops

`Describes.forwardReaches_eq`: the search for a way without back edges finds one exactly if there is
one.

For loops, `Describes.dominates_of_mem_loopBody`: a header dominates its loop. A predecessor of a
header is therefore in the loop exactly if the edge from it is a back edge, so the entries of a loop
are the other predecessors of its header (`Describes.entries_loopAt`).
-/

namespace Dataflow.FlowGraph

open Relation

/-! ## Forward reachability -/

/-- The successors of a block along edges that are not back edges. -/
def forwards (g : FlowGraph) (b : BlockId) : List BlockId :=
  (g.succs b).filter fun t => !g.isBackEdge b t

theorem mem_forwards {g : FlowGraph} {b t : BlockId} :
    t ∈ g.forwards b ↔ t ∈ g.succs b ∧ ¬ g.isBackEdge b t = true := by
  simp [forwards]

/-- An edge that is pending, or that leaves a block on the stack, starts a way to the target through
unfound blocks. -/
def CanFind (g : FlowGraph) (target : BlockId) (unfound stack : List BlockId)
    (pending : List (BlockId × BlockId)) : Prop :=
  ∃ b t, ((b, t) ∈ pending ∨ b ∈ stack ∧ t ∈ g.succs b) ∧ ¬ g.isBackEdge b t = true ∧
    t ∈ unfound ∧ ReflTransGen (Flow.StepIn g.forwards unfound) t target

section
variable {g : FlowGraph} {target b t : BlockId} {unfound stack : List BlockId}
  {pending : List (BlockId × BlockId)}

/-- The edges of a block that is taken from the stack are pending. -/
theorem canFind_pop :
    g.CanFind target unfound stack (g.edgesFrom b) ↔ g.CanFind target unfound (b :: stack) [] := by
  constructor
  · rintro ⟨c, t, h, hrest⟩
    refine ⟨c, t, .inr ?_, hrest⟩
    rcases h with h | h
    · simp only [edgesFrom, List.mem_map, Prod.mk.injEq] at h
      obtain ⟨t', ht', rfl, rfl⟩ := h
      exact ⟨List.mem_cons_self, ht'⟩
    · exact ⟨List.mem_cons_of_mem _ h.1, h.2⟩
  · rintro ⟨c, t, h, hrest⟩
    refine ⟨c, t, ?_, hrest⟩
    obtain ⟨hc, ht⟩ := h.resolve_left List.not_mem_nil
    rcases List.mem_cons.1 hc with rfl | hc
    · exact .inl (by simpa [edgesFrom] using ht)
    · exact .inr ⟨hc, ht⟩

/-- A back edge, or an edge to a block that was found, starts no way. -/
theorem canFind_skip (h : ¬ (t ∈ unfound ∧ ¬ g.isBackEdge b t = true)) :
    g.CanFind target unfound stack pending ↔ g.CanFind target unfound stack ((b, t) :: pending) := by
  constructor
  · rintro ⟨c, x, hcx, hrest⟩
    exact ⟨c, x, hcx.imp_left (List.mem_cons_of_mem _), hrest⟩
  · rintro ⟨c, x, hcx, hb, hx, hway⟩
    refine ⟨c, x, hcx.imp_left fun hcx => ?_, hb, hx, hway⟩
    refine (List.mem_cons.1 hcx).resolve_left fun he => ?_
    obtain ⟨rfl, rfl⟩ := Prod.mk.inj he
    exact h ⟨hx, hb⟩

/-- A way that starts at `t`, or leads through it, goes on from the stack once `t` is found. -/
theorem canFind_push (ht : t ∈ unfound) (hb : ¬ g.isBackEdge b t = true) (hne : t ≠ target) :
    g.CanFind target (unfound.erase t) (t :: stack) pending ↔
      g.CanFind target unfound stack ((b, t) :: pending) := by
  constructor
  · rintro ⟨c, x, hcx, hb', hx, hway⟩
    have hxu := List.mem_of_mem_erase hx
    replace hway := Flow.StepIn.of_erase hway
    rcases hcx with hcx | ⟨hc, hcx⟩
    · exact ⟨c, x, .inl (List.mem_cons_of_mem _ hcx), hb', hxu, hway⟩
    · rcases List.mem_cons.1 hc with rfl | hc
      · exact ⟨b, c, .inl List.mem_cons_self, hb, ht, .head ⟨mem_forwards.2 ⟨hcx, hb'⟩, hxu⟩ hway⟩
      · exact ⟨c, x, .inr ⟨hc, hcx⟩, hb', hxu, hway⟩
  · rintro ⟨c, x, hcx, hb', hx, hway⟩
    -- behind the last `t` on the way, if there is one, the way leaves a block on the stack
    have hstart : x = t ∨ x ∈ (if x = t then [] else [x]) ∧ x ∈ unfound := by
      by_cases hxt : x = t
      · exact .inl hxt
      · exact .inr ⟨by simp [hxt], hx⟩
    obtain ⟨z, hz, hzu, hway'⟩ := (Flow.StepIn.avoid hstart hway).resolve_left (Ne.symm hne)
    rcases List.mem_append.1 hz with hz | hz
    · obtain ⟨hz, hzb⟩ := mem_forwards.1 hz
      exact ⟨t, z, .inr ⟨List.mem_cons_self, hz⟩, hzb, hzu, hway'⟩
    · by_cases hxt : x = t
      · simp [hxt] at hz
      · obtain rfl : z = x := by simpa [hxt] using hz
        refine ⟨c, z, ?_, hb', hzu, hway'⟩
        rcases hcx with hcx | ⟨hc, hcx⟩
        · exact .inl ((List.mem_cons.1 hcx).resolve_left fun he => hxt (Prod.mk.inj he).2)
        · exact .inr ⟨List.mem_cons_of_mem _ hc, hcx⟩

end

theorem searchForward_eq {g : FlowGraph} (hn : ∀ u, ∀ v ∈ g.succs u, v < g.count)
    (target : BlockId) (unfound stack : List BlockId) (pending : List (BlockId × BlockId))
    (hp : ∀ e ∈ pending, e.2 ∈ g.succs e.1) :
    ∃ found, g.searchForward target unfound stack pending = .ok found ∧
      (found = true ↔ g.CanFind target unfound stack pending) := by
  fun_induction searchForward g target unfound stack pending with
  | case1 unfound =>
    refine ⟨false, rfl, ?_⟩
    simp [CanFind]
  | case2 unfound b stack ih =>
    obtain ⟨found, h, hiff⟩ := ih (by simp [edgesFrom])
    exact ⟨found, h, hiff.trans canFind_pop⟩
  | case3 unfound b t pending stack hlt =>
    exact absurd (hn b t (hp _ List.mem_cons_self)) (Nat.not_lt.2 hlt)
  | case4 unfound b pending stack hlt h =>
    exact ⟨true, rfl, iff_of_true rfl ⟨b, target, .inl List.mem_cons_self, h.2, h.1, .refl⟩⟩
  | case5 unfound b t pending stack hlt h hne ih =>
    obtain ⟨found, hs, hiff⟩ := ih fun e he => hp e (List.mem_cons_of_mem _ he)
    exact ⟨found, hs, hiff.trans (canFind_push h.1 h.2 hne)⟩
  | case6 unfound b t pending stack hlt h ih =>
    obtain ⟨found, hs, hiff⟩ := ih fun e he => hp e (List.mem_cons_of_mem _ he)
    exact ⟨found, hs, hiff.trans (canFind_skip h)⟩

section
variable {g : FlowGraph} {f : Function} (hf : f.Numbered) (hg : g.Describes f)
include hf hg

theorem Describes.mem_forwards_iff {u v : BlockId} :
    v ∈ g.forwards u ↔ Flow.IsForward f.Edge Function.entry u v := by
  rw [mem_forwards, hg.mem_succs, hg.isBackEdge_iff hf]
  rfl

theorem Describes.succs_lt {u v : BlockId} (h : v ∈ g.succs u) : v < g.count := by
  rw [hg.count_eq]
  exact (hf.edge_lt (hg.mem_succs.1 h)).2

theorem Describes.forwardReaches_eq (a b : BlockId) :
    ∃ found, g.forwardReaches a b = .ok found ∧
      (found = true ↔ TransGen (Flow.IsForward f.Edge Function.entry) a b) := by
  obtain ⟨found, h, hiff⟩ := searchForward_eq (fun u v => hg.succs_lt hf) b
    (List.range g.count) [a] [] (by simp)
  refine ⟨found, h, hiff.trans ?_⟩
  have hstep : ∀ u v, Flow.StepIn g.forwards (List.range g.count) u v ↔
      Flow.IsForward f.Edge Function.entry u v := by
    intro u v
    rw [Flow.StepIn, hg.mem_forwards_iff hf, List.mem_range]
    exact ⟨fun h => h.1, fun h => ⟨h, hg.succs_lt hf (hg.mem_succs.2 h.1)⟩⟩
  rw [TransGen.head'_iff]
  constructor
  · rintro ⟨c, t, hc, hb, ht, hway⟩
    obtain ⟨hc, hct⟩ := hc.resolve_left List.not_mem_nil
    obtain rfl := List.mem_singleton.1 hc
    refine ⟨t, ?_, ReflTransGen.mono (fun u v => (hstep u v).1) _ _ hway⟩
    exact (hg.mem_forwards_iff hf).1 (mem_forwards.2 ⟨hct, hb⟩)
  · rintro ⟨t, ht, hway⟩
    obtain ⟨hs, hb⟩ := mem_forwards.1 ((hg.mem_forwards_iff hf).2 ht)
    refine ⟨a, t, .inr ⟨List.mem_singleton_self a, hs⟩, hb, ?_, ?_⟩
    · exact List.mem_range.2 (hg.succs_lt hf hs)
    · exact ReflTransGen.mono (fun u v => (hstep u v).2) _ _ hway

/-! ## Natural loops -/

theorem Describes.mem_latches {u h : BlockId} :
    u ∈ g.latches h ↔ f.Edge u h ∧ f.Dominates h u := by
  rw [latches, List.mem_filter, hg.mem_preds hf, hg.isBackEdge_iff hf]
  exact ⟨fun h => ⟨h.1.2, h.2⟩, fun h => ⟨⟨h.2.reaches, h.1⟩, h.2⟩⟩

/-- A header dominates its loop. -/
theorem Describes.dominates_of_mem_loopBody {h b : BlockId} (hh : f.Reachable h)
    (hb : b ∈ g.loopBody h) : f.Dominates h b := by
  simp only [loopBody, List.mem_filter, decide_eq_true_eq] at hb
  obtain ⟨-, rfl | hb⟩ := hb
  · exact .refl hh
  obtain ⟨l, hl, hlu, hway⟩ := Flow.mem_gather.1 hb
  have hne : ∀ {x}, x ∈ (List.range g.count).erase h → x ≠ h := by
    rintro x hx rfl
    exact List.nodup_range.not_mem_erase hx
  have key : b ≠ h ∧ f.Dominates h b := by
    clear hb
    induction hway with
    | refl => exact ⟨hne hlu, ((hg.mem_latches hf).1 hl).2⟩
    | tail _ hs ih =>
      obtain ⟨hr, he⟩ := (hg.mem_preds hf).1 hs.1
      exact ⟨hne hs.2, ih.2.pred (Ne.symm ih.1) hr he⟩
  exact key.2

theorem Describes.mem_loopBody_of_latch {h u : BlockId} (hu : u ∈ g.latches h) :
    u ∈ g.loopBody h := by
  have hlt : u < g.count := by
    rw [hg.count_eq]
    exact (hf.edge_lt ((hg.mem_latches hf).1 hu).1).1
  simp only [loopBody, List.mem_filter, List.mem_range, decide_eq_true_eq]
  refine ⟨hlt, or_iff_not_imp_left.2 fun hne => ?_⟩
  refine Flow.mem_gather.2 ⟨u, hu, ?_, .refl⟩
  exact (List.mem_erase_of_ne hne).2 (List.mem_range.2 hlt)

omit hf hg in
/-- The body is listed in ascending order, so the search in it finds what is there. -/
theorem contains_loopAt (g : FlowGraph) (h b : BlockId) :
    (g.loopAt h).contains b = decide (b ∈ g.loopBody h) := by
  have hsorted : (g.loopBody h).Pairwise (· ≤ ·) :=
    (List.pairwise_lt_range.filter _).imp Nat.le_of_lt
  rw [Bool.eq_iff_iff, decide_eq_true_iff]
  exact bisect_iff hsorted

/-- Control enters a loop along the edges into its header that are not back edges. -/
theorem Describes.entries_loopAt {h : BlockId} (hh : f.Reachable h) :
    g.entries (g.loopAt h) = (g.preds h).filter fun u => !g.isBackEdge u h := by
  refine List.filter_congr fun u hu => ?_
  have hmem : u ∈ g.loopBody h ↔ g.isBackEdge u h = true := by
    rw [hg.isBackEdge_iff hf]
    refine ⟨hg.dominates_of_mem_loopBody hf hh, fun hd => ?_⟩
    exact hg.mem_loopBody_of_latch hf
      ((hg.mem_latches hf).2 ⟨((hg.mem_preds hf).1 hu).2, hd⟩)
  simp only [contains_loopAt, hmem, Bool.decide_eq_true]

omit hf hg in
theorem mem_loops {l : NaturalLoop} :
    l ∈ g.loops ↔ ∃ h ∈ g.order, g.latches h ≠ [] ∧ l = g.loopAt h := by
  rw [loops, (sortBy_perm _ _).mem_iff, List.mem_map]
  constructor
  · rintro ⟨h, hh, rfl⟩
    obtain ⟨hm, hl⟩ := List.mem_filter.1 hh
    exact ⟨h, hm, by simpa using hl, rfl⟩
  · rintro ⟨h, hm, hl, rfl⟩
    exact ⟨h, List.mem_filter.2 ⟨hm, by simpa using hl⟩, rfl⟩

omit hf hg in
theorem contains_iff {l : NaturalLoop} (hl : l ∈ g.loops) {b : BlockId} :
    l.contains b = true ↔ b ∈ l.body := by
  obtain ⟨h, -, -, rfl⟩ := mem_loops.1 hl
  rw [contains_loopAt, decide_eq_true_iff]
  rfl

end

end Dataflow.FlowGraph
