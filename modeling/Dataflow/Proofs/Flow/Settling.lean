import Dataflow.Proofs.Flow.Exact
import Dataflow.Proofs.Repeats

/-!
# The dominator iteration comes to rest

`FlowGraph.ofFunction_settles`: on every function whose blocks carry their positions and whose branches
lead to existing blocks, the iteration for dominators ends, irreducible control flow included.

* In every state that it passes through (`Idoms.Visits`), the record of a block other than the entry comes
  earlier in the order and has a record itself, so the walks up from two recorded blocks (`Idoms.Joins`, a
  loop of two loops) end on one recorded block.
* The sweeps (`Idoms.Sweeps`) end, since each one that changes something moves records up.
-/

namespace Dataflow

open Relation

namespace Flow.Idoms

/-! ## The loops -/

/-- Walking up from the left block as long as it is the later one. -/
def ClimbsLeft (order : BlockId → Nat) (idom : Idoms) : Nat → BlockId × BlockId → BlockId × BlockId → Prop :=
  Repeats (fun s => order s.2 < order s.1) fun s t => t = (idom.up s.1, s.2)

/-- Walking up from the right block as long as it is the later one. -/
def ClimbsRight (order : BlockId → Nat) (idom : Idoms) :
    Nat → BlockId × BlockId → BlockId × BlockId → Prop :=
  Repeats (fun s => order s.1 < order s.2) fun s t => t = (s.1, idom.up s.2)

/-- Walking up from the left and then from the right, until both walks stand on one block. -/
def Joins (order : BlockId → Nat) (idom : Idoms) : Nat → BlockId × BlockId → BlockId × BlockId → Prop :=
  Repeats (fun s => s.1 ≠ s.2) fun s t =>
    ∃ u, (∃ n, ClimbsLeft order idom n s u) ∧ ∃ n, ClimbsRight order idom n u t

/-- Sweeping over the blocks as long as the last sweep has changed something. -/
def Sweeps (order : BlockId → Nat) (preds : BlockId → List BlockId) (blocks : List BlockId) :
    Nat → Idoms × Bool → Idoms × Bool → Prop :=
  Repeats (fun s => s.2 = true) fun s t => sweep order preds blocks s.1 = .ok t

/-- The states of the iteration: the records, whether one has changed in this sweep, and the blocks that
the sweep has still to visit. -/
inductive Visits (count : Nat) (entry : BlockId) (blocks : List BlockId)
    (preds : BlockId → List BlockId) (order : BlockId → Nat) : Idoms × Bool → List BlockId → Prop
  | start : Visits count entry blocks preds order (start count entry, false) blocks
  | update {s t : Idoms × Bool} {b : BlockId} {rest : List BlockId} :
    Visits count entry blocks preds order s (b :: rest) → update order preds s b = .ok t →
    Visits count entry blocks preds order t rest
  | again {idom : Idoms} : Visits count entry blocks preds order (idom, true) [] →
    Visits count entry blocks preds order (idom, false) blocks

section
variable {E : BlockId → BlockId → Prop} {count : Nat} {entry : BlockId} {blocks : List BlockId}
  {preds : BlockId → List BlockId} {order : BlockId → Nat} {idom : Idoms}

/-! ## Walking up -/

/-- The same blocks stand above both pairs, and the second one is recorded. -/
structure Climbed (idom : Idoms) (s t : BlockId × BlockId) : Prop where
  left : (idom.get t.1).isSome
  right : (idom.get t.2).isSome
  common : ∀ x, Above idom x t.1 ∧ Above idom x t.2 ↔ Above idom x s.1 ∧ Above idom x s.2

section
variable (ht : Tree count entry blocks order idom) (ho : Ordered count entry blocks preds order)
include ht ho

/-- One step up from the later of two blocks loses none of those above both. -/
theorem Tree.up_eq {a b : BlockId} (ha : (idom.get a).isSome) (hlt : order b < order a) :
    (idom.get (idom.up a)).isSome ∧ order (idom.up a) < order a ∧
      ∀ x, Above idom x b → (Above idom x (idom.up a) ↔ Above idom x a) := by
  obtain ⟨c, hc⟩ := Option.isSome_iff_exists.1 ha
  have hup : idom.up a = c := by rw [up, hc, Option.getD_some]
  obtain ⟨hlower, hsome⟩ := ht.lower hc (ho.ne_entry (Nat.zero_lt_of_lt hlt))
  rw [hup]
  refine ⟨hsome, hlower, fun x hxb => ⟨.up hc, fun hxa => hxa.of_ne ?_ hc⟩⟩
  rintro rfl
  exact Nat.not_lt_of_le (ht.order_le hxb) hlt

theorem exists_climbsLeft {s₀ s : BlockId × BlockId} (hs : Climbed idom s₀ s) :
    ∃ n t, ClimbsLeft order idom n s t ∧ Climbed idom s₀ t ∧
      n + (order t.1 + order t.2) ≤ order s.1 + order s.2 := by
  refine exists_repeats (Climbed idom s₀) (fun t => order t.1 + order t.2) (fun s hs hlt => ?_) s hs
  obtain ⟨hsome, hlower, habove⟩ := ht.up_eq ho hs.left hlt
  refine ⟨_, rfl, ⟨hsome, hs.right, fun x => ?_⟩, Nat.add_lt_add_right hlower _⟩
  rw [← hs.common x]
  exact and_congr_left (habove x)

theorem exists_climbsRight {s₀ s : BlockId × BlockId} (hs : Climbed idom s₀ s) :
    ∃ n t, ClimbsRight order idom n s t ∧ Climbed idom s₀ t ∧
      n + (order t.1 + order t.2) ≤ order s.1 + order s.2 := by
  refine exists_repeats (Climbed idom s₀) (fun t => order t.1 + order t.2) (fun s hs hlt => ?_) s hs
  obtain ⟨hsome, hlower, habove⟩ := ht.up_eq ho hs.right hlt
  refine ⟨_, rfl, ⟨hs.left, hsome, fun x => ?_⟩, Nat.add_lt_add_left hlower _⟩
  rw [← hs.common x]
  exact and_congr_right (habove x)

/-- One round of both loops: blocks that differ have different orders, so one of the loops does
something. -/
theorem exists_round {s₀ s : BlockId × BlockId} (hs : Climbed idom s₀ s) (hne : s.1 ≠ s.2) :
    ∃ t, (∃ u, (∃ n, ClimbsLeft order idom n s u) ∧ ∃ n, ClimbsRight order idom n u t) ∧
      Climbed idom s₀ t ∧ order t.1 + order t.2 < order s.1 + order s.2 := by
  obtain ⟨n, u, hleft, hu, hn⟩ := exists_climbsLeft ht ho hs
  obtain ⟨m, t, hright, ht', hm⟩ := exists_climbsRight ht ho hu
  refine ⟨t, ⟨u, ⟨n, hleft⟩, m, hright⟩, ht', ?_⟩
  by_contra hge
  obtain rfl : n = 0 := by omega
  obtain rfl : m = 0 := by omega
  obtain rfl := hleft.eq_of_zero
  obtain rfl := hright.eq_of_zero
  refine hne (ho.order_inj (ht.listed hs.left) (ht.listed hs.right) ?_)
  exact Nat.le_antisymm (Nat.not_lt.1 hleft.not_guard) (Nat.not_lt.1 hright.not_guard)

/-- The walks up from two recorded blocks end on the lowest block above both. -/
theorem exists_joins {a b : BlockId} (ha : (idom.get a).isSome) (hb : (idom.get b).isSome) :
    ∃ n c, Joins order idom n (a, b) (c, c) ∧ Climbed idom (a, b) (c, c) := by
  obtain ⟨n, ⟨c, d⟩, hjoins, hclimbed, -⟩ := exists_repeats (Climbed idom (a, b))
    (fun t => order t.1 + order t.2) (fun _ => exists_round ht ho) (a, b) ⟨ha, hb, fun _ => Iff.rfl⟩
  obtain rfl : c = d := not_not.1 hjoins.not_guard
  exact ⟨n, c, hjoins, hclimbed⟩

/-- `meet` computes where the walks end. -/
theorem meet_of_climbed {a b c : BlockId} (ha : (idom.get a).isSome) (hb : (idom.get b).isSome)
    (hc : Climbed idom (a, b) (c, c)) :
    meet order idom (idom.length * idom.length) a b = .ok c := by
  obtain ⟨m, hm, hma, hmb, hlowest⟩ := meet_eq ht ho _ ha hb (ht.order_add_le ho ha hb)
  obtain ⟨hca, hcb⟩ := (hc.common c).1 ⟨.refl c, .refl c⟩
  have hmc : Above idom m c := ((hc.common m).2 ⟨hma, hmb⟩).1
  rw [hm]
  by_contra hne
  have hlt := ht.order_lt hmc fun heq => hne (congrArg _ heq)
  exact Nat.not_le_of_lt hlt (ht.order_le (hlowest c hca hcb))

end

/-! ## Sweeping -/

/-- A bound on the sweeps that are left: records that change only move up, and the last sweep changes
nothing. -/
def sweepsLeft (order : BlockId → Nat) (blocks : List BlockId) (s : Idoms × Bool) : Nat :=
  if s.2 then weight (level order s.1) blocks + 1 else 0

theorem settle_of_sweeps {n fuel : Nat} {s t : Idoms × Bool}
    (h : Sweeps order preds blocks n s t) (hs : s.2 = true) (hfuel : n ≤ fuel) :
    settle order preds blocks fuel s.1 = .ok t.1 := by
  induction h generalizing fuel with
  | stop hstop => exact absurd hs hstop
  | @round n s t u _ hsweep hrest ih =>
    obtain ⟨fuel, rfl⟩ := Nat.exists_eq_succ_of_ne_zero (Nat.ne_of_gt (Nat.zero_lt_of_lt hfuel))
    rw [settle, hsweep, ok_bind]
    cases hrest with
    | stop hstop => exact if_neg hstop
    | round hguard hbody hmore =>
      exact (if_pos hguard).trans (ih hguard (Nat.le_of_succ_le_succ hfuel))

section
variable (ho : Ordered count entry blocks preds order) (hl : Lists E entry blocks preds)
include ho hl

theorem exists_sweep {s : Idoms × Bool} (hs : Sweep E count entry blocks preds order 1 s.1)
    (hchanged : s.2 = true) : ∃ t, sweep order preds blocks s.1 = .ok t ∧
      Sweep E count entry blocks preds order 1 t.1 ∧
      sweepsLeft order blocks t < sweepsLeft order blocks s := by
  obtain ⟨t, hsweep, ht, hcase⟩ := foldlM_update_eq ho hl blocks [] rfl hs false
  refine ⟨t, hsweep, ht.restart ho, ?_⟩
  rcases hcase with ⟨rfl, -⟩ | ⟨hc, hlt⟩
  · simp [sweepsLeft, hchanged]
  · simpa [sweepsLeft, hchanged, hc] using hlt

theorem exists_sweeps : ∃ n idom, n ≤ count * count + 1 ∧
    Sweeps order preds blocks n (start count entry, true) (idom, false) := by
  obtain ⟨n, ⟨idom, changed⟩, hsweeps, -, hle⟩ := exists_repeats
    (fun s => Sweep E count entry blocks preds order 1 s.1) (sweepsLeft order blocks)
    (fun _ => exists_sweep ho hl) (start count entry, true) (sweep_start ho)
  obtain rfl : changed = false := Bool.not_eq_true _ ▸ hsweeps.not_guard
  exact ⟨n, idom, Nat.le_trans hle (Nat.succ_le_succ (weight_start_le ho)), hsweeps⟩

/-- Every state that is visited has all that a sweep keeps up. -/
theorem Visits.sweep {s : Idoms × Bool} {rest : List BlockId}
    (h : Visits count entry blocks preds order s rest) : ∃ before, blocks = before ++ rest ∧
      Sweep E count entry blocks preds order (before.length + 1) s.1 := by
  induction h with
  | start => exact ⟨[], rfl, sweep_start ho⟩
  | @update s t b rest _ hupdate ih =>
    obtain ⟨before, hblocks, hs⟩ := ih
    have horder := ho.order_block before b rest hblocks
    have hb : b ∈ blocks := hblocks ▸ List.mem_append_right _ List.mem_cons_self
    obtain ⟨t', ht', hsweep, -⟩ := update_eq ho hl hb (horder ▸ hs) s.2
    obtain rfl : t = t' := Except.ok.inj (hupdate.symm.trans ht')
    refine ⟨before ++ [b], by rw [hblocks, List.append_assoc]; rfl, ?_⟩
    rwa [List.length_append, List.length_singleton, ← horder]
  | again _ ih =>
    obtain ⟨before, hblocks, hs⟩ := ih
    rw [List.append_nil] at hblocks
    exact ⟨[], rfl, Sweep.restart ho (hblocks ▸ hs)⟩

theorem Visits.exists_update {s : Idoms × Bool} {b : BlockId} {rest : List BlockId}
    (h : Visits count entry blocks preds order s (b :: rest)) :
    ∃ t, Idoms.update order preds s b = .ok t := by
  obtain ⟨before, hblocks, hs⟩ := h.sweep ho hl
  have hb : b ∈ blocks := hblocks ▸ List.mem_append_right _ List.mem_cons_self
  obtain ⟨t, ht, -⟩ := update_eq ho hl hb (ho.order_block before b rest hblocks ▸ hs) s.2
  exact ⟨t, ht⟩

end

end

end Flow.Idoms

namespace FlowGraph

/-- Walks up from recorded blocks go on through recorded blocks, from each to an earlier one, until they
meet. -/
structure Climbable (g : FlowGraph) (idom : Flow.Idoms) : Prop where
  listed : ∀ {b}, (idom.get b).isSome → b ∈ g.order
  lower : ∀ {b c}, idom.get b = some c → b ≠ Function.entry →
    g.order.idxOf c < g.order.idxOf b ∧ (idom.get c).isSome
  joins : ∀ {a b}, (idom.get a).isSome → (idom.get b).isSome →
    ∃ n c, Flow.Idoms.Joins g.order.idxOf idom n (a, b) (c, c) ∧ (idom.get c).isSome ∧
      Flow.Idoms.meet g.order.idxOf idom (idom.length * idom.length) a b = .ok c

section
variable {g : FlowGraph} {f : Function} (hg : g.Describes f) (hf : f.Numbered)
include hg hf

theorem Describes.mem_preds_iff (u v : BlockId) : u ∈ g.preds v ↔ u ∈ g.order ∧ v ∈ g.succs u := by
  rw [hg.mem_preds hf, hg.mem_order, hg.mem_succs]

theorem Describes.ordered :
    Flow.Idoms.Ordered g.count Function.entry g.order.tail g.preds g.order.idxOf :=
  Flow.ordered_of_depthFirst hg.depthFirst hg.order_eq (fun _ => hg.count_eq ▸ hg.order_lt hf)
    (hg.mem_preds_iff hf)

theorem Describes.lists : Flow.Idoms.Lists f.Edge Function.entry g.order.tail g.preds where
  edge p hp b := by
    rw [hg.mem_preds_iff hf, hg.mem_succs]
    exact (and_iff_right (hg.order_eq ▸ hp)).symm
  reaches b := hg.order_eq ▸ hg.mem_order

theorem Describes.climbable {idom : Flow.Idoms}
    (ht : Flow.Idoms.Tree g.count Function.entry g.order.tail g.order.idxOf idom) :
    g.Climbable idom where
  listed hb := hg.order_eq ▸ ht.listed hb
  lower := ht.lower
  joins ha hb := by
    obtain ⟨n, c, hjoins, hclimbed⟩ := Flow.Idoms.exists_joins ht (hg.ordered hf) ha hb
    exact ⟨n, c, hjoins, hclimbed.left,
      Flow.Idoms.meet_of_climbed ht (hg.ordered hf) ha hb hclimbed⟩

end

/-- **The dominator iteration ends**, both the walks up from two blocks in whatever state it visits, and the
sweeps. -/
theorem ofFunction_settles {f : Function}
    (hids : f.blocks.map Block.id = List.range f.blocks.length)
    (htargets : ∀ b ∈ f.blocks, ∀ t ∈ b.exit.targets, t < f.blocks.length) :
    (f.blocks ≠ [] → ∃ g, ofFunction f = .ok g) ∧
    ∀ g, ofFunction f = .ok g →
      (∀ s rest, Flow.Idoms.Visits g.count Function.entry g.order.tail g.preds g.order.idxOf s rest →
        g.Climbable s.1 ∧
        ∀ b rest', rest = b :: rest' → ∃ t, Flow.Idoms.update g.order.idxOf g.preds s b = .ok t) ∧
      ∃ n idom, n ≤ g.count * g.count + 1 ∧
        Flow.Idoms.Sweeps g.order.idxOf g.preds g.order.tail n
          (.start g.count Function.entry, true) (idom, false) ∧
        g.idom = idom.set Function.entry none := by
  refine ⟨exists_ofFunction hids htargets, fun g hgf => ?_⟩
  obtain ⟨hf, hg⟩ := describes_of_ofFunction hids htargets hgf
  refine ⟨fun s rest hs => ⟨?_, ?_⟩, ?_⟩
  · obtain ⟨_, -, hsweep⟩ := hs.sweep (hg.ordered hf) (hg.lists hf)
    exact hg.climbable hf hsweep.toTree
  · rintro b rest' rfl
    exact hs.exists_update (hg.ordered hf) (hg.lists hf)
  · obtain ⟨n, idom, hn, hsweeps⟩ := Flow.Idoms.exists_sweeps (hg.ordered hf) (hg.lists hf)
    refine ⟨n, idom, hn, hsweeps, ?_⟩
    obtain ⟨-, -, hidom⟩ := ofFunction_eq_ok hgf
    have hsettle := Flow.Idoms.settle_of_sweeps hsweeps rfl (Nat.le_succ_of_le hn)
    rw [hg.order_eq, Flow.dominators, ← hg.order_eq, hsettle] at hidom
    exact (pure_eq_ok.1 hidom).symm

theorem ofFunction_settles_crossing :
    ofFunction .crossing = .ok .crossing ∧
    Flow.Idoms.Visits crossing.count 0 [1, 2] crossing.preds crossing.order.idxOf
      ([some 0, some 0, none, none], true) [2] ∧
    crossing.Climbable [some 0, some 0, none, none] ∧
    ∃ n idom, n ≤ 17 ∧
      Flow.Idoms.Sweeps crossing.order.idxOf crossing.preds [1, 2] n (.start 4 0, true) (idom, false) ∧
      crossing.idom = idom.set 0 none := by
  have hgf : ofFunction .crossing = .ok .crossing := by decide +kernel
  have hvisits : Flow.Idoms.Visits crossing.count 0 [1, 2] crossing.preds crossing.order.idxOf
      ([some 0, some 0, none, none], true) [2] := .update .start (by decide +kernel)
  have h := (ofFunction_settles (by decide) (by decide)).2 _ hgf
  exact ⟨hgf, hvisits, (h.1 _ _ hvisits).1, h.2⟩

end FlowGraph

end Dataflow
