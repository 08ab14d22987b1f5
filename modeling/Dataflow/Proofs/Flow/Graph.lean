import Dataflow.Flow.Graph
import Dataflow.Proofs.Flow.Dominator
import Dataflow.Proofs.Flow.Search
import Dataflow.Proofs.Outcome
import Mathlib.Data.List.Perm.Subperm

/-!
# What a control flow graph says about its function

`FlowGraph.ofFunction` succeeds on every function whose blocks are numbered by their positions and
whose branches lead to existing blocks (`Function.Numbered`), and its answers agree with the
function's edges (`FlowGraph.Describes`): successors and predecessors are the two ends of edges,
the order is a depth-first order of the reachable blocks, and `dominates` is dominance.

`FlowGraph.Describes.reducible_iff`: no edge is irreducible exactly if every cycle has a back edge.
-/

namespace Dataflow

open Relation

/-! ## Positions in a list -/

theorem idxOf_lt_idxOf {l : List Nat} (hl : l.Nodup) {x y : Nat} (h : [x, y].Sublist l) :
    l.idxOf x < l.idxOf y := by
  induction l with
  | nil => cases h
  | cons z l ih =>
    obtain ⟨hz, hl⟩ := List.nodup_cons.1 hl
    cases h with
    | cons _ h =>
      have hx : z ≠ x := fun e => hz (e ▸ h.subset (by simp))
      have hy : z ≠ y := fun e => hz (e ▸ h.subset (by simp))
      rw [List.idxOf_cons_ne _ hx, List.idxOf_cons_ne _ hy]
      exact Nat.succ_lt_succ (ih hl h)
    | cons_cons _ h =>
      have hy : x ≠ y := fun e => hz (e ▸ List.singleton_sublist.1 h)
      rw [List.idxOf_cons_self, List.idxOf_cons_ne _ hy]
      exact Nat.succ_pos _

theorem nodup_eraseDups {α : Type} [DecidableEq α] (l : List α) : l.eraseDups.Nodup := by
  generalize hn : l.length = n
  induction n using Nat.strongRecOn generalizing l with
  | ind n ih =>
    cases l with
    | nil => simp
    | cons a l =>
      rw [List.eraseDups_cons, List.nodup_cons]
      refine ⟨by simp [List.mem_eraseDups], ih _ ?_ _ rfl⟩
      rw [← hn]
      exact Nat.lt_succ_of_le (List.length_filter_le _ _)

theorem eraseDups_concat {α : Type} [DecidableEq α] (xs : List α) (x : α) :
    (xs ++ [x]).eraseDups = if x ∈ xs then xs.eraseDups else xs.eraseDups ++ [x] := by
  rw [List.eraseDups_append]
  by_cases hx : x ∈ xs <;> simp [List.removeAll, hx, List.eraseDups_cons]

/-! ## Tables that are filled row by row -/

/-- The rows at some positions are changed, each position once or by a change that makes no
difference the second time. -/
theorem getElem?_foldl_modify {β : Type} {ts : List Nat} {f : β → β}
    (h : ts.Nodup ∨ ∀ r, f (f r) = f r) (table : List β) (v : Nat) :
    (ts.foldl (fun table t => table.modify t f) table)[v]? =
      table[v]?.map fun r => if v ∈ ts then f r else r := by
  induction ts generalizing table with
  | nil => simp
  | cons t ts ih =>
    rw [List.foldl_cons, ih (h.imp_left fun h => (List.nodup_cons.1 h).2), List.getElem?_modify]
    simp only [Option.map_eq_map, Option.map_map]
    congr 1
    funext r
    by_cases htv : t = v
    · subst htv
      by_cases hts : t ∈ ts
      · have hidem := h.resolve_left fun h => (List.nodup_cons.1 h).1 hts
        simp [hts, hidem]
      · simp [hts]
    · simp [htv, Ne.symm htv]

/-- What each step does to a row only depends on the row, so the rows can be filled one by one. -/
theorem getElem?_foldl_rows {α β : Type} {step : List β → α → List β} {change : Nat → β → α → β}
    (h : ∀ table a v, (step table a)[v]? = table[v]?.map fun r => change v r a)
    (as : List α) (table : List β) (v : Nat) :
    (as.foldl step table)[v]? = table[v]?.map fun r => as.foldl (change v) r := by
  induction as generalizing table with
  | nil => simp
  | cons a as ih =>
    rw [List.foldl_cons, ih, h, Option.map_map]
    rfl

theorem foldl_concat_filter {α β : Type} (p : α → Prop) [DecidablePred p] (g : α → β) (as : List α) :
    as.foldl (fun r a => if p a then r ++ [g a] else r) [] = (as.filter p).map g := by
  induction as using List.reverseRecOn with
  | nil => rfl
  | append_singleton as a ih =>
    rw [List.foldl_append, ih]
    by_cases hp : p a <;> simp [hp]

/-! ## Depth-first orders and dominance -/

namespace Flow

variable {E : BlockId → BlockId → Prop} {next : BlockId → List BlockId} {root : BlockId}
variable {order : List BlockId}

/-- If only back edges go against an order, all others lead on in it. -/
theorem idxOf_lt_of_transGen
    (h : ∀ u v, ReflTransGen E root u → E u v → order.idxOf v ≤ order.idxOf u → Dominates E root v u)
    {u v : BlockId} (hu : ReflTransGen E root u) (hv : TransGen (IsForward E root) u v) :
    ReflTransGen E root v ∧ order.idxOf u < order.idxOf v := by
  have hstep : ∀ {x y}, ReflTransGen E root x → IsForward E root x y →
      order.idxOf x < order.idxOf y :=
    fun hx hxy => Nat.lt_of_not_le fun hle => hxy.2 (h _ _ hx hxy.1 hle)
  induction hv with
  | single he => exact ⟨hu.tail he.1, hstep hu he⟩
  | tail _ he ih => exact ⟨ih.1.tail he.1, Nat.lt_trans ih.2 (hstep ih.1 he)⟩

section
variable (ho : DepthFirst next root order) (hnext : ∀ u v, v ∈ next u ↔ E u v)
include ho

theorem DepthFirst.idxOf_le_of_onward {u v : BlockId} (h : ReflTransGen (Onward next order) u v) :
    order.idxOf u ≤ order.idxOf v := by
  induction h with
  | refl => exact Nat.le_refl _
  | tail _ he ih => exact Nat.le_trans ih (Nat.le_of_lt (idxOf_lt_idxOf ho.nodup he.2))

include hnext

theorem DepthFirst.mem_iff {b : BlockId} : b ∈ order ↔ ReflTransGen E root b := by
  constructor
  · intro hb
    exact ReflTransGen.mono (fun u v h => (hnext u v).1 h.1) _ _ (ho.onward b hb)
  · intro hb
    induction hb with
    | refl => exact List.mem_of_mem_head? ho.head
    | tail _ he ih => exact (ho.settled _ ih _ ((hnext _ _).2 he)).mem ih

/-- The edges that go forward in the order lead from a dominator to all that it dominates. -/
theorem DepthFirst.onward_of_dominates {a b : BlockId} (h : Dominates E root a b) :
    ReflTransGen (Onward next order) a b := by
  have hb := ho.onward b ((ho.mem_iff hnext).2 h.reaches)
  induction hb with
  | refl => rw [h.eq_root]
  | @tail p b hp he ih =>
    by_cases hab : a = b
    · rw [hab]
    · have hreaches := ReflTransGen.mono (fun u v h => (hnext u v).1 h.1) _ _ hp
      exact (ih (h.pred hab hreaches ((hnext p b).1 he.1))).tail he

/-- Dominators come first in the order. -/
theorem DepthFirst.idxOf_le {a b : BlockId} (h : Dominates E root a b) :
    order.idxOf a ≤ order.idxOf b :=
  ho.idxOf_le_of_onward (ho.onward_of_dominates hnext h)

/-- An edge that goes forward in the order is no back edge. -/
theorem DepthFirst.isForward {u v : BlockId} (h : Onward next order u v) : IsForward E root u v :=
  ⟨(hnext u v).1 h.1, fun hd =>
    Nat.not_le_of_lt (idxOf_lt_idxOf ho.nodup h.2) (ho.idxOf_le hnext hd)⟩

/-- Only back edges go against the order exactly if every cycle has one, whatever the order. -/
theorem DepthFirst.reducible_iff :
    (∀ u v, ReflTransGen E root u → E u v → order.idxOf v ≤ order.idxOf u → Dominates E root v u) ↔
      Reducible E root := by
  constructor
  · intro h u hu hc
    exact Nat.lt_irrefl _ (idxOf_lt_of_transGen h hu hc).2
  · intro h u v hu he hle
    by_contra hnd
    -- the way from `v` on to `u` goes forward, so with the edge back to `v` it is a cycle
    have hs := ho.settled u ((ho.mem_iff hnext).2 hu) v ((hnext u v).2 he)
    rcases hs with hs | hs
    · exact Nat.not_le_of_lt (idxOf_lt_idxOf ho.nodup hs) hle
    · have hp : ReflTransGen (IsForward E root) v u :=
        ReflTransGen.mono (fun x y hxy => ho.isForward hnext hxy) _ _ hs
      exact h u hu (TransGen.head' ⟨he, hnd⟩ hp)

end

/-- The iteration for dominators can be run on a depth-first order. -/
theorem ordered_of_depthFirst {count : Nat} {blocks : List BlockId} {preds : BlockId → List BlockId}
    (ho : DepthFirst next root order) (horder : order = root :: blocks) (hlt : ∀ b ∈ order, b < count)
    (hpreds : ∀ u v, u ∈ preds v ↔ u ∈ order ∧ v ∈ next u) :
    Idoms.Ordered count root blocks preds order.idxOf := by
  subst horder
  refine ⟨hlt, ?_, List.idxOf_cons_self, ?_, fun b p hp => ((hpreds p b).1 hp).1, ?_⟩
  · have hsub : root :: blocks ⊆ List.range count := fun b hb => List.mem_range.2 (hlt b hb)
    have hle := (ho.nodup.subperm hsub).length_le
    rwa [List.length_range] at hle
  · rintro before b after rfl
    have hnd := ho.nodup
    rw [← List.cons_append, List.nodup_append] at hnd
    rw [← List.cons_append, List.idxOf_append_of_notMem, List.idxOf_cons_self]
    · simp
    · exact fun hb => hnd.2.2 b hb b List.mem_cons_self rfl
  · intro b hb
    have hne : root ≠ b := fun h => (List.nodup_cons.1 ho.nodup).1 (h ▸ hb)
    rcases (ho.onward b (List.mem_cons_of_mem _ hb)).cases_tail with h | ⟨p, -, hp⟩
    · exact absurd h.symm hne
    · exact ⟨p, (hpreds p b).2 ⟨hp.2.subset (by simp), hp.1⟩, idxOf_lt_idxOf ho.nodup hp.2⟩

end Flow

namespace Function

/-- Control can go from `u` to `v`. -/
def Edge (f : Function) (u v : BlockId) : Prop := ∃ b, f.blocks[u]? = some b ∧ v ∈ b.exit.targets

/-- Control can get to the block. -/
def Reachable (f : Function) (b : BlockId) : Prop := ReflTransGen f.Edge entry b

/-- Every way from the entry to `b`, and there is one, leads through `a`. -/
def Dominates (f : Function) (a b : BlockId) : Prop := Flow.Dominates f.Edge entry a b

/-- Blocks are numbered by their positions, and branches lead to existing blocks. -/
structure Numbered (f : Function) : Prop where
  nonempty : f.blocks ≠ []
  id_eq : ∀ {i : Nat} {b : Block}, f.blocks[i]? = some b → b.id = i
  target_lt : ∀ {i : Nat} {b : Block}, f.blocks[i]? = some b →
    ∀ t ∈ b.exit.targets, t < f.blocks.length

section
variable {f : Function} (hf : f.Numbered)
include hf

theorem Numbered.entry_lt : entry < f.blocks.length := List.length_pos_iff.2 hf.nonempty

theorem Numbered.ids : f.blocks.map Block.id = List.range f.blocks.length := by
  refine List.ext_getElem? fun i => ?_
  rw [List.getElem?_map]
  by_cases hi : i < f.blocks.length
  · rw [List.getElem?_range hi, List.getElem?_eq_getElem hi]
    exact congrArg some (hf.id_eq (List.getElem?_eq_getElem hi))
  · rw [List.getElem?_eq_none (by simpa using hi), List.getElem?_eq_none (by simpa using hi)]
    rfl

theorem Numbered.edge_lt {u v : BlockId} (h : f.Edge u v) :
    u < f.blocks.length ∧ v < f.blocks.length := by
  obtain ⟨b, hb, hv⟩ := h
  exact ⟨(List.getElem?_eq_some_iff.1 hb).1, hf.target_lt hb v hv⟩

theorem Numbered.reachable_lt {b : BlockId} (h : f.Reachable b) : b < f.blocks.length := by
  cases h with
  | refl => exact hf.entry_lt
  | tail _ he => exact (hf.edge_lt he).2

end

end Function

namespace FlowGraph

/-! ## The graph of a function -/

/-- The answers of a flow graph agree with the edges of a function. -/
structure Describes (g : FlowGraph) (f : Function) : Prop where
  count_eq : g.count = f.blocks.length
  succs_eq : ∀ {u : BlockId} {b : Block}, f.blocks[u]? = some b →
    g.succs u = b.exit.targets.eraseDups
  succs_nil : ∀ {u}, f.blocks.length ≤ u → g.succs u = []
  preds_eq : ∀ {v}, v < f.blocks.length → g.preds v =
    (List.range f.blocks.length).filter fun u => u ∈ g.order ∧ v ∈ g.succs u
  preds_nil : ∀ {v}, f.blocks.length ≤ v → g.preds v = []
  depthFirst : Flow.DepthFirst g.succs Function.entry g.order
  tree : Flow.DominatorTree f.Edge Function.entry g.order.tail g.order.idxOf g.idom

section
variable {g : FlowGraph} {f : Function} (hg : g.Describes f)
include hg

theorem Describes.mem_succs {u v : BlockId} : v ∈ g.succs u ↔ f.Edge u v := by
  cases hb : f.blocks[u]? with
  | none =>
    rw [hg.succs_nil (List.getElem?_eq_none_iff.1 hb)]
    simp [Function.Edge, hb]
  | some b =>
    rw [hg.succs_eq hb, List.mem_eraseDups]
    simp [Function.Edge, hb]

theorem Describes.nodup_succs (u : BlockId) : (g.succs u).Nodup := by
  cases hb : f.blocks[u]? with
  | none =>
    rw [hg.succs_nil (List.getElem?_eq_none_iff.1 hb)]
    exact List.nodup_nil
  | some b =>
    rw [hg.succs_eq hb]
    exact nodup_eraseDups _

theorem Describes.order_eq : g.order = Function.entry :: g.order.tail := by
  have := hg.depthFirst.head
  cases h : g.order with
  | nil => simp [h] at this
  | cons x xs =>
    rw [h, List.head?_cons, Option.some.injEq] at this
    rw [this, List.tail_cons]

theorem Describes.mem_order {b : BlockId} : b ∈ g.order ↔ f.Reachable b :=
  hg.depthFirst.mem_iff fun _ _ => hg.mem_succs

theorem Describes.isReachable_iff {b : BlockId} : g.isReachable b = true ↔ f.Reachable b := by
  rw [isReachable, decide_eq_true_iff, hg.mem_order]

theorem Describes.mem_preds (hf : f.Numbered) {u v : BlockId} :
    u ∈ g.preds v ↔ f.Reachable u ∧ f.Edge u v := by
  by_cases hv : v < f.blocks.length
  · rw [hg.preds_eq hv]
    simp only [List.mem_filter, List.mem_range, decide_eq_true_eq, hg.mem_order, hg.mem_succs]
    exact ⟨fun h => h.2, fun h => ⟨hf.reachable_lt h.1, h⟩⟩
  · rw [hg.preds_nil (Nat.not_lt.1 hv)]
    refine ⟨fun h => absurd h List.not_mem_nil, fun h => absurd (hf.edge_lt h.2).2 hv⟩

/-- Predecessors are listed in declaration order. -/
theorem Describes.ascending_preds (v : BlockId) : (g.preds v).Pairwise (· < ·) := by
  by_cases hv : v < f.blocks.length
  · rw [hg.preds_eq hv]
    exact List.pairwise_lt_range.filter _
  · rw [hg.preds_nil (Nat.not_lt.1 hv)]
    exact .nil

theorem Describes.nodup_preds (v : BlockId) : (g.preds v).Nodup :=
  (hg.ascending_preds v).imp Nat.ne_of_lt

/-! ## Dominance -/

theorem mem_ancestors (fuel : Nat) {a b : BlockId} (h : g.order.idxOf b ≤ fuel) :
    a ∈ g.ancestors fuel b ↔ Flow.Idoms.Above g.idom a b := by
  induction fuel generalizing b with
  | zero =>
    rw [ancestors, List.mem_singleton]
    refine ⟨fun h => h ▸ .refl _, fun ha => ?_⟩
    cases ha with
    | refl => rfl
    | up hc _ =>
      have := hg.tree.order_lt hc
      omega
  | succ fuel ih =>
    unfold ancestors
    cases hc : g.idom.get b with
    | none =>
      simp only [List.mem_singleton]
      refine ⟨fun h => h ▸ .refl _, fun ha => ?_⟩
      cases ha with
      | refl => rfl
      | up hc' _ => simp [hc] at hc'
    | some c =>
      have hlt := hg.tree.order_lt hc
      simp only [List.mem_cons]
      rw [ih (by omega)]
      constructor
      · rintro (rfl | h)
        · exact .refl _
        · exact .up hc h
      · intro ha
        by_cases hab : a = b
        · exact .inl hab
        · exact .inr (ha.of_ne hab hc)

theorem Describes.order_lt {b : BlockId} (hf : f.Numbered) (hb : b ∈ g.order) :
    b < f.blocks.length := hf.reachable_lt (hg.mem_order.1 hb)

theorem Describes.length_order_le (hf : f.Numbered) : g.order.length ≤ f.blocks.length := by
  have hsub : g.order ⊆ List.range f.blocks.length := fun b hb =>
    List.mem_range.2 (hg.order_lt hf hb)
  simpa using (hg.depthFirst.nodup.subperm hsub).length_le

theorem Describes.dominates_iff (hf : f.Numbered) {a b : BlockId} :
    g.dominates a b = true ↔ f.Dominates a b := by
  rw [dominates, Bool.and_eq_true, isReachable, decide_eq_true_iff, decide_eq_true_iff]
  constructor
  · rintro ⟨hb, ha⟩
    have hlt := List.idxOf_lt_length_iff.2 hb
    have hle := hg.length_order_le hf
    rw [mem_ancestors hg _ (by rw [hg.count_eq]; omega)] at ha
    exact (hg.tree.above_iff (hg.order_eq ▸ hb)).1 ha
  · intro h
    have hb : b ∈ g.order := hg.mem_order.2 h.reaches
    have hlt := List.idxOf_lt_length_iff.2 hb
    have hle := hg.length_order_le hf
    refine ⟨hb, ?_⟩
    rw [mem_ancestors hg _ (by rw [hg.count_eq]; omega)]
    exact (hg.tree.above_iff (hg.order_eq ▸ hb)).2 h

theorem Describes.isBackEdge_iff (hf : f.Numbered) {u v : BlockId} :
    g.isBackEdge u v = true ↔ f.Dominates v u := hg.dominates_iff hf

/-- Dominators come first in the order. -/
theorem Describes.idxOf_le {a b : BlockId} (h : f.Dominates a b) :
    g.order.idxOf a ≤ g.order.idxOf b := hg.depthFirst.idxOf_le (fun _ _ => hg.mem_succs) h

theorem Describes.idxOf_lt {a b : BlockId} (h : f.Dominates a b) (hab : a ≠ b) :
    g.order.idxOf a < g.order.idxOf b := by
  refine Nat.lt_of_le_of_ne (hg.idxOf_le h) fun heq => hab ?_
  exact (List.idxOf_inj (hg.mem_order.2 h.reaches_left)).1 heq

/-! ## Irreducible edges -/

theorem Describes.isIrreducible_iff (hf : f.Numbered) {u v : BlockId} :
    g.isIrreducible u v = true ↔ f.Reachable u ∧ f.Reachable v ∧
      g.order.idxOf v ≤ g.order.idxOf u ∧ ¬ f.Dominates v u := by
  simp only [isIrreducible, Bool.and_eq_true, Bool.not_eq_true', decide_eq_true_eq,
    hg.isReachable_iff, ← hg.dominates_iff hf, Bool.not_eq_true, and_assoc]

/-- No edge is irreducible exactly if only back edges go against the order. -/
theorem Describes.isIrreducible_eq_false_iff (hf : f.Numbered) :
    (∀ u v, f.Edge u v → g.isIrreducible u v = false) ↔
      ∀ u v, f.Reachable u → f.Edge u v → g.order.idxOf v ≤ g.order.idxOf u → f.Dominates v u := by
  constructor
  · intro h u v hu he hle
    by_contra hnd
    have hi := (hg.isIrreducible_iff hf).2 ⟨hu, hu.tail he, hle, hnd⟩
    rw [h u v he] at hi
    cases hi
  · intro h u v he
    by_contra hi
    rw [Bool.not_eq_false] at hi
    obtain ⟨hu, -, hle, hnd⟩ := (hg.isIrreducible_iff hf).1 hi
    exact hnd (h u v hu he hle)

theorem Describes.idxOf_lt_of_transGen (hf : f.Numbered)
    (h : ∀ u v, f.Edge u v → g.isIrreducible u v = false) {u v : BlockId} (hu : f.Reachable u)
    (hv : TransGen (Flow.IsForward f.Edge Function.entry) u v) :
    f.Reachable v ∧ g.order.idxOf u < g.order.idxOf v :=
  Flow.idxOf_lt_of_transGen ((hg.isIrreducible_eq_false_iff hf).1 h) hu hv

/-- No edge is irreducible exactly if every cycle goes through a back edge. -/
theorem Describes.reducible_iff (hf : f.Numbered) :
    (∀ u v, f.Edge u v → g.isIrreducible u v = false) ↔ Flow.Reducible f.Edge Function.entry :=
  (hg.isIrreducible_eq_false_iff hf).trans (hg.depthFirst.reducible_iff fun _ _ => hg.mem_succs)

end

/-! ## Construction -/

theorem row_map {α : Type} (xs : List α) (h : α → List BlockId) (i : Nat) :
    row (xs.map h) i = (xs[i]?.map h).getD [] := by
  rw [row, List.getD_eq_getElem?_getD, List.getElem?_map]

section
variable {f : Function} (hf : f.Numbered)

/-- The successor lists of a function. -/
def successorsOf (f : Function) : List (List BlockId) := f.blocks.map fun b => b.exit.targets.eraseDups

theorem row_successorsOf {u : BlockId} {b : Block} (hb : f.blocks[u]? = some b) :
    row (successorsOf f) u = b.exit.targets.eraseDups := by
  rw [successorsOf, row_map, hb]
  rfl

theorem row_successorsOf_nil {u : BlockId} (hu : f.blocks.length ≤ u) :
    row (successorsOf f) u = [] := by
  rw [successorsOf, row_map, List.getElem?_eq_none hu]
  rfl

theorem mem_row_successorsOf {u v : BlockId} : v ∈ row (successorsOf f) u ↔ f.Edge u v := by
  cases hb : f.blocks[u]? with
  | none =>
    rw [row_successorsOf_nil (List.getElem?_eq_none_iff.1 hb)]
    simp [Function.Edge, hb]
  | some b =>
    rw [row_successorsOf hb, List.mem_eraseDups]
    simp [Function.Edge, hb]

theorem nodup_row_successorsOf (f : Function) (u : BlockId) : (row (successorsOf f) u).Nodup := by
  cases hb : f.blocks[u]? with
  | none =>
    rw [row_successorsOf_nil (List.getElem?_eq_none_iff.1 hb)]
    exact List.nodup_nil
  | some b =>
    rw [row_successorsOf hb]
    exact nodup_eraseDups _

/-- The row of a block holds the reachable blocks that branch to it, in declaration order. -/
theorem collectPredecessors_eq (f : Function) (order : List BlockId) :
    collectPredecessors f (successorsOf f) order = (List.range f.blocks.length).map fun v =>
      (f.blocks.filter fun b => b.id ∈ order ∧ v ∈ row (successorsOf f) b.id).map Block.id := by
  refine List.ext_getElem? fun v => ?_
  have hstep : ∀ (table : List (List BlockId)) (b : Block) (v : Nat),
      (if b.id ∈ order then
        (row (successorsOf f) b.id).foldl (fun table t => table.modify t (· ++ [b.id])) table
      else table)[v]? = table[v]?.map fun r =>
        if b.id ∈ order ∧ v ∈ row (successorsOf f) b.id then r ++ [b.id] else r := by
    intro table b v
    by_cases hb : b.id ∈ order
    · simp only [hb, if_true, true_and]
      exact getElem?_foldl_modify (.inl (nodup_row_successorsOf f b.id)) table v
    · simp [hb]
  rw [collectPredecessors, getElem?_foldl_rows hstep, List.getElem?_replicate, List.getElem?_map]
  by_cases hv : v < f.blocks.length
  · rw [if_pos hv, List.getElem?_range hv, Option.map_some, Option.map_some,
      foldl_concat_filter fun b : Block => b.id ∈ order ∧ v ∈ row (successorsOf f) b.id]
  · rw [if_neg hv, List.getElem?_eq_none (by simpa using hv)]
    rfl

theorem row_collectPredecessors_nil (order : List BlockId) {v : BlockId}
    (hv : f.blocks.length ≤ v) : row (collectPredecessors f (successorsOf f) order) v = [] := by
  rw [collectPredecessors_eq, row_map, List.getElem?_eq_none (by simpa using hv)]
  rfl

/-- What the flow graph of a function is made of. -/
theorem fields_of_ofFunction {g : FlowGraph} (h : ofFunction f = .ok g) :
    f.blocks ≠ [] ∧ g.successors = successorsOf f ∧ g.order = reversePostorder (successorsOf f) ∧
      g.predecessors = collectPredecessors f (successorsOf f) g.order ∧
      Flow.dominators f.blocks.length g.order (row g.predecessors) = .ok g.idom := by
  obtain ⟨hne, h⟩ := guard_eq_ok.1 h
  obtain ⟨-, h⟩ := guard_eq_ok'.1 h
  obtain ⟨-, h⟩ := guard_eq_ok'.1 h
  obtain ⟨idom, hidom, h⟩ := bind_eq_ok.1 h
  obtain rfl := pure_eq_ok.1 h
  exact ⟨mt (congrArg List.length) hne, rfl, rfl, rfl, hidom⟩

theorem depthFirst_reversePostorder (hne : f.blocks ≠ [])
    (hlt : ∀ {u v}, f.Edge u v → v < f.blocks.length) :
    Flow.DepthFirst (row (successorsOf f)) Function.entry (reversePostorder (successorsOf f)) := by
  have hlen : (successorsOf f).length = f.blocks.length := List.length_map ..
  unfold reversePostorder
  rw [hlen]
  exact Flow.postorder_depthFirst (fun u v hv => hlt (mem_row_successorsOf.1 hv))
    (List.length_pos_iff.2 hne)

include hf

theorem row_collectPredecessors (order : List BlockId) {v : BlockId} (hv : v < f.blocks.length) :
    row (collectPredecessors f (successorsOf f) order) v =
      (List.range f.blocks.length).filter fun u => u ∈ order ∧ v ∈ row (successorsOf f) u := by
  rw [collectPredecessors_eq, row_map, List.getElem?_range hv, ← hf.ids, List.filter_map]
  rfl

theorem mem_row_collectPredecessors {order : List BlockId} (hlt : ∀ b ∈ order, b < f.blocks.length)
    {u v : BlockId} :
    u ∈ row (collectPredecessors f (successorsOf f) order) v ↔ u ∈ order ∧ f.Edge u v := by
  by_cases hv : v < f.blocks.length
  · rw [row_collectPredecessors hf _ hv]
    simp only [List.mem_filter, List.mem_range, decide_eq_true_eq, mem_row_successorsOf]
    exact ⟨fun h => h.2, fun h => ⟨hlt u h.1, h⟩⟩
  · rw [row_collectPredecessors_nil _ (Nat.not_lt.1 hv)]
    exact ⟨fun h => absurd h List.not_mem_nil, fun h => absurd (hf.edge_lt h.2).2 hv⟩

/-- The bounds that the analysis checks hold, so it fails only if the dominators do. -/
theorem ofFunction_eq_dominators : ofFunction f =
    (Flow.dominators f.blocks.length (reversePostorder (successorsOf f))
        (row (collectPredecessors f (successorsOf f) (reversePostorder (successorsOf f))))).map
      fun idom => {
        successors := successorsOf f
        predecessors := collectPredecessors f (successorsOf f) (reversePostorder (successorsOf f))
        order := reversePostorder (successorsOf f)
        idom } := by
  have htargets : ((reversePostorder (successorsOf f)).all fun b =>
      (row (successorsOf f) b).all (· < f.blocks.length)) = true := by
    simp only [List.all_eq_true, decide_eq_true_eq]
    exact fun b _ v hv => (hf.edge_lt (mem_row_successorsOf.1 hv)).2
  have hids : (f.blocks.all fun b => b.id < f.blocks.length) = true := by
    simp only [List.all_eq_true, decide_eq_true_eq]
    intro b hb
    have hid : b.id ∈ f.blocks.map Block.id := List.mem_map_of_mem hb
    rw [hf.ids] at hid
    exact List.mem_range.1 hid
  have hne : f.blocks.length ≠ 0 := Nat.ne_of_gt hf.entry_lt
  unfold ofFunction
  simp only [← successorsOf.eq_def, htargets, hids, hne, if_false]
  rfl

theorem ofFunction_eq : ∃ g, ofFunction f = .ok g ∧ g.Describes f := by
  have hdf := depthFirst_reversePostorder hf.nonempty fun he => (hf.edge_lt he).2
  rw [ofFunction_eq_dominators hf]
  generalize reversePostorder (successorsOf f) = order at hdf ⊢
  obtain ⟨blocks, rfl⟩ : ∃ blocks, order = Function.entry :: blocks := by
    have := hdf.head
    cases order with
    | nil => simp at this
    | cons x xs => exact ⟨xs, by simpa using this⟩
  have hmem : ∀ b, b ∈ Function.entry :: blocks ↔ f.Reachable b := fun _ =>
    hdf.mem_iff fun _ _ => mem_row_successorsOf
  have hlt : ∀ b ∈ Function.entry :: blocks, b < f.blocks.length := fun b hb =>
    hf.reachable_lt ((hmem b).1 hb)
  have ho := Flow.ordered_of_depthFirst hdf rfl hlt fun u v =>
    (mem_row_collectPredecessors hf hlt).trans (and_congr_right' mem_row_successorsOf.symm)
  have hl : Flow.Idoms.Lists f.Edge Function.entry blocks
      (row (collectPredecessors f (successorsOf f) (Function.entry :: blocks))) := by
    refine ⟨fun p hp b => ?_, hmem⟩
    rw [mem_row_collectPredecessors hf hlt]
    exact ⟨fun h => ⟨hp, h⟩, fun h => h.2⟩
  obtain ⟨idom, hidom, -, htree⟩ :=
    Flow.dominators_eq ho hl (List.nodup_cons.1 hdf.nodup).1
  rw [hidom]
  refine ⟨_, rfl, List.length_map .., row_successorsOf, row_successorsOf_nil, ?_, ?_, hdf, htree⟩
  · exact fun hv => row_collectPredecessors hf _ hv
  · exact fun hv => row_collectPredecessors_nil _ hv

theorem describes_of_eq_ok {g : FlowGraph} (h : ofFunction f = .ok g) : g.Describes f := by
  obtain ⟨g', hgf', hg'⟩ := ofFunction_eq hf
  rw [h] at hgf'
  cases hgf'
  exact hg'

end

end FlowGraph

end Dataflow
