import Dataflow.Proofs.Lower.Preheader
import Mathlib.Algebra.Order.BigOperators.Group.List
import Mathlib.Algebra.Order.Ring.Nat

/-!
# All rounds of preheader insertion

Preheaders are inserted in rounds (`Function.Round`), one loop after the other. A round keeps the
function well formed and its control flow reducible, and it leaves one loop fewer with several
entries (`Entered.mem_sharedHeaders`). So the insertion comes to an end, unless it runs out of
identifiers, and then every loop has one entry (`withPreheaders_cases`).
-/

namespace Dataflow

open Relation

namespace FlowGraph

/-! ## Loops with several entries -/

/-- The headers of the loops with several entries. -/
def sharedHeaders (g : FlowGraph) : List BlockId :=
  g.order.filter fun h => g.latches h ≠ [] ∧ 1 < (g.entries (g.loopAt h)).length

theorem mem_sharedHeaders {g : FlowGraph} {h : BlockId} : h ∈ g.sharedHeaders ↔
    h ∈ g.order ∧ g.latches h ≠ [] ∧ 1 < (g.entries (g.loopAt h)).length := by
  simp [sharedHeaders]

theorem sharedLoop?_eq_none {g : FlowGraph} : g.sharedLoop? = none ↔ g.sharedHeaders = [] := by
  rw [sharedLoop?, Option.map_eq_none_iff, List.find?_eq_none, List.eq_nil_iff_forall_not_mem]
  simp only [mem_loops, mem_sharedHeaders, decide_eq_true_eq]
  constructor
  · rintro h b ⟨hb, hl, hlt⟩
    exact h _ ⟨b, hb, hl, rfl⟩ hlt
  · rintro h _ ⟨b, hb, hl, rfl⟩ hlt
    exact h b ⟨hb, hl, hlt⟩

theorem mem_of_sharedLoop? {g : FlowGraph} {h : BlockId} {entries : List BlockId}
    (hs : g.sharedLoop? = some (h, entries)) :
    h ∈ g.sharedHeaders ∧ entries = g.entries (g.loopAt h) := by
  obtain ⟨l, hl, heq⟩ := Option.map_eq_some_iff.1 hs
  obtain ⟨rfl, rfl⟩ := Prod.mk.inj heq
  obtain ⟨h, hh, hlat, rfl⟩ := mem_loops.1 (List.mem_of_find?_eq_some hl)
  have hlt := List.find?_some hl
  exact ⟨mem_sharedHeaders.2 ⟨hh, hlat, of_decide_eq_true hlt⟩, rfl⟩

section
variable {g : FlowGraph} {f : Function} (hf : f.Numbered) (hg : g.Describes f)
include hf hg

theorem Describes.mem_entries {h u : BlockId} (hh : f.Reachable h) :
    u ∈ g.entries (g.loopAt h) ↔ Flow.Enters f.Edge Function.entry h u := by
  rw [hg.entries_loopAt hf hh, List.mem_filter, hg.mem_preds hf, Bool.not_eq_true',
    ← Bool.not_eq_true, hg.isBackEdge_iff hf]
  exact ⟨fun ⟨⟨hr, he⟩, hd⟩ => ⟨hr, he, hd⟩, fun ⟨hr, he, hd⟩ => ⟨⟨hr, he⟩, hd⟩⟩

omit hf in
theorem Describes.nodup_entries (l : NaturalLoop) : (g.entries l).Nodup :=
  (hg.nodup_preds _).filter _

omit hf in
theorem Describes.nodup_sharedHeaders : g.sharedHeaders.Nodup := hg.depthFirst.nodup.filter _

theorem Describes.latches_ne_nil {h : BlockId} :
    g.latches h ≠ [] ↔ ∃ u, Flow.IsBack f.Edge Function.entry u h := by
  constructor
  · intro hne
    obtain ⟨u, hu⟩ := List.exists_mem_of_ne_nil _ hne
    exact ⟨u, (hg.mem_latches hf).1 hu⟩
  · rintro ⟨u, hu⟩ hnil
    have := (hg.mem_latches hf).2 hu
    rw [hnil] at this
    cases this

theorem Describes.hasIrreducible_eq : ∃ found, g.hasIrreducible f = .ok found ∧
    (found = false ↔ Flow.Reducible f.Edge Function.entry) := by
  have htest : ∀ b ∈ f.blocks, (g.succs b.id).anyM (g.testIrreducible b.id) =
      .ok ((g.succs b.id).any (g.isIrreducible b.id)) := by
    intro b hb
    refine anyM_eq_ok fun t ht => ?_
    rw [testIrreducible, if_pos]
    rw [hg.count_eq]
    exact hf.edge_lt (hg.mem_succs.1 ht)
  refine ⟨_, anyM_eq_ok htest, ?_⟩
  rw [← hg.reducible_iff hf]
  simp only [List.any_eq_false, Bool.not_eq_true, hg.mem_succs]
  constructor
  · intro h u v he
    have ⟨b, hb, _⟩ := he
    have := h b (List.mem_of_getElem? hb) v
    rw [hf.id_eq hb] at this
    exact this he
  · exact fun h b _ v he => h b.id v he

end

end FlowGraph

namespace Function

/-- No loop has two entries. -/
def SingleEntry (f : Function) : Prop :=
  ∀ h, (∃ u, Flow.IsBack f.Edge entry u h) →
    ∀ u v, Flow.Enters f.Edge entry h u → Flow.Enters f.Edge entry h v → u = v

/-- The header of a loop with two entries. -/
def Shared (f : Function) (h : BlockId) : Prop :=
  (∃ u, Flow.IsBack f.Edge entry u h) ∧
    ∃ u v, u ≠ v ∧ Flow.Enters f.Edge entry h u ∧ Flow.Enters f.Edge entry h v

theorem mem_sharedHeaders_iff {f : Function} {g : FlowGraph} (hf : f.Numbered)
    (hg : g.Describes f) {h : BlockId} : h ∈ g.sharedHeaders ↔ f.Shared h := by
  rw [FlowGraph.mem_sharedHeaders, hg.mem_order, hg.latches_ne_nil hf]
  constructor
  · rintro ⟨hh, hback, hlt⟩
    refine ⟨hback, ?_⟩
    have hnd := hg.nodup_entries (g.loopAt h)
    have hmem := fun u => (hg.mem_entries hf (u := u) hh).1
    cases hes : g.entries (g.loopAt h) with
    | nil =>
      rw [hes] at hlt
      exact absurd hlt (Nat.not_lt_zero 1)
    | cons u us =>
      rw [hes] at hlt hnd hmem
      obtain ⟨v, hv⟩ := List.exists_mem_of_length_pos (Nat.lt_of_succ_lt_succ hlt)
      refine ⟨u, v, ?_, hmem u List.mem_cons_self, hmem v (List.mem_cons_of_mem _ hv)⟩
      rintro rfl
      exact (List.nodup_cons.1 hnd).1 hv
  · rintro ⟨hback, u, v, huv, hu, hv⟩
    have hh : f.Reachable h := hu.reaches.tail hu.edge
    refine ⟨hh, hback, ?_⟩
    have hsub : [u, v] ⊆ g.entries (g.loopAt h) := by
      simp [(hg.mem_entries hf hh).2 hu, (hg.mem_entries hf hh).2 hv]
    exact ((List.nodup_cons.2 ⟨by simpa using huv, List.nodup_singleton v⟩).subperm hsub).length_le

theorem singleEntry_iff {f : Function} : f.SingleEntry ↔ ∀ h, ¬ f.Shared h := by
  constructor
  · rintro hsingle h ⟨hback, u, v, huv, hu, hv⟩
    exact huv (hsingle h hback u v hu hv)
  · intro hnone h hback u v hu hv
    by_contra huv
    exact hnone h ⟨hback, u, v, huv, hu, hv⟩

theorem sharedLoop?_eq_none_iff {f : Function} {g : FlowGraph} (hf : f.Numbered)
    (hg : g.Describes f) : g.sharedLoop? = none ↔ f.SingleEntry := by
  rw [FlowGraph.sharedLoop?_eq_none, List.eq_nil_iff_forall_not_mem, singleEntry_iff]
  simp only [mem_sharedHeaders_iff hf hg]

/-! ## One round -/

section
variable {f : Function} {header : BlockId} {entries : List BlockId} {fresh : InstId} {h : Block}
  (hE : f.Entered header entries fresh h)
include hE

theorem Entered.isBack_iff {u v : BlockId} :
    Flow.IsBack (f.withPreheader header entries fresh h).Edge entry u v ↔
      Flow.IsBack f.Edge entry u v := by
  rw [hE.edge_eq]
  exact hE.redirectable.isBack_iff

theorem Entered.reachable_iff {b : BlockId} (hb : b ≠ f.blocks.length) :
    (f.withPreheader header entries fresh h).Reachable b ↔ f.Reachable b := by
  unfold Reachable
  rw [hE.edge_eq]
  exact hE.redirectable.reaches_iff hb

theorem Entered.reachable_new :
    (f.withPreheader header entries fresh h).Reachable f.blocks.length := by
  unfold Reachable
  rw [hE.edge_eq]
  exact hE.redirectable.reaches_new

theorem Entered.enters_header {u : BlockId}
    (hu : Flow.Enters (f.withPreheader header entries fresh h).Edge entry header u) :
    u = f.blocks.length := by
  refine (hE.edge_header.1 hu.edge).resolve_left ?_
  rintro ⟨he, hent⟩
  have hlt := (hE.wellFormed.edge_lt he).1
  have hr := (hE.reachable_iff (Nat.ne_of_lt hlt)).1 hu.reaches
  refine hent (hE.mem_entries.2 ⟨hr, he, fun hd => hu.not_dominates ?_⟩)
  rw [hE.edge_eq]
  exact (hE.redirectable.dominates_iff_old hE.redirectable.head_ne_new (Nat.ne_of_lt hlt)).2 hd

theorem Entered.enters_other {u v : BlockId} (hv : v ≠ header) (hn : v ≠ f.blocks.length) :
    Flow.Enters (f.withPreheader header entries fresh h).Edge entry v u ↔
      Flow.Enters f.Edge entry v u := by
  have hold : ∀ {u}, f.Edge u v → (Flow.Dominates
      (f.withPreheader header entries fresh h).Edge entry v u ↔ Flow.Dominates f.Edge entry v u) := by
    intro u he
    rw [hE.edge_eq]
    exact hE.redirectable.dominates_iff_old hn (Nat.ne_of_lt (hE.wellFormed.edge_lt he).1)
  constructor
  · rintro ⟨hr, he, hd⟩
    replace he := (hE.edge_other hv hn).1 he
    have hlt := Nat.ne_of_lt (hE.wellFormed.edge_lt he).1
    exact ⟨(hE.reachable_iff hlt).1 hr, he, mt (hold he).2 hd⟩
  · rintro ⟨hr, he, hd⟩
    have hlt := Nat.ne_of_lt (hE.wellFormed.edge_lt he).1
    exact ⟨(hE.reachable_iff hlt).2 hr, (hE.edge_other hv hn).2 he, mt (hold he).1 hd⟩

/-- A round takes the second entry from one loop, and leaves the others as they are. -/
theorem Entered.shared_iff {b : BlockId} :
    (f.withPreheader header entries fresh h).Shared b ↔ f.Shared b ∧ b ≠ header := by
  unfold Shared
  simp only [hE.isBack_iff]
  constructor
  · rintro ⟨⟨l, hl⟩, u, v, huv, hu, hv⟩
    have hne : b ≠ header := by
      rintro rfl
      exact huv ((hE.enters_header hu).trans (hE.enters_header hv).symm)
    have hn := Nat.ne_of_lt (hE.wellFormed.edge_lt hl.1).2
    exact ⟨⟨⟨l, hl⟩, u, v, huv, (hE.enters_other hne hn).1 hu, (hE.enters_other hne hn).1 hv⟩, hne⟩
  · rintro ⟨⟨⟨l, hl⟩, u, v, huv, hu, hv⟩, hne⟩
    have hn := Nat.ne_of_lt (hE.wellFormed.edge_lt hl.1).2
    exact ⟨⟨l, hl⟩, u, v, huv, (hE.enters_other hne hn).2 hu, (hE.enters_other hne hn).2 hv⟩

theorem Entered.mem_sharedHeaders {g g' : FlowGraph} (hg : g.Describes f)
    (hg' : g'.Describes (f.withPreheader header entries fresh h)) {b : BlockId} :
    b ∈ g'.sharedHeaders ↔ b ∈ g.sharedHeaders ∧ b ≠ header := by
  rw [mem_sharedHeaders_iff hE.numbered hg', mem_sharedHeaders_iff hE.wellFormed.toNumbered hg,
    hE.shared_iff]

theorem Entered.perm_sharedHeaders {g g' : FlowGraph} (hg : g.Describes f)
    (hg' : g'.Describes (f.withPreheader header entries fresh h)) :
    g'.sharedHeaders.Perm (g.sharedHeaders.erase header) := by
  refine (List.perm_ext_iff_of_nodup hg'.nodup_sharedHeaders (hg.nodup_sharedHeaders.erase _)).2
    fun b => ?_
  rw [hE.mem_sharedHeaders hg hg', hg.nodup_sharedHeaders.mem_erase_iff, and_comm]

end

/-- One round of preheader insertion. -/
def Round (f f' : Function) : Prop :=
  ∃ header entries fresh h, f.Entered header entries fresh h ∧
    f' = f.withPreheader header entries fresh h

theorem Round.wellFormed {f f' : Function} (hr : Round f f') : f'.WellFormed := by
  obtain ⟨header, entries, fresh, h, hE, rfl⟩ := hr
  exact hE.wellFormed'

theorem Round.reducible {f f' : Function} (hr : Round f f')
    (h : Flow.Reducible f.Edge entry) : Flow.Reducible f'.Edge entry := by
  obtain ⟨header, entries, fresh, h, hE, rfl⟩ := hr
  rw [hE.edge_eq]
  exact hE.redirectable.reducible ‹_›

theorem Round.isBack_iff {f f' : Function} (hr : Round f f') {u v : BlockId} :
    Flow.IsBack f'.Edge entry u v ↔ Flow.IsBack f.Edge entry u v := by
  obtain ⟨header, entries, fresh, h, hE, rfl⟩ := hr
  exact hE.isBack_iff

/-- What one round keeps, all rounds keep. -/
theorem rounds_iff {P : Function → Prop} (hP : ∀ {f f'}, Round f f' → (P f' ↔ P f)) {f f' : Function}
    (hr : ReflTransGen Round f f') : P f' ↔ P f := by
  induction hr with
  | refl => exact Iff.rfl
  | tail _ hr ih => exact (hP hr).trans ih

/-- Rounds neither open nor close a way that takes no back edge. -/
theorem forward_iff {f f' : Function} (hr : ReflTransGen Round f f') {u v : BlockId}
    (hu : u < f.blocks.length) (hv : v < f.blocks.length) :
    TransGen (Flow.IsForward f'.Edge entry) u v ↔ TransGen (Flow.IsForward f.Edge entry) u v := by
  induction hr using ReflTransGen.head_induction_on with
  | refl => exact Iff.rfl
  | head hround _ ih =>
    obtain ⟨header, entries, fresh, h, hE, rfl⟩ := hround
    rw [withPreheader_length] at ih
    rw [ih (Nat.lt_succ_of_lt hu) (Nat.lt_succ_of_lt hv), hE.edge_eq]
    exact hE.redirectable.transGen_iff (Nat.ne_of_lt hu) (Nat.ne_of_lt hv)

/-! ## Identifiers -/

/-- The phis of a block. -/
def phisAt (f : Function) (b : BlockId) : Nat := f.blocks[b]?.elim 0 fun b => b.phis.length

def phiCount (f : Function) : Nat := (f.blocks.map fun b => b.phis.length).sum

theorem sum_le_of_subperm {α : Type} {xs ys : List α} {k : α → Nat} (h : xs.Subperm ys) :
    (xs.map k).sum ≤ (ys.map k).sum := by
  obtain ⟨zs, hperm, hsub⟩ := h
  rw [← (hperm.map k).sum_eq]
  exact (hsub.map k).sum_le_sum fun _ _ => Nat.zero_le _

/-- How many phis there are still to be cut in two. -/
def pending (f : Function) (g : FlowGraph) : Nat := (g.sharedHeaders.map f.phisAt).sum

/-- What is counted block by block, from the phis of each. -/
theorem map_phisAt_range (f : Function) (k : Nat → Nat) :
    (List.range f.blocks.length).map (fun b => k (f.phisAt b)) =
      f.blocks.map fun b => k b.phis.length := by
  refine List.ext_getElem (by simp) fun i h₁ h₂ => ?_
  have hi : i < f.blocks.length := by simpa using h₁
  simp [phisAt, List.getElem?_eq_getElem hi]

theorem pending_le_phiCount {f : Function} {g : FlowGraph} (hf : f.Numbered) (hg : g.Describes f) :
    f.pending g ≤ f.phiCount := by
  have hsub : g.sharedHeaders ⊆ List.range f.blocks.length := fun h hh =>
    List.mem_range.2 (hf.reachable_lt (hg.mem_order.1 (FlowGraph.mem_sharedHeaders.1 hh).1))
  rw [phiCount, ← f.map_phisAt_range fun n => n]
  exact sum_le_of_subperm (hg.nodup_sharedHeaders.subperm hsub)

theorem phis_le_pending {f : Function} {g : FlowGraph} {header : BlockId} {h : Block}
    (hmem : header ∈ g.sharedHeaders) (hh : f.blocks[header]? = some h) :
    h.phis.length ≤ f.pending g := by
  have hphis : f.phisAt header = h.phis.length := by rw [phisAt, hh, Option.elim_some]
  rw [← hphis]
  exact List.single_le_sum (fun _ _ => Nat.zero_le _) _ (List.mem_map_of_mem hmem)

/-- Cutting phis in two leaves one in place. -/
theorem phisAt_withPreheader {f : Function} {header : BlockId} {entries : List BlockId}
    {fresh : InstId} {h : Block} {b : BlockId} (hb : b < f.blocks.length) :
    (f.withPreheader header entries fresh h).phisAt b = f.phisAt b := by
  rw [phisAt, withPreheader_old (List.getElem?_eq_getElem hb), phisAt, List.getElem?_eq_getElem hb,
    Option.elim_some, Option.elim_some, length_phis_reroute]

/-- A round takes the phis of its header from those that are pending. -/
theorem Entered.pending_add_eq {f : Function} {header : BlockId} {entries : List BlockId}
    {fresh : InstId} {h : Block} (hE : f.Entered header entries fresh h) {g g' : FlowGraph}
    (hg : g.Describes f) (hg' : g'.Describes (f.withPreheader header entries fresh h))
    (hmem : header ∈ g.sharedHeaders) :
    (f.withPreheader header entries fresh h).pending g' + h.phis.length = f.pending g := by
  have hphis : f.phisAt header = h.phis.length := by rw [phisAt, hE.header_eq, Option.elim_some]
  have hsame : g'.sharedHeaders.map (f.withPreheader header entries fresh h).phisAt =
      g'.sharedHeaders.map f.phisAt := by
    refine List.map_congr_left fun b hb => ?_
    exact phisAt_withPreheader (hE.wellFormed.reachable_lt (hg.mem_order.1
      (FlowGraph.mem_sharedHeaders.1 ((hE.mem_sharedHeaders hg hg').1 hb).1).1))
  rw [pending, hsame, ((hE.perm_sharedHeaders hg hg').map f.phisAt).sum_eq, pending,
    ← List.sum_map_erase f.phisAt hmem, hphis, Nat.add_comm]

theorem phiCount_le_length_results (f : Function) : f.phiCount ≤ f.results.length := by
  rw [phiCount, results, List.length_flatMap]
  refine List.sum_le_sum fun b _ => ?_
  have hphis : (b.phis.filterMap Instr.result?).length = b.phis.length := by
    refine List.filterMap_length_eq_length.2 fun i hi => ?_
    have hphi := isPhi_of_mem_phis hi
    cases i with
    | phi dest ty incoming => rfl
    | _ => cases hphi
  rw [← b.phis_append, List.filterMap_append, List.length_append, hphis]
  exact Nat.le_add_right _ _

/-- Room above each identifier is room above all of them. -/
theorem idBound_add_le {f : Function} {k : Nat} (hk : k ≤ f.phiCount)
    (hroom : ∀ id ∈ f.results, id + k < idLimit) : f.idBound + k ≤ idLimit := by
  have hbound : f.idBound ≤ idLimit - k := idBound_le fun id hid => Nat.lt_sub_of_add_lt (hroom id hid)
  have hle := f.phiCount_le_length_results
  cases hids : f.results with
  | nil =>
    rw [hids, List.length_nil] at hle
    omega
  | cons id ids =>
    have hlt := hroom id (hids ▸ List.mem_cons_self)
    have hkl : k < idLimit := Nat.lt_of_le_of_lt (Nat.le_add_left _ _) hlt
    omega

/-! ## All rounds -/

/-- The loop that a round is for. -/
theorem entered_of_sharedLoop? {f : Function} {g : FlowGraph} (hf : f.WellFormed)
    (hg : g.Describes f) {header : BlockId} {entries : List BlockId}
    (hs : g.sharedLoop? = some (header, entries)) {h : Block} (hh : f.blocks[header]? = some h) :
    f.Entered header entries f.idBound h := by
  obtain ⟨hmem, rfl⟩ := FlowGraph.mem_of_sharedLoop? hs
  obtain ⟨hord, -, hlt⟩ := FlowGraph.mem_sharedHeaders.1 hmem
  have hr := hg.mem_order.1 hord
  refine ⟨hf, hh, hg.mem_entries hf.toNumbered hr, ?_, fun _ => lt_idBound⟩
  exact List.ne_nil_of_length_pos (Nat.lt_trans Nat.zero_lt_one hlt)

theorem addPreheaders_cases (fuel : Nat) {f : Function} {g : FlowGraph} (hf : f.WellFormed)
    (hg : g.Describes f) (hfuel : g.sharedHeaders.length < fuel)
    (hgf : FlowGraph.ofFunction f = .ok g) :
    (addPreheaders fuel f = .error .overflow ∧ idLimit < f.idBound + f.pending g) ∨
      ∃ f', addPreheaders fuel f = .ok f' ∧ ReflTransGen Round f f' ∧
        (Flow.Reducible f.Edge entry → f'.SingleEntry) ∧
        (¬ Flow.Reducible f.Edge entry → f' = f) := by
  induction fuel generalizing f g with
  | zero => omega
  | succ fuel ih =>
    obtain ⟨found, hirr, hred⟩ := hg.hasIrreducible_eq hf.toNumbered
    simp only [addPreheaders, hgf, hirr, ok_bind]
    cases found with
    | true =>
      have hnot : ¬ Flow.Reducible f.Edge entry := fun h => Bool.noConfusion (hred.2 h)
      exact .inr ⟨f, rfl, .refl, fun h => absurd h hnot, fun _ => rfl⟩
    | false =>
      have hred := hred.1 rfl
      rw [if_neg Bool.false_ne_true]
      cases hs : g.sharedLoop? with
      | none =>
        exact .inr ⟨f, rfl, .refl, fun _ => (sharedLoop?_eq_none_iff hf.toNumbered hg).1 hs,
          fun h => absurd hred h⟩
      | some loop =>
        obtain ⟨header, entries⟩ := loop
        obtain ⟨hmem, -⟩ := FlowGraph.mem_of_sharedLoop? hs
        have hlt := hf.reachable_lt (hg.mem_order.1 (FlowGraph.mem_sharedHeaders.1 hmem).1)
        rcases addPreheader_cases f entries (List.getElem?_eq_getElem hlt) with
          ⟨hadd, hshort⟩ | hadd
        · refine .inl ⟨by simp only [hadd, error_bind], hshort.trans_le ?_⟩
          exact Nat.add_le_add_left (phis_le_pending hmem (List.getElem?_eq_getElem hlt)) _
        simp only [hadd, ok_bind]
        have hE := entered_of_sharedLoop? hf hg hs (List.getElem?_eq_getElem hlt)
        obtain ⟨g', hgf', hg'⟩ := FlowGraph.ofFunction_eq hE.numbered
        -- this header is not shared any more, so the fuel for the other rounds is there
        have hle := Nat.le_of_eq (hE.perm_sharedHeaders hg hg').length_eq
        rw [List.length_erase_of_mem hmem] at hle
        have hround : Round f _ := ⟨header, entries, f.idBound, _, hE, rfl⟩
        rcases ih hE.wellFormed' hg' (by have := List.length_pos_of_mem hmem; omega) hgf' with
          ⟨h, hshort⟩ | ⟨f', hf', hrounds, hsingle, -⟩
        · have hids : (f.withPreheader header entries f.idBound f.blocks[header]).idBound = _ :=
            idBound_withPreheader
          have hpending := hE.pending_add_eq hg hg' hmem
          exact .inl ⟨h, by omega⟩
        · exact .inr ⟨f', hf', hrounds.head hround, fun _ => hsingle (hround.reducible hred),
            fun h => absurd hred h⟩

/-- Preheader insertion ends after some rounds with one entry to each loop, unless it runs out of
identifiers; irreducible control flow it leaves alone. -/
theorem withPreheaders_cases {f : Function} (hf : f.WellFormed) :
    (f.withPreheaders = .error .overflow ∧ ∃ id ∈ f.results, idLimit ≤ id + f.phiCount) ∨
      ∃ f', f.withPreheaders = .ok f' ∧ ReflTransGen Round f f' ∧
        (Flow.Reducible f.Edge entry → f'.SingleEntry) ∧
        (¬ Flow.Reducible f.Edge entry → f' = f) := by
  obtain ⟨g, hgf, hg⟩ := FlowGraph.ofFunction_eq hf.toNumbered
  have h₁ : g.sharedHeaders.length ≤ g.order.length := List.length_filter_le _ _
  have h₂ := hg.length_order_le hf.toNumbered
  refine (addPreheaders_cases (f.blocks.length + 1) hf hg (by omega) hgf).imp_left ?_
  rintro ⟨h, hshort⟩
  refine ⟨h, ?_⟩
  by_contra! hroom
  have hpending := pending_le_phiCount hf.toNumbered hg
  have hbound := idBound_add_le (Nat.le_refl _) hroom
  omega

theorem wellFormed_of_rounds {f f' : Function} (hf : f.WellFormed)
    (h : ReflTransGen Round f f') : f'.WellFormed := by
  cases h with
  | refl => exact hf
  | tail _ hr => exact hr.wellFormed

end Function

end Dataflow
