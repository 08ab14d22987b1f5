import Dataflow.Lower.Preheader
import Dataflow.Proofs.Flow.Graph
import Dataflow.Proofs.Outcome
import Dataflow.Ssa.WellFormed
import Mathlib.Data.List.Nodup

/-!
# Which functions the check accepts

`Function.WellFormed` says without the check what a well-formed function is, and
`Function.check_eq_ok_iff` that the check accepts exactly these functions.
-/

namespace Dataflow

open Relation

namespace Function

/-- The value exists in the function. -/
def Defines (f : Function) : Value → Prop
  | .arg i => i < f.params.length
  | .global g => g < f.globals.length
  | .const _ => True
  | .inst id => id ∈ f.results

/-- What every well-formed function has. -/
structure WellFormed (f : Function) : Prop extends f.Numbered where
  phis_first : ∀ b ∈ f.blocks, ∀ i ∈ b.body.dropWhile Instr.isPhi, i.isPhi = false
  nodup_results : f.results.Nodup
  entry_untargeted : ∀ u, ¬ f.Edge u entry
  operands : ∀ b ∈ f.blocks, ∀ i ∈ b.body, ∀ v ∈ i.operands, f.Defines v
  exit_operands : ∀ b ∈ f.blocks, ∀ v ∈ b.exit.operands, f.Defines v
  entries : ∀ b ∈ f.blocks, ∀ {dest ty incoming}, Instr.phi dest ty incoming ∈ b.body →
    (incoming.map (·.1)).Nodup ∧ ∀ p, p ∈ incoming.map (·.1) ↔ f.Edge p b.id

/-! ## The shape of the blocks -/

/-- No phi comes behind another instruction, or none at all if one has been seen. -/
def PhisFirst (pastPhis : Bool) (body : List Instr) : Prop :=
  ∀ i ∈ if pastPhis then body else body.dropWhile Instr.isPhi, i.isPhi = false

theorem phisFirst_cons {pastPhis : Bool} {i : Instr} {body : List Instr} :
    PhisFirst pastPhis (i :: body) ↔
      (i.isPhi && pastPhis) = false ∧ PhisFirst (!i.isPhi) body := by
  cases hi : i.isPhi <;> cases pastPhis <;> simp [PhisFirst, hi]

theorem foldlM_scanInstr {block : BlockId} {body : List Instr} {s : Scan}
    (hs : s.defined.Nodup) {ids : List InstId} :
    (∃ pastPhis, body.foldlM (scanInstr block) s = .ok ⟨ids, pastPhis⟩) ↔
      PhisFirst s.pastPhis body ∧ ids.Nodup ∧
        ids = (body.filterMap Instr.result?).reverse ++ s.defined := by
  induction body generalizing s with
  | nil =>
    obtain ⟨defined, pastPhis⟩ := s
    simp only [List.foldlM_nil, pure_eq_ok, Scan.mk.injEq, List.filterMap_nil, List.reverse_nil,
      List.nil_append]
    constructor
    · rintro ⟨p, rfl, -⟩
      exact ⟨by cases pastPhis <;> simp [PhisFirst], hs, rfl⟩
    · rintro ⟨-, -, rfl⟩
      exact ⟨_, rfl, rfl⟩
  | cons i body ih =>
    -- the scan keeps the identifiers with the latest one first
    rw [List.foldlM_cons, phisFirst_cons]
    cases hr : i.result? with
    | none =>
      rw [List.filterMap_cons_none hr]
      by_cases hp : (i.isPhi && s.pastPhis) = true
      · simp [scanInstr, hp, throw, throwThe, MonadExceptOf.throw, bind, Except.bind]
      · have hstep : scanInstr block s i = .ok { s with pastPhis := !i.isPhi } := by
          simp [scanInstr, hp, hr, pure, Except.pure]
        rw [hstep, ok_bind, @ih { s with pastPhis := !i.isPhi } hs]
        simp [hp]
    | some id =>
      rw [List.filterMap_cons_some hr, List.reverse_cons, List.append_assoc, List.singleton_append]
      by_cases hp : (i.isPhi && s.pastPhis) = true
      · simp [scanInstr, hp, throw, throwThe, MonadExceptOf.throw, bind, Except.bind]
      by_cases hid : id ∈ s.defined
      · have hstep : scanInstr block s i = .error (.illFormed (.reusedId id)) := by
          simp [scanInstr, hp, hr, hid, throw, throwThe, MonadExceptOf.throw]
        rw [hstep]
        simp only [error_bind, reduceCtorEq, exists_const, false_iff, not_and]
        rintro - hnd rfl
        exact (List.nodup_cons.1 (List.nodup_append.1 hnd).2.1).1 hid
      · have hstep : scanInstr block s i =
            .ok { defined := id :: s.defined, pastPhis := !i.isPhi } := by
          simp [scanInstr, hp, hr, hid, pure, Except.pure]
        rw [hstep, ok_bind, ih (List.nodup_cons.2 ⟨hid, hs⟩)]
        simp [hp]

/-- What the first pass asks of a block at position `i`. -/
structure Shaped (count : Nat) (i : Nat) (b : Block) : Prop where
  id_eq : b.id = i
  phis_first : ∀ j ∈ b.body.dropWhile Instr.isPhi, j.isPhi = false
  target_lt : ∀ t ∈ b.exit.targets, t < count

/-- The identifiers a block defines. -/
def blockResults (b : Block) : List InstId := b.body.filterMap Instr.result?

theorem scanBlock_eq_ok {count : Nat} {defined ids : List InstId} {b : Block} {i : Nat}
    (hd : defined.Nodup) :
    scanBlock count defined (b, i) = .ok ids ↔
      Shaped count i b ∧ ids.Nodup ∧ ids = (blockResults b).reverse ++ defined := by
  have hfold := @foldlM_scanInstr b.id b.body { defined } hd ids
  have htargets : b.exit.targets.forM (scanTarget count b.id) = .ok () ↔
      ∀ t ∈ b.exit.targets, t < count := by
    rw [forM_eq_ok]
    refine forall₂_congr fun t _ => ?_
    by_cases ht : t < count <;> simp [scanTarget, ht]
  simp only [scanBlock, throw_bind, guard_eq_ok, bind_eq_ok, pure_eq_ok]
  constructor
  · rintro ⟨hid, s, hs, ⟨⟩, ht, rfl⟩
    obtain ⟨hp, hnd, hids⟩ := hfold.1 ⟨s.pastPhis, hs⟩
    exact ⟨⟨not_not.1 hid, hp, htargets.1 ht⟩, hnd, hids⟩
  · rintro ⟨⟨hid, hp, ht⟩, hnd, hids⟩
    obtain ⟨p, hs⟩ := hfold.2 ⟨hp, hnd, hids⟩
    exact ⟨not_not.2 hid, _, hs, (), htargets.2 ht, rfl⟩

theorem foldlM_scanBlock {count k : Nat} {defined ids : List InstId} {bs : List Block}
    (hd : defined.Nodup) :
    (bs.zipIdx k).foldlM (scanBlock count) defined = .ok ids ↔
      (∀ i b, bs[i]? = some b → Shaped count (k + i) b) ∧ ids.Nodup ∧
        ids = (bs.flatMap blockResults).reverse ++ defined := by
  induction bs generalizing k defined with
  | nil =>
    simp only [List.zipIdx_nil, List.foldlM_nil, pure_eq_ok, List.flatMap_nil, List.reverse_nil,
      List.nil_append, List.getElem?_nil, reduceCtorEq, false_implies, implies_true, true_and]
    exact ⟨fun h => ⟨h ▸ hd, h.symm⟩, fun h => h.2.symm⟩
  | cons b bs ih =>
    rw [List.zipIdx_cons, List.foldlM_cons, bind_eq_ok]
    have hshape : (∀ i c, (b :: bs)[i]? = some c → Shaped count (k + i) c) ↔
        Shaped count k b ∧ ∀ i c, bs[i]? = some c → Shaped count (k + 1 + i) c := by
      constructor
      · intro h
        refine ⟨h 0 b rfl, fun i c hc => ?_⟩
        rw [Nat.add_assoc, Nat.add_comm 1 i]
        exact h (i + 1) c hc
      · rintro ⟨hb, hbs⟩ (_ | i) c hc
        · rw [List.getElem?_cons_zero, Option.some.injEq] at hc
          exact hc ▸ hb
        · rw [Nat.add_comm i 1, ← Nat.add_assoc]
          exact hbs i c hc
    rw [hshape, List.flatMap_cons, List.reverse_append, List.append_assoc]
    constructor
    · rintro ⟨ids', hb, hbs⟩
      obtain ⟨hsb, hnd, rfl⟩ := (scanBlock_eq_ok hd).1 hb
      obtain ⟨hs, hnd', rfl⟩ := (ih hnd).1 hbs
      exact ⟨⟨hsb, hs⟩, hnd', rfl⟩
    · rintro ⟨⟨hsb, hs⟩, hnd, rfl⟩
      have hnd' : ((blockResults b).reverse ++ defined).Nodup := (List.nodup_append.1 hnd).2.1
      exact ⟨_, (scanBlock_eq_ok hd).2 ⟨hsb, hnd', rfl⟩, (ih hnd').2 ⟨hs, hnd, rfl⟩⟩

theorem scan_eq_ok {f : Function} {ids : List InstId} :
    f.scan = .ok ids ↔ (∀ i b, f.blocks[i]? = some b → Shaped f.blocks.length i b) ∧
      f.results.Nodup ∧ ids = f.results.reverse := by
  have h := @foldlM_scanBlock f.blocks.length 0 [] ids f.blocks List.nodup_nil
  simp only [Nat.zero_add, List.append_nil] at h
  refine h.trans (and_congr_right fun _ => ?_)
  constructor
  · rintro ⟨hnd, rfl⟩
    exact ⟨List.nodup_reverse.1 hnd, rfl⟩
  · rintro ⟨hnd, rfl⟩
    exact ⟨List.nodup_reverse.2 hnd, rfl⟩

/-! ## The operands -/

theorem ascending_eq_ascending {xs ys : List Nat} : ascending xs = ascending ys ↔ xs.Perm ys := by
  constructor
  · intro h
    exact (sortBy_perm _ xs).symm.trans (by rw [show sortBy _ xs = _ from h]; exact sortBy_perm _ ys)
  · intro h
    refine List.Perm.eq_of_pairwise ?_ (ascending_sorted xs) (ascending_sorted ys) ?_
    · exact fun a b _ _ h₁ h₂ => Nat.le_antisymm h₁ h₂
    · exact ((sortBy_perm _ xs).trans h).trans (sortBy_perm _ ys).symm

theorem checkValue_eq_ok {f : Function} {v : Value} :
    f.checkValue f.results.reverse v = .ok () ↔ f.Defines v := by
  cases v <;> simp only [checkValue, Defines, List.mem_reverse] <;> split <;> simp_all

section
variable {f : Function} (hf : f.Numbered)
include hf

theorem Numbered.mem_sources {p t : BlockId} :
    p ∈ ((f.blocks.filter (t ∈ ·.exit.targets)).map Block.id).eraseDups ↔ f.Edge p t := by
  simp only [List.mem_eraseDups, List.mem_map, List.mem_filter, decide_eq_true_eq]
  constructor
  · rintro ⟨b, ⟨hb, ht⟩, rfl⟩
    obtain ⟨i, hi⟩ := List.mem_iff_getElem?.1 hb
    rw [hf.id_eq hi]
    exact ⟨b, hi, ht⟩
  · rintro ⟨b, hb, ht⟩
    exact ⟨b, ⟨List.mem_of_getElem? hb, ht⟩, hf.id_eq hb⟩

omit hf in
/-- Adding the blocks with a property one by one lists them once each. -/
theorem foldl_addSource (p : Block → Prop) [DecidablePred p] (bs : List Block) :
    bs.foldl (fun sources b => if p b then addSource b.id sources else sources) [] =
      ((bs.filter p).map Block.id).eraseDups := by
  induction bs using List.reverseRecOn with
  | nil => rfl
  | append_singleton bs b ih =>
    rw [List.foldl_append, ih, List.filter_append, List.map_append]
    by_cases hp : p b
    · simp only [List.foldl_cons, List.foldl_nil, List.filter_cons, List.filter_nil, hp, decide_true,
        if_true, List.map_cons, List.map_nil, eraseDups_concat, addSource, List.mem_eraseDups]
    · simp [hp]

omit hf in
theorem addSource_addSource (source : BlockId) (sources : List BlockId) :
    addSource source (addSource source sources) = addSource source sources := by
  by_cases h : source ∈ sources <;> simp [addSource, h]

theorem Numbered.predecessors_eq : f.predecessors =
    .ok ((List.range f.blocks.length).map fun i =>
      ascending ((f.blocks.filter (i ∈ ·.exit.targets)).map Block.id).eraseDups) := by
  have hstep : ∀ (table : List (List BlockId)) (b : Block) (v : Nat),
      (b.exit.targets.foldl (fun table t => table.modify t (addSource b.id)) table)[v]? =
        table[v]?.map fun r => if v ∈ b.exit.targets then addSource b.id r else r :=
    fun table b v => getElem?_foldl_modify (.inr (addSource_addSource b.id)) table v
  unfold predecessors
  rw [if_pos]
  · refine congrArg Except.ok (List.ext_getElem? fun v => ?_)
    rw [List.getElem?_map, getElem?_foldl_rows hstep, List.getElem?_replicate, List.getElem?_map]
    by_cases hv : v < f.blocks.length
    · rw [if_pos hv, List.getElem?_range hv, Option.map_some, Option.map_some, Option.map_some,
        foldl_addSource (v ∈ ·.exit.targets)]
    · rw [if_neg hv, List.getElem?_eq_none (by simpa using hv)]
      rfl
  · simp only [List.all_eq_true, decide_eq_true_eq]
    intro b hb
    obtain ⟨i, hi⟩ := List.mem_iff_getElem?.1 hb
    exact hf.target_lt hi

theorem Numbered.lookup_predecessors {preds : List (List BlockId)}
    (hp : f.predecessors = .ok preds) {t : BlockId} (ht : t < f.blocks.length) :
    lookup preds t =
      .ok (ascending ((f.blocks.filter (t ∈ ·.exit.targets)).map Block.id).eraseDups) := by
  rw [hf.predecessors_eq, Except.ok.injEq] at hp
  rw [lookup_eq_ok, ← hp]
  simp [ht]

theorem Numbered.checkEntries_eq_ok {t : BlockId} {i : Instr} :
    checkEntries (ascending ((f.blocks.filter (t ∈ ·.exit.targets)).map Block.id).eraseDups) i =
      .ok () ↔ ∀ {dest ty incoming}, i = .phi dest ty incoming →
        (incoming.map (·.1)).Nodup ∧ ∀ p, p ∈ incoming.map (·.1) ↔ f.Edge p t := by
  cases i with
  | phi dest ty incoming =>
    have hnd := nodup_eraseDups ((f.blocks.filter (t ∈ ·.exit.targets)).map Block.id)
    have key : ascending (incoming.map (·.1)) =
        ascending ((f.blocks.filter (t ∈ ·.exit.targets)).map Block.id).eraseDups ↔
        (incoming.map (·.1)).Nodup ∧ ∀ p, p ∈ incoming.map (·.1) ↔ f.Edge p t := by
      rw [ascending_eq_ascending]
      constructor
      · intro h
        exact ⟨h.nodup_iff.2 hnd, fun p => h.mem_iff.trans hf.mem_sources⟩
      · rintro ⟨h₁, h₂⟩
        exact (List.perm_ext_iff_of_nodup h₁ hnd).2 fun p => (h₂ p).trans hf.mem_sources.symm
    simp only [checkEntries]
    split
    · rename_i h
      refine iff_of_true rfl ?_
      rintro _ _ _ ⟨rfl, rfl, rfl⟩
      exact key.1 h
    · rename_i h
      exact iff_of_false (by simp) fun h' => h (key.2 (h' rfl))
  | _ => simp [checkEntries]

theorem Numbered.checkOperands_eq_ok {b : Block} (hb : b ∈ f.blocks)
    {preds : List (List BlockId)} (hp : f.predecessors = .ok preds) :
    f.checkOperands f.results.reverse preds b = .ok () ↔
      (∀ i ∈ b.body, (∀ v ∈ i.operands, f.Defines v) ∧
        ∀ {dest ty incoming}, i = .phi dest ty incoming →
          (incoming.map (·.1)).Nodup ∧ ∀ p, p ∈ incoming.map (·.1) ↔ f.Edge p b.id) ∧
      ∀ v ∈ b.exit.operands, f.Defines v := by
  have hid : b.id < f.blocks.length := by
    obtain ⟨i, hi⟩ := List.mem_iff_getElem?.1 hb
    rw [hf.id_eq hi]
    exact (List.getElem?_eq_some_iff.1 hi).1
  have hrow := hf.lookup_predecessors hp hid
  have hguard : ∀ i : Instr, ∀ preds, (if i.isPhi then checkEntries preds i else pure ()) =
      checkEntries preds i := by
    intro i preds
    cases i <;> rfl
  simp only [checkOperands, hrow, ok_bind, hguard, seq_eq_ok, forM_eq_ok, checkValue_eq_ok,
    hf.checkEntries_eq_ok]

end

/-- The check accepts exactly the well-formed functions. -/
theorem check_eq_ok_iff {f : Function} : f.check = .ok () ↔ f.WellFormed := by
  simp only [check, throw_bind, guard_eq_ok, guard_eq_ok', bind_eq_ok, scan_eq_ok, forM_eq_ok]
  constructor
  · rintro ⟨hne, _, ⟨hs, hnd, rfl⟩, preds, hp, row, hrow, hentry, hops⟩
    have hf : f.Numbered :=
      ⟨by simpa using hne, fun hb => (hs _ _ hb).id_eq, fun hb => (hs _ _ hb).target_lt⟩
    have hops := fun b hb => (hf.checkOperands_eq_ok hb hp).1 (hops b hb)
    refine ⟨hf, fun b hb => ?_, hnd, fun u hu => ?_, fun b hb i hi => ((hops b hb).1 i hi).1,
      fun b hb => (hops b hb).2, fun b hb _ _ _ hi => ((hops b hb).1 _ hi).2 rfl⟩
    · obtain ⟨i, hi⟩ := List.mem_iff_getElem?.1 hb
      exact (hs i b hi).phis_first
    · rw [hf.lookup_predecessors hp hf.entry_lt, Except.ok.injEq] at hrow
      rw [← hf.mem_sources, ← mem_ascending, hrow, List.isEmpty_iff.1 hentry] at hu
      exact absurd hu List.not_mem_nil
  · intro hf
    have hs : ∀ i b, f.blocks[i]? = some b → Shaped f.blocks.length i b := fun i b hb =>
      ⟨hf.id_eq hb, hf.phis_first b (List.mem_of_getElem? hb), hf.target_lt hb⟩
    have hp := hf.predecessors_eq
    refine ⟨by simpa using hf.nonempty, _, ⟨hs, hf.nodup_results, rfl⟩, _, hp, _,
      hf.lookup_predecessors hp hf.entry_lt, ?_, fun b hb => ?_⟩
    · rw [List.isEmpty_iff, List.eq_nil_iff_forall_not_mem]
      intro u hu
      exact hf.entry_untargeted u (hf.mem_sources.1 (mem_ascending.1 hu))
    · rw [hf.checkOperands_eq_ok hb hp]
      refine ⟨fun i hi => ⟨hf.operands b hb i hi, ?_⟩, hf.exit_operands b hb⟩
      rintro dest ty incoming rfl
      exact hf.entries b hb hi

/-! ## Where identifiers are defined -/

theorem mem_results {f : Function} {b : Block} (hb : b ∈ f.blocks) {i : Instr} (hi : i ∈ b.body)
    {id : InstId} (h : i.result? = some id) : id ∈ f.results :=
  List.mem_flatMap.2 ⟨b, hb, List.mem_filterMap.2 ⟨i, hi, h⟩⟩

/-- Two elements that share a value are one, if no value is listed twice. -/
theorem index_eq_of_flatMap {α β : Type} {xs : List α} {g : α → List β} (hnd : (xs.flatMap g).Nodup)
    {i j : Nat} {x y : α} {v : β} (hi : xs[i]? = some x) (hj : xs[j]? = some y) (hx : v ∈ g x)
    (hy : v ∈ g y) : i = j := by
  have hpairs := List.pairwise_iff_getElem.1 (List.nodup_flatMap.1 hnd).2
  obtain ⟨hil, rfl⟩ := List.getElem?_eq_some_iff.1 hi
  obtain ⟨hjl, rfl⟩ := List.getElem?_eq_some_iff.1 hj
  rcases Nat.lt_trichotomy i j with hij | hij | hij
  · exact (hpairs i j hil hjl hij hx hy).elim
  · exact hij
  · exact (hpairs j i hjl hil hij hy hx).elim

theorem index_eq_of_filterMap {α β : Type} {xs : List α} {g : α → Option β}
    (hnd : (xs.filterMap g).Nodup) {i j : Nat} {x y : α} {v : β} (hi : xs[i]? = some x)
    (hj : xs[j]? = some y) (hx : g x = some v) (hy : g y = some v) : i = j := by
  rw [List.filterMap_eq_flatMap_toList] at hnd
  exact index_eq_of_flatMap hnd hi hj (Option.mem_toList.2 hx) (Option.mem_toList.2 hy)

/-- An identifier is defined at one position only. -/
theorem WellFormed.position_unique {f : Function} (hf : f.WellFormed) {id : InstId}
    {b b' : BlockId} {c c' : Block} {k k' : Nat} {i i' : Instr}
    (hc : f.blocks[b]? = some c) (hi : c.body[k]? = some i) (hid : i.result? = some id)
    (hc' : f.blocks[b']? = some c') (hi' : c'.body[k']? = some i') (hid' : i'.result? = some id) :
    b = b' ∧ k = k' := by
  have hmem : ∀ {c : Block} {k : Nat} {i : Instr}, c.body[k]? = some i → i.result? = some id →
      id ∈ c.body.filterMap Instr.result? :=
    fun hi hid => List.mem_filterMap.2 ⟨_, List.mem_of_getElem? hi, hid⟩
  obtain rfl := index_eq_of_flatMap hf.nodup_results hc hc' (hmem hi hid) (hmem hi' hid')
  obtain rfl : c = c' := Option.some.inj (hc.symm.trans hc')
  have hbody := (List.nodup_flatMap.1 hf.nodup_results).1 c (List.mem_of_getElem? hc)
  exact ⟨rfl, index_eq_of_filterMap hbody hi hi' hid hid'⟩

end Function

end Dataflow
