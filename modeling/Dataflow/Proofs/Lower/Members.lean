import Dataflow.Proofs.Lower.Layout
import Mathlib.Data.List.Nodup

/-!
# The labels that are laid out

Which labels `Plan.baseLabels` has (`Sound.mem_baseLabels`), that it has none twice, and what the
blocks list in it: their phis, and their other instructions with the exit.
-/

namespace Dataflow

/-- The position in the function that a label belongs to; the exit stands behind all positions. -/
def Label.site? : Label → Option (BlockId × Option Nat)
  | .split b k | .splitArg b k _ | .instr b k => some (b, some k)
  | .exit b => some (b, none)
  | _ => none

namespace Plan

/-- The labels of the nodes that a plan is laid out with. -/
def Laid (p : Plan) : Label → Prop
  | .entry => True
  | .block b | .exit b => p.function.Reachable b
  | .param i => i < p.function.params.length
  | .split b k => p.function.Reachable b ∧
    ∃ dest callee args, p.instr? b k = some (.call dest callee args)
  | .splitArg b k j => p.function.Reachable b ∧
    ∃ dest callee args, p.instr? b k = some (.call dest callee args) ∧ j < args.length
  | .instr b k => p.function.Reachable b ∧ ∃ i, p.instr? b k = some i
  | .leaf _ | .unit _ | .loop _ => False

theorem mem_instrLabels {b : BlockId} {i : Instr} {k : Nat} {l : Label} :
    l ∈ instrLabels b (i, k) ↔ l = .instr b k ∨ ∃ dest callee args, i = .call dest callee args ∧
      (l = .split b k ∨ ∃ j < args.length, l = .splitArg b k j) := by
  cases i with
  | call dest callee args =>
    simp only [instrLabels, List.cons_append, List.mem_cons, List.mem_append, List.mem_map,
      List.mem_range, List.not_mem_nil, or_false, Instr.call.injEq]
    constructor
    · rintro (rfl | ⟨j, hj, rfl⟩ | rfl)
      · exact .inr ⟨dest, callee, args, ⟨rfl, rfl, rfl⟩, .inl rfl⟩
      · exact .inr ⟨dest, callee, args, ⟨rfl, rfl, rfl⟩, .inr ⟨j, hj, rfl⟩⟩
      · exact .inl rfl
    · rintro (rfl | ⟨_, _, _, ⟨rfl, rfl, rfl⟩, rfl | ⟨j, hj, rfl⟩⟩)
      · exact .inr (.inr rfl)
      · exact .inl rfl
      · exact .inr (.inl ⟨j, hj, rfl⟩)
  | _ => simp [instrLabels]

theorem mem_blockLabels {b : Block} {l : Label} : l ∈ blockLabels b ↔
    l = .exit b.id ∨ ∃ k i, b.body[k]? = some i ∧ l ∈ instrLabels b.id (i, k) := by
  simp only [blockLabels, List.mem_append, List.mem_flatMap, Prod.exists,
    List.mem_zipIdx_iff_getElem?, List.mem_singleton, or_comm]
  refine or_congr_right ⟨?_, ?_⟩
  · rintro ⟨i, k, h⟩
    exact ⟨k, i, h⟩
  · rintro ⟨k, i, h⟩
    exact ⟨i, k, h⟩

theorem site?_of_mem_instrLabels {b : BlockId} {i : Instr} {k : Nat} {l : Label}
    (h : l ∈ instrLabels b (i, k)) : l.site? = some (b, some k) := by
  obtain rfl | ⟨_, _, _, -, rfl | ⟨_, -, rfl⟩⟩ := mem_instrLabels.1 h <;> rfl

theorem site?_of_mem_blockLabels {b : Block} {l : Label} (h : l ∈ blockLabels b) :
    ∃ k, l.site? = some (b.id, k) := by
  obtain rfl | ⟨k, i, -, hl⟩ := mem_blockLabels.1 h
  · exact ⟨none, rfl⟩
  · exact ⟨some k, site?_of_mem_instrLabels hl⟩

theorem nodup_instrLabels (b : BlockId) (i : Instr) (k : Nat) : (instrLabels b (i, k)).Nodup := by
  cases i with
  | call dest callee args =>
    have hargs : ((List.range args.length).map (Label.splitArg b k)).Nodup :=
      List.nodup_range.map fun j j' h => by cases h; rfl
    simp only [instrLabels, List.cons_append, List.nodup_cons, List.mem_append, List.mem_map,
      List.mem_singleton, reduceCtorEq, and_false, exists_false, or_self, not_false_eq_true,
      true_and]
    exact hargs.append (List.nodup_singleton _) (by simp)
  | _ => exact List.nodup_singleton _

theorem nodup_blockLabels (b : Block) : (blockLabels b).Nodup := by
  refine List.Nodup.append (List.nodup_flatMap.2 ⟨fun i _ => nodup_instrLabels b.id i.1 i.2, ?_⟩)
    (List.nodup_singleton _) ?_
  · refine (pairwise_positions b.body).imp fun {i j} hij l hi hj => hij ?_
    have h := (site?_of_mem_instrLabels hi).symm.trans (site?_of_mem_instrLabels hj)
    simpa using h
  · intro l hl hexit
    obtain ⟨i, -, hi⟩ := List.mem_flatMap.1 hl
    rw [List.mem_singleton.1 hexit] at hi
    cases site?_of_mem_instrLabels hi

section
variable {p : Plan} (hp : p.Sound)
include hp

theorem Sound.instr?_eq {b : Block} (hb : b ∈ p.blocks) (k : Nat) :
    p.instr? b.id k = b.body[k]? := by
  rw [instr?, (hp.mem_blocks.1 hb).1, Option.bind_some]

theorem Sound.mem_baseLabels {l : Label} : l ∈ p.baseLabels ↔ p.Laid l := by
  have hbody : l ∈ p.blocks.flatMap blockLabels ↔ ∃ b ∈ p.blocks,
      l = .exit b.id ∨ ∃ k i, p.instr? b.id k = some i ∧ l ∈ instrLabels b.id (i, k) := by
    rw [List.mem_flatMap]
    refine exists_congr fun b => and_congr_right fun hb => ?_
    simp only [mem_blockLabels, hp.instr?_eq hb]
  have hreach : ∀ q : BlockId → Prop,
      (∃ b ∈ p.blocks, q b.id) ↔ ∃ b, p.function.Reachable b ∧ q b := by
    intro q
    constructor
    · rintro ⟨b, hb, hq⟩
      exact ⟨b.id, (hp.mem_blocks.1 hb).2, hq⟩
    · rintro ⟨b, hb, hq⟩
      obtain ⟨c, hc, rfl⟩ := hp.exists_block hb
      exact ⟨c, hc, hq⟩
  have hhead : l ∈ p.headLabels ↔
      l ∈ blockHeads p.blocks ∨ ∃ i < p.function.params.length, .param i = l := by
    simp only [headLabels, List.mem_append, List.mem_map, List.mem_range]
  rw [baseLabels, List.mem_append, hhead, hbody, hreach fun b => l = .exit b ∨ ∃ k i,
    p.instr? b k = some i ∧ l ∈ instrLabels b (i, k)]
  cases l with
  | block b => simp [Laid, hp.block_mem, mem_instrLabels]
  | _ => simp [Laid, blockHeads, mem_instrLabels]

theorem Sound.nodup_baseLabels : p.baseLabels.Nodup := by
  have hheads : (blockHeads p.blocks).Nodup := by
    rw [blockHeads, List.nodup_cons]
    refine ⟨by simp, ?_⟩
    have h := hp.nodup_ids.map (f := Label.block) fun a b h => by cases h; rfl
    rwa [List.map_map] at h
  have hparams : ((List.range p.function.params.length).map Label.param).Nodup :=
    List.nodup_range.map fun a b h => by cases h; rfl
  refine List.Nodup.append (hheads.append hparams ?_)
    (List.nodup_flatMap.2 ⟨fun b _ => nodup_blockLabels b, ?_⟩) ?_
  · intro l hl hl'
    obtain ⟨i, -, rfl⟩ := List.mem_map.1 hl'
    obtain h | ⟨b, h⟩ := mem_blockHeads hl <;> cases h
  · refine (List.pairwise_map.1 hp.nodup_ids).imp fun {b c} hbc l hb hc => hbc ?_
    obtain ⟨k, hk⟩ := site?_of_mem_blockLabels hb
    obtain ⟨k', hk'⟩ := site?_of_mem_blockLabels hc
    have h := hk.symm.trans hk'
    simp only [Option.some.injEq, Prod.mk.injEq] at h
    exact h.1
  · intro l hl hl'
    obtain ⟨b, -, hb⟩ := List.mem_flatMap.1 hl'
    obtain ⟨k, hk⟩ := site?_of_mem_blockLabels hb
    rcases List.mem_append.1 hl with h | h
    · obtain rfl | ⟨c, rfl⟩ := mem_blockHeads h <;> cases hk
    · obtain ⟨i, -, rfl⟩ := List.mem_map.1 h
      cases hk

end

/-! ## Members -/

/-- Only one element of a list without repetitions contributes. -/
theorem flatMap_eq_of_unique {γ β κ : Type} {key : γ → κ} {xs : List γ} (hnd : (xs.map key).Nodup)
    {x : γ} (hx : x ∈ xs) {g : γ → List β} (hg : ∀ y ∈ xs, key y ≠ key x → g y = []) :
    xs.flatMap g = g x := by
  obtain ⟨pre, post, rfl⟩ := List.append_of_mem hx
  rw [List.map_append, List.map_cons, List.nodup_middle, List.nodup_cons, List.mem_append] at hnd
  have hnil : ∀ ys ⊆ pre ++ x :: post, key x ∉ ys.map key → ys.flatMap g = [] := by
    intro ys hsub hys
    refine List.flatMap_eq_nil_iff.2 fun y hy => hg y (hsub hy) fun h => hys ?_
    rw [← h]
    exact List.mem_map_of_mem hy
  rw [List.flatMap_append, List.flatMap_cons,
    hnil pre (List.subset_append_left _ _) fun h => hnd.1 (.inl h),
    hnil post (fun y hy => by simp [hy]) fun h => hnd.1 (.inr h), List.nil_append, List.append_nil]

theorem owned_instrLabels (b : BlockId) (i : Instr × Nat) :
    owned (instrLabels b i) (.block b) = [.instr b i.2] := by
  obtain ⟨i, k⟩ := i
  cases i with
  | call dest callee args =>
    have hargs : owned ((List.range args.length).map (.splitArg b k)) (.block b) = [] := by
      refine owned_eq_nil fun l hl => ?_
      obtain ⟨j, -, rfl⟩ := List.mem_map.1 hl
      exact fun h => by cases h
    have hlabels : instrLabels b (.call dest callee args, k) =
        [.split b k] ++ (List.range args.length).map (.splitArg b k) ++ [.instr b k] := rfl
    rw [hlabels, owned_append, owned_append, hargs]
    simp [owned, Label.owner?]
  | _ => simp [instrLabels, owned, Label.owner?]

theorem owned_blockLabels (b : Block) : owned (blockLabels b) (.block b.id) =
    (List.range b.body.length).map (.instr b.id) ++ [.exit b.id] := by
  have hbody : owned (b.body.zipIdx.flatMap (instrLabels b.id)) (.block b.id) =
      b.body.zipIdx.flatMap fun i => [.instr b.id i.2] := by
    rw [owned, List.filter_flatMap]
    exact congrArg b.body.zipIdx.flatMap (funext fun i => owned_instrLabels b.id i)
  have hrange : b.body.zipIdx.flatMap (fun i => [Label.instr b.id i.2]) =
      (List.range b.body.length).map (.instr b.id) := by
    rw [← List.map_eq_flatMap, List.range_eq_range', ← List.zipIdx_map_snd 0 b.body, List.map_map]
    rfl
  rw [blockLabels, owned_append, hbody, hrange]
  simp [owned, Label.owner?]

section
variable {p : Plan} (hp : p.Sound) {b : Block} (hb : b ∈ p.blocks)
include hp hb

theorem Sound.members_eq : p.members b.id =
    (List.range b.body.length).map (.instr b.id) ++ [.exit b.id] := by
  rw [members, (hp.mem_blocks.1 hb).1]
  rfl

theorem Sound.owned_baseLabels : owned p.baseLabels (.block b.id) = p.members b.id := by
  have hhead : owned p.headLabels (.block b.id) = [] := by
    refine owned_eq_nil fun l hl => ?_
    rcases owner?_of_mem_headLabels hl with h | h <;> simp [h]
  have hbody : owned (p.blocks.flatMap blockLabels) (.block b.id) =
      owned (blockLabels b) (.block b.id) := by
    rw [owned, List.filter_flatMap]
    refine flatMap_eq_of_unique hp.nodup_ids hb fun c _ hne => owned_eq_nil fun l hl => ?_
    rcases owner?_of_mem_blockLabels hl with h | ⟨j, h⟩ | h <;> simp [h, hne]
  rw [baseLabels, owned_append, hhead, hbody, owned_blockLabels, hp.members_eq hb, List.nil_append]

theorem Sound.isPhi_iff {k : Nat} : p.isPhi (.instr b.id k) = true ↔ k < b.phis.length := by
  have hmem := List.mem_of_getElem? (hp.mem_blocks.1 hb).1
  have hbody : b.body = b.phis ++ b.body.dropWhile Instr.isPhi :=
    (List.takeWhile_append_dropWhile ..).symm
  rw [isPhi, hp.instr?_eq hb, Option.any_eq_true]
  constructor
  · rintro ⟨i, hi, hphi⟩
    by_contra hk
    rw [hbody, List.getElem?_append_right (Nat.not_lt.1 hk)] at hi
    have := hp.wellFormed.phis_first b hmem i (List.mem_of_getElem? hi)
    rw [hphi] at this
    cases this
  · intro hk
    have hget := List.getElem?_eq_getElem hk
    rw [hbody, List.getElem?_append_left hk]
    exact ⟨_, hget, isPhi_of_mem_phis (List.mem_of_getElem? hget)⟩

/-- The members of a block are its phis and, behind them, the rest. -/
theorem Sound.members_split : p.members b.id = (List.range b.phis.length).map (.instr b.id) ++
    ((List.range' b.phis.length (b.body.length - b.phis.length)).map (.instr b.id) ++
      [.exit b.id]) := by
  have hle : b.phis.length ≤ b.body.length := (List.takeWhile_sublist _).length_le
  have hrange := @List.range'_append_1 0 b.phis.length (b.body.length - b.phis.length)
  rw [Nat.zero_add, Nat.add_sub_cancel' hle] at hrange
  rw [hp.members_eq hb, ← List.append_assoc, ← List.map_append, List.range_eq_range',
    List.range_eq_range', hrange]

theorem Sound.filter_isPhi : (p.members b.id).filter p.isPhi =
    (List.range b.phis.length).map (.instr b.id) := by
  rw [hp.members_split hb, List.filter_append, List.filter_eq_self.2, List.filter_eq_nil_iff.2,
    List.append_nil]
  · simp only [List.mem_append, List.mem_map, List.mem_range'_1, List.mem_singleton]
    rintro l (⟨k, ⟨hk, -⟩, rfl⟩ | rfl)
    · rw [hp.isPhi_iff hb]
      exact Nat.not_lt.2 hk
    · exact Bool.false_ne_true
  · simp only [List.mem_map, List.mem_range]
    rintro l ⟨k, hk, rfl⟩
    exact (hp.isPhi_iff hb).2 hk

theorem Sound.filter_not_isPhi : (p.members b.id).filter (!p.isPhi ·) =
    (List.range' b.phis.length (b.body.length - b.phis.length)).map (.instr b.id) ++
      [.exit b.id] := by
  rw [hp.members_split hb, List.filter_append, List.filter_eq_nil_iff.2, List.filter_eq_self.2,
    List.nil_append]
  · simp only [List.mem_append, List.mem_map, List.mem_range'_1, List.mem_singleton]
    rintro l (⟨k, ⟨hk, -⟩, rfl⟩ | rfl)
    · rw [Bool.not_eq_true', Bool.eq_false_iff, ne_eq, hp.isPhi_iff hb]
      exact Nat.not_lt.2 hk
    · rfl
  · simp only [List.mem_map, List.mem_range]
    rintro l ⟨k, hk, rfl⟩
    rw [(hp.isPhi_iff hb).2 hk]
    exact Bool.false_ne_true

end

end Plan

end Dataflow
