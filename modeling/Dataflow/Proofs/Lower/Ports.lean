import Dataflow.Proofs.Lower.AllWires

/-!
# The port lists of a lowered function

What stands in the slots of the labels of a plan, in order: the control inputs of a block are the
exits of its predecessors (`Sound.ctrlIn_block`), the control outputs of an exit the successors of
its block (`Sound.ctrlOut_exit`), and the data inputs of an instruction the values that it reads
(`Sound.dataIn_instr`).
-/

namespace Dataflow

section
variable {α γ : Type} [DecidableEq α] {kind : EdgeKind} {s : Slot} {l : α}

theorem portsAt_map_target (hs : kind.targetSlot = s) (xs : List γ) (src dst : γ → α) :
    portsAt (xs.map fun x => ⟨kind, src x, dst x⟩) l s = (xs.filter (dst · = l)).map src := by
  subst hs
  have hne := kind.sourceSlot_ne_targetSlot kind
  induction xs with
  | nil => rfl
  | cons x xs ih =>
    by_cases hx : dst x = l <;> simp_all [portsAt, Wire.across]

theorem portsAt_map_source (hs : kind.sourceSlot = s) (xs : List γ) (src dst : γ → α) :
    portsAt (xs.map fun x => ⟨kind, src x, dst x⟩) l s = (xs.filter (src · = l)).map dst := by
  subst hs
  have hne := (kind.sourceSlot_ne_targetSlot kind).symm
  induction xs with
  | nil => rfl
  | cons x xs ih =>
    by_cases hx : src x = l <;> simp_all [portsAt, Wire.across]

end

namespace Plan

variable {p : Plan} {o : Options} {xs : List (Access × Option Region)}

/-! ## Control -/

theorem portsAt_controlWires {l : Label} {s : Slot} : portsAt p.controlWires l s =
    portsAt [⟨.control, .entry, .block Function.entry⟩] l s ++
      p.blocks.flatMap (fun b => portsAt (p.exitWires b.id) l s) ++
      p.blocks.flatMap (fun b => portsAt (p.memberWires b.id) l s) ++
      portsAt (p.baseLabels.filterMap p.callWire?) l s := by
  rw [controlWires, portsAt_append, portsAt_append, portsAt_append, portsAt_flatMap, portsAt_flatMap]

/-- Wires from calls to their split calls join instructions and split calls only. -/
theorem portsAt_callWires_eq_nil {l : Label} {s : Slot} (hinstr : ∀ b k, l ≠ .instr b k ∨ s ≠ .ctrlOut)
    (hsplit : ∀ b k, l ≠ .split b k ∨ s ≠ .ctrlIn) :
    portsAt (p.baseLabels.filterMap p.callWire?) l s = [] := by
  refine portsAt_eq_nil fun w hw => ?_
  obtain ⟨x, -, hx⟩ := List.mem_filterMap.1 hw
  obtain ⟨b, k, _, _, _, -, -, rfl⟩ := mem_callWire?.1 hx
  constructor
  · rintro rfl rfl
    simpa [EdgeKind.sourceSlot] using hinstr b k
  · rintro rfl rfl
    simpa [EdgeKind.targetSlot] using hsplit b k

theorem ctrlIn_exitWires (b : BlockId) (l : Label) : portsAt (p.exitWires b) l .ctrlIn =
    ((p.flow.succs b).filter (Label.block · = l)).map fun _ => .exit b :=
  portsAt_map_target rfl ..

theorem ctrlOut_exitWires (b : BlockId) (l : Label) : portsAt (p.exitWires b) l .ctrlOut =
    ((p.flow.succs b).filter fun _ => Label.exit b = l).map .block :=
  portsAt_map_source rfl ..

theorem ctrlIn_memberWires (b : BlockId) (l : Label) : portsAt (p.memberWires b) l .ctrlIn =
    ((p.members b).filter (· = l)).map fun _ => .block b :=
  portsAt_map_target rfl ..

theorem ctrlOut_memberWires (b : BlockId) (l : Label) : portsAt (p.memberWires b) l .ctrlOut =
    (p.members b).filter fun _ => Label.block b = l :=
  (portsAt_map_source rfl ..).trans (List.map_id' _)

section
variable (hp : p.Sound)
include hp

theorem Sound.nodup_members {b : Block} (hb : b ∈ p.blocks) : (p.members b.id).Nodup := by
  rw [← hp.owned_baseLabels hb]
  exact hp.nodup_baseLabels.filter _

theorem Sound.owner?_member {b : Block} (hb : b ∈ p.blocks) {m : Label} (hm : m ∈ p.members b.id) :
    m.owner? = some (.block b.id) := by
  rw [← hp.owned_baseLabels hb, owned, List.mem_filter] at hm
  exact of_decide_eq_true hm.2

/-- The control inputs of a block come from its predecessors, in declaration order; that of the
entry from the split call with the arguments. -/
theorem Sound.ctrlIn_block {b : BlockId} (hb : p.function.Reachable b) :
    portsAt p.controlWires (.block b) .ctrlIn =
      (if b = Function.entry then [.entry] else []) ++ (p.flow.preds b).map .exit := by
  -- of the wires into a block those from the entry and from exits fire it, in declaration order
  have hentry : portsAt [(⟨.control, .entry, .block Function.entry⟩ : Wire Label)] (.block b)
      .ctrlIn = if b = Function.entry then [.entry] else [] := by
    by_cases h : b = Function.entry
    · simp [portsAt, Wire.across, EdgeKind.targetSlot, h]
    · simp [portsAt, Wire.across, h, Ne.symm h]
  have hexit : ∀ c ∈ p.blocks, portsAt (p.exitWires c.id) (.block b) .ctrlIn =
      if b ∈ p.flow.succs c.id then [.exit c.id] else [] := by
    intro c _
    rw [ctrlIn_exitWires]
    split
    · rename_i hmem
      rw [Frame.filter_eq_singleton (hp.describes.nodup_succs _) hmem (by simp), List.map_singleton]
    · rename_i hmem
      rw [List.filter_eq_nil_iff.2 fun s hs h => hmem ?_, List.map_nil]
      rw [← Label.block.inj (of_decide_eq_true h)]
      exact hs
  have hmembers : p.blocks.flatMap (fun c => portsAt (p.memberWires c.id) (.block b) .ctrlIn) = [] := by
    refine List.flatMap_eq_nil_iff.2 fun c hc => ?_
    rw [ctrlIn_memberWires, List.filter_eq_nil_iff.2 fun m hm h => ?_]
    · rfl
    · have := hp.owner?_member hc hm
      rw [of_decide_eq_true h] at this
      cases this
  have hpreds : (p.flow.preds b).map Label.exit =
      p.blocks.flatMap fun c => if b ∈ p.flow.succs c.id then [.exit c.id] else [] := by
    have hids : p.flow.preds b = (p.blocks.map Block.id).filter fun u => b ∈ p.flow.succs u := by
      rw [hp.describes.preds_eq (hp.wellFormed.reachable_lt hb), hp.ids_blocks, List.filter_filter]
      refine List.filter_congr fun u _ => ?_
      rw [FlowGraph.isReachable, Bool.decide_and, Bool.and_comm]
    have h := flatMap_ite p.blocks (fun c => decide (b ∈ p.flow.succs c.id))
      fun c => [Label.exit c.id]
    simp only [decide_eq_true_eq] at h
    rw [h, hids, List.filter_map, List.map_map, List.map_eq_flatMap]
    rfl
  rw [portsAt_controlWires, hentry, List.flatMap_congr hexit, ← hpreds, hmembers,
    portsAt_callWires_eq_nil (fun _ _ => .inr (by decide)) (fun _ _ => .inl (by simp)), List.append_nil,
    List.append_nil]

/-- A member is fired by its block alone. -/
theorem Sound.ctrlIn_member {b : Block} (hb : b ∈ p.blocks) {m : Label} (hm : m ∈ p.members b.id) :
    portsAt p.controlWires m .ctrlIn = [.block b.id] := by
  have howner := hp.owner?_member hb hm
  have hblock : ∀ c, Label.block c ≠ m := by
    rintro c rfl
    cases howner
  have hentry : portsAt [(⟨.control, .entry, .block Function.entry⟩ : Wire Label)] m .ctrlIn = [] := by
    simp [portsAt, Wire.across, EdgeKind.sourceSlot, hblock]
  have hexits : p.blocks.flatMap (fun c => portsAt (p.exitWires c.id) m .ctrlIn) = [] := by
    refine List.flatMap_eq_nil_iff.2 fun c _ => ?_
    rw [ctrlIn_exitWires, List.filter_eq_nil_iff.2 fun s _ h =>
      hblock s (of_decide_eq_true h), List.map_nil]
  have hmembers : p.blocks.flatMap (fun c => portsAt (p.memberWires c.id) m .ctrlIn) =
      [.block b.id] := by
    rw [flatMap_eq_of_unique hp.nodup_ids hb fun c hc hne => ?_]
    · rw [ctrlIn_memberWires,
        Frame.filter_eq_singleton (hp.nodup_members hb) hm (by simp), List.map_singleton]
    · rw [ctrlIn_memberWires, List.filter_eq_nil_iff.2 fun m' hm' h => ?_,
        List.map_nil]
      have := (hp.owner?_member hc hm').symm
      rw [of_decide_eq_true h, howner] at this
      exact hne (Label.block.inj (Option.some.inj this))
  have hsplit : ∀ c k, m ≠ .split c k := by
    rintro c k rfl
    cases howner
  rw [portsAt_controlWires, hentry, hexits, hmembers,
    portsAt_callWires_eq_nil (fun _ _ => .inr (by decide)) fun c k => .inl (hsplit c k)]
  rfl

/-- The control outputs of an exit are the successors of its block, in declared order. -/
theorem Sound.ctrlOut_exit {b : Block} (hb : b ∈ p.blocks) :
    portsAt p.controlWires (.exit b.id) .ctrlOut = (p.flow.succs b.id).map .block := by
  have hexits : p.blocks.flatMap (fun c => portsAt (p.exitWires c.id) (.exit b.id) .ctrlOut) =
      (p.flow.succs b.id).map .block := by
    rw [flatMap_eq_of_unique hp.nodup_ids hb fun c _ hne => ?_]
    · rw [ctrlOut_exitWires, List.filter_eq_self.2 (by simp)]
    · rw [ctrlOut_exitWires, List.filter_eq_nil_iff.2 (by simp [hne]), List.map_nil]
  have hmembers : p.blocks.flatMap (fun c => portsAt (p.memberWires c.id) (.exit b.id) .ctrlOut) =
      [] := by
    refine List.flatMap_eq_nil_iff.2 fun c _ => ?_
    rw [ctrlOut_memberWires, List.filter_eq_nil_iff.2 (by simp)]
  rw [portsAt_controlWires, hexits, hmembers,
    portsAt_callWires_eq_nil (fun _ _ => .inl (by simp)) (fun _ _ => .inl (by simp)), List.append_nil,
    List.append_nil]
  rfl

end

/-! ## Data -/

theorem dataIn_feedWires (vs : List Value) (x l : Label) : portsAt (p.feedWires vs x) l .dataIn =
    if x = l then vs.map p.labelOf else [] := by
  refine (portsAt_map_target rfl vs p.labelOf fun _ => x).trans ?_
  split
  · rename_i h
    rw [List.filter_eq_self.2 fun _ _ => decide_eq_true h]
  · rename_i h
    rw [List.filter_eq_nil_iff.2 fun _ _ h' => h (of_decide_eq_true h'), List.map_nil]

theorem dataIn_maskWires (b : BlockId) (l : Label) : portsAt (p.maskWires b) l .dataIn =
    if .block b = l then (p.maskRead? b).toList.map p.labelOf else [] := by
  have hmask : portsAt (((p.members b).filter (p.masks b)).map fun m => ⟨.mask, .block b, m⟩) l
      .dataIn = [] := by
    refine portsAt_eq_nil fun w hw => ?_
    obtain ⟨m, -, rfl⟩ := List.mem_map.1 hw
    exact ⟨fun _ => by simp [EdgeKind.sourceSlot], fun _ => by simp [EdgeKind.targetSlot]⟩
  rw [maskWires, portsAt_append, hmask, List.append_nil]
  exact dataIn_feedWires ..

theorem dataIn_dataWires (b : Block) (l : Label) : portsAt (p.dataWires b) l .dataIn =
    (b.body.zipIdx.flatMap fun i =>
      if .instr b.id i.2 = l then (p.reads b.id i.1).map p.labelOf else []) ++
      if .exit b.id = l then b.exit.operands.map p.labelOf else [] := by
  rw [dataWires, portsAt_append, portsAt_flatMap, dataIn_feedWires]
  simp only [dataIn_feedWires]

theorem dataIn_valueWires (l : Label) : portsAt p.valueWires l .dataIn =
    (p.blocks.flatMap fun b =>
      if .block b.id = l then (p.maskRead? b.id).toList.map p.labelOf else []) ++
      p.blocks.flatMap fun b => portsAt (p.dataWires b) l .dataIn := by
  rw [valueWires, portsAt_append, portsAt_flatMap, portsAt_flatMap]
  simp only [dataIn_maskWires]

section
variable (hp : p.Sound) {b : Block} (hb : b ∈ p.blocks)
include hp hb

/-- The data inputs of a member are those of its own block's wires. -/
theorem Sound.dataIn_member {l : Label} (hl : l.owner? = some (.block b.id)) :
    portsAt p.valueWires l .dataIn = portsAt (p.dataWires b) l .dataIn := by
  have hmask : (p.blocks.flatMap fun c =>
      if .block c.id = l then (p.maskRead? c.id).toList.map p.labelOf else []) = [] := by
    refine List.flatMap_eq_nil_iff.2 fun c _ => if_neg ?_
    rintro rfl
    cases hl
  rw [dataIn_valueWires, hmask, List.nil_append,
    flatMap_eq_of_unique hp.nodup_ids hb fun c _ hne => ?_]
  rw [dataIn_dataWires, List.flatMap_eq_nil_iff.2 fun i _ => if_neg ?_, if_neg ?_, List.append_nil]
  · rintro rfl
    exact hne (Label.block.inj (Option.some.inj hl))
  · rintro rfl
    exact hne (Label.block.inj (Option.some.inj hl))

/-- The data inputs of an instruction are the values that it reads. -/
theorem Sound.dataIn_instr {i : Instr} {k : Nat} (hi : b.body[k]? = some i) :
    portsAt p.valueWires (.instr b.id k) .dataIn = (p.reads b.id i).map p.labelOf := by
  have hnd : (b.body.zipIdx.map Prod.snd).Nodup := by
    rw [List.zipIdx_map_snd]
    exact List.nodup_range'
  have hmem : (i, k) ∈ b.body.zipIdx := List.mem_zipIdx_iff_getElem?.2 hi
  rw [hp.dataIn_member hb rfl, dataIn_dataWires, if_neg (by simp), List.append_nil,
    flatMap_eq_of_unique hnd hmem fun j _ hne => if_neg fun h => hne (Label.instr.inj h).2,
    if_pos rfl]

theorem Sound.dataIn_exit :
    portsAt p.valueWires (.exit b.id) .dataIn = b.exit.operands.map p.labelOf := by
  rw [hp.dataIn_member hb rfl, dataIn_dataWires, if_pos rfl,
    List.flatMap_eq_nil_iff.2 fun i _ => if_neg (by simp), List.nil_append]

end

/-- A member that is told the way control came has a mask from its block. -/
theorem mem_depIn_of_masks {ordered : List (Access × Access)} {b : Block} (hb : b ∈ p.blocks)
    {m : Label} (hm : m ∈ p.members b.id) (hmask : p.masks b.id m = true) :
    .block b.id ∈ portsAt (p.wires o xs ordered) m .depIn := by
  refine (mem_portsAt_target rfl).2 ⟨⟨.mask, .block b.id, m⟩, ?_, rfl, rfl, rfl⟩
  have hw := mem_valueWires.2 (.inr (.inl ⟨b, hb, m, hm, hmask, rfl⟩))
  exact List.mem_append_left _ (List.mem_append_right _ hw)

/-! ## Memory -/

/-- The accesses of a kind that are bound to a region. -/
def bound (o : Options) (xs : List (Access × Option Region)) (kind : AccessKind) (r : Region) :
    List Label :=
  (xs.filter fun x => x.1.kind = kind ∧ boundRegion o x.2 = some r).map (·.1.label)

theorem portsAt_unit {kind : AccessKind} {r : Region} {s : Slot}
    (hs : s = kind.request.targetSlot ∨ s = kind.response.sourceSlot) :
    portsAt (xs.flatMap (accessWires o)) (.unit r) s = bound o xs kind r := by
  have hone : ∀ x, portsAt (accessWires o x) (.unit r) s =
      if x.1.kind = kind ∧ boundRegion o x.2 = some r then [x.1.label] else [] := by
    intro x
    rw [accessWires]
    cases hr : boundRegion o x.2 with
    | none => simp [portsAt]
    | some r' =>
      by_cases hr' : r' = r
      · subst hr'
        cases hk : x.1.kind <;> cases kind <;> rcases hs with rfl | rfl <;>
          simp [portsAt, serviceWires, Wire.across, hk, AccessKind.request, AccessKind.response,
            EdgeKind.sourceSlot, EdgeKind.targetSlot, Access.label]
      · rw [if_neg fun h => hr' (Option.some.inj h.2)]
        exact portsAt_serviceWires_eq_nil (fun h => by cases h) (fun h => hr' (by cases h; rfl)) s
  have h := flatMap_ite xs (fun x => decide (x.1.kind = kind ∧ boundRegion o x.2 = some r))
    fun x => [x.1.label]
  simp only [decide_eq_true_eq] at h
  rw [portsAt_flatMap]
  simp only [hone]
  rw [h, bound, List.map_eq_flatMap]

end Plan

end Dataflow
