import Dataflow.Proofs.Lower.Loops

/-!
# All wires of a lowered function

`Plan.wires` are the wires of a plan, once the regions of its accesses and the pairs to keep in order
are known: where they begin and end, which slots they land in, and that no access is served twice.
-/

namespace Dataflow

theorem portsAt_flatMap {α γ : Type} [DecidableEq α] (xs : List γ) (f : γ → List (Wire α)) (l : α)
    (s : Slot) : portsAt (xs.flatMap f) l s = xs.flatMap fun x => portsAt (f x) l s :=
  List.filterMap_flatMap

namespace Plan

/-- All wires of a plan with its accesses and the pairs of them to keep in order. -/
def wires (p : Plan) (o : Options) (xs : List (Access × Option Region))
    (ordered : List (Access × Access)) : List (Wire Label) :=
  p.controlWires ++ p.valueWires ++ memoryWires o xs ordered

variable {p : Plan} {o : Options} {F : Frame Label} {xs : List (Access × Option Region)}
  {ordered : List (Access × Access)} {all : List (Wire Label)}

/-! ## Which wires there are -/

theorem mem_callWire? {l : Label} {w : Wire Label} : p.callWire? l = some w ↔
    ∃ b k dest callee args, p.instr? b k = some (.call dest callee args) ∧ l = .instr b k ∧
      w = ⟨.control, .instr b k, .split b k⟩ := by
  unfold callWire?
  split
  · rename_i b k
    split
    · rename_i dest callee args hi
      simp only [Option.some.injEq, Label.instr.injEq]
      constructor
      · rintro rfl
        exact ⟨b, k, dest, callee, args, hi, ⟨rfl, rfl⟩, rfl⟩
      · rintro ⟨_, _, _, _, _, -, ⟨rfl, rfl⟩, rfl⟩
        rfl
    · rename_i h
      simp only [reduceCtorEq, Label.instr.injEq, false_iff, not_exists]
      rintro _ _ dest callee args ⟨hi, ⟨rfl, rfl⟩, -⟩
      exact h dest callee args hi
  · rename_i h
    simp only [reduceCtorEq, false_iff, not_exists]
    rintro b k _ _ _ ⟨-, rfl, -⟩
    exact h b k rfl

theorem mem_controlWires {w : Wire Label} : w ∈ p.controlWires ↔
    w = ⟨.control, .entry, .block Function.entry⟩ ∨
    (∃ b ∈ p.blocks, ∃ s ∈ p.flow.succs b.id, w = ⟨.control, .exit b.id, .block s⟩) ∨
    (∃ b ∈ p.blocks, ∃ m ∈ p.members b.id, w = ⟨.control, .block b.id, m⟩) ∨
    ∃ l ∈ p.baseLabels, p.callWire? l = some w := by
  simp only [controlWires, exitWires, memberWires, List.mem_append, List.mem_singleton,
    List.mem_flatMap, List.mem_map, List.mem_filterMap, or_assoc, eq_comm]

theorem mem_valueWires {w : Wire Label} : w ∈ p.valueWires ↔
    (∃ b ∈ p.blocks, ∃ v, p.maskRead? b.id = some v ∧ w = ⟨.data, p.labelOf v, .block b.id⟩) ∨
    (∃ b ∈ p.blocks, ∃ m ∈ p.members b.id, p.masks b.id m = true ∧ w = ⟨.mask, .block b.id, m⟩) ∨
    (∃ b ∈ p.blocks, ∃ i k, b.body[k]? = some i ∧
      ∃ v ∈ p.reads b.id i, w = ⟨.data, p.labelOf v, .instr b.id k⟩) ∨
    ∃ b ∈ p.blocks, ∃ v ∈ b.exit.operands, w = ⟨.data, p.labelOf v, .exit b.id⟩ := by
  simp only [valueWires, maskWires, dataWires, feedWires, List.mem_append, List.mem_flatMap,
    List.mem_map, List.mem_filter, Option.mem_toList, Prod.exists, List.mem_zipIdx_iff_getElem?]
  constructor
  · rintro (⟨b, hb, ⟨v, hv, rfl⟩ | ⟨m, ⟨hm, hmask⟩, rfl⟩⟩ |
      ⟨b, hb, ⟨i, k, hi, v, hv, rfl⟩ | ⟨v, hv, rfl⟩⟩)
    · exact .inl ⟨b, hb, v, hv, rfl⟩
    · exact .inr (.inl ⟨b, hb, m, hm, hmask, rfl⟩)
    · exact .inr (.inr (.inl ⟨b, hb, i, k, hi, v, hv, rfl⟩))
    · exact .inr (.inr (.inr ⟨b, hb, v, hv, rfl⟩))
  · rintro (⟨b, hb, v, hv, rfl⟩ | ⟨b, hb, m, hm, hmask, rfl⟩ | ⟨b, hb, i, k, hi, v, hv, rfl⟩ |
      ⟨b, hb, v, hv, rfl⟩)
    · exact .inl ⟨b, hb, .inl ⟨v, hv, rfl⟩⟩
    · exact .inl ⟨b, hb, .inr ⟨m, ⟨hm, hmask⟩, rfl⟩⟩
    · exact .inr ⟨b, hb, .inl ⟨i, k, hi, v, hv, rfl⟩⟩
    · exact .inr ⟨b, hb, .inr ⟨v, hv, rfl⟩⟩

theorem mem_memoryWires {w : Wire Label} : w ∈ memoryWires o xs ordered ↔
    (∃ x ∈ xs, ∃ r, boundRegion o x.2 = some r ∧ w ∈ serviceWires x.1 r) ∨
    ∃ q ∈ ordered, w = orderWire q := by
  have haccess : ∀ x : Access × Option Region, w ∈ accessWires o x ↔
      ∃ r, boundRegion o x.2 = some r ∧ w ∈ serviceWires x.1 r := by
    intro x
    rw [accessWires]
    cases boundRegion o x.2 <;> simp
  simp only [memoryWires, List.mem_append, List.mem_flatMap, List.mem_map, haccess, eq_comm]

/-! ## Their ends -/

section
variable (hp : p.Sound)
include hp

theorem Sound.controlWires_mem {w : Wire Label} (hw : w ∈ p.controlWires) :
    w.src ∈ p.baseLabels ∧ w.dst ∈ p.baseLabels := by
  obtain rfl | ⟨b, hb, s, hs, rfl⟩ | ⟨b, hb, m, hm, rfl⟩ | ⟨l, hl, hcall⟩ := mem_controlWires.1 hw
  · exact ⟨hp.mem_baseLabels.2 trivial, hp.mem_baseLabels.2 .refl⟩
  · exact ⟨hp.laid_exit hb, hp.laid_succ hb hs⟩
  · exact ⟨hp.laid_block hb, hp.laid_member hb hm⟩
  · obtain ⟨b, k, dest, callee, args, hi, rfl, rfl⟩ := mem_callWire?.1 hcall
    have hr := (hp.mem_baseLabels.1 hl).1
    exact ⟨hl, hp.mem_baseLabels.2 ⟨hr, dest, callee, args, hi⟩⟩

theorem Sound.laid_instr {b : Block} (hb : b ∈ p.blocks) {i : Instr} {k : Nat}
    (hi : b.body[k]? = some i) : .instr b.id k ∈ p.baseLabels :=
  hp.mem_baseLabels.2 ⟨(hp.mem_blocks.1 hb).2, i, (hp.instr?_eq hb k).trans hi⟩

theorem Sound.valueWires_mem {w : Wire Label} (hw : w ∈ p.valueWires) :
    (w.src ∈ p.baseLabels ∨ w.src.isExtra = true) ∧ w.dst ∈ p.baseLabels := by
  obtain ⟨b, hb, v, hv, rfl⟩ | ⟨b, hb, m, hm, -, rfl⟩ | ⟨b, hb, i, k, hi, v, hv, rfl⟩ |
    ⟨b, hb, v, hv, rfl⟩ := mem_valueWires.1 hw
  · obtain ⟨c, hc, hv, -⟩ := hp.mem_exit_of_maskRead? hv
    exact ⟨hp.labelOf_mem (hp.wellFormed.exit_operands c (hp.mem_blocks_function hc) v hv),
      hp.laid_block hb⟩
  · exact ⟨.inl (hp.laid_block hb), hp.laid_member hb hm⟩
  · exact ⟨hp.labelOf_mem (hp.wellFormed.operands b (hp.mem_blocks_function hb) i
      (List.mem_of_getElem? hi) v (mem_operands_of_mem_reads hv)), hp.laid_instr hb hi⟩
  · exact ⟨hp.labelOf_mem (hp.wellFormed.exit_operands b (hp.mem_blocks_function hb) v hv),
      hp.laid_exit hb⟩

omit hp in
theorem memoryWires_mem (hxs : ∀ x ∈ xs, x.1.label ∈ p.baseLabels)
    (hordered : ∀ q ∈ ordered, q.1.label ∈ p.baseLabels ∧ q.2.label ∈ p.baseLabels)
    {w : Wire Label} (hw : w ∈ memoryWires o xs ordered) :
    (w.src ∈ p.baseLabels ∨ w.src.isExtra = true) ∧
      (w.dst ∈ p.baseLabels ∨ w.dst.isExtra = true) := by
  obtain ⟨x, hx, r, -, hw⟩ | ⟨q, hq, rfl⟩ := mem_memoryWires.1 hw
  · simp only [serviceWires, List.mem_cons, List.not_mem_nil, or_false] at hw
    rcases hw with rfl | rfl
    · exact ⟨.inl (hxs x hx), .inr rfl⟩
    · exact ⟨.inr rfl, .inl (hxs x hx)⟩
  · exact ⟨.inl (hordered q hq).1, .inl (hordered q hq).2⟩

theorem Sound.scope (start : Uid) (hxs : ∀ x ∈ xs, x.1.label ∈ p.baseLabels)
    (hordered : ∀ q ∈ ordered, q.1.label ∈ p.baseLabels ∧ q.2.label ∈ p.baseLabels) :
    p.Scope (p.frame start (p.wires o xs ordered)) (p.wires o xs ordered) := by
  have hends : ∀ w ∈ p.wires o xs ordered, (w.src ∈ p.baseLabels ∨ w.src.isExtra = true) ∧
      (w.dst ∈ p.baseLabels ∨ w.dst.isExtra = true) := by
    intro w hw
    rcases List.mem_append.1 hw with hw | hw
    · rcases List.mem_append.1 hw with hw | hw
      · exact ⟨.inl (hp.controlWires_mem hw).1, .inl (hp.controlWires_mem hw).2⟩
      · exact ⟨(hp.valueWires_mem hw).1, .inl (hp.valueWires_mem hw).2⟩
    · exact memoryWires_mem hxs hordered hw
  exact ⟨hp, hp.numbers_frame start, fun w hw => (hends w hw).1, fun w hw => (hends w hw).2⟩

end

/-! ## Which slots they land in -/

theorem kind_controlWires {w : Wire Label} (hw : w ∈ p.controlWires) : w.kind = .control := by
  obtain rfl | ⟨b, -, s, -, rfl⟩ | ⟨b, -, m, -, rfl⟩ | ⟨l, -, hcall⟩ := mem_controlWires.1 hw
  · rfl
  · rfl
  · rfl
  · obtain ⟨b, k, dest, callee, args, -, -, rfl⟩ := mem_callWire?.1 hcall
    rfl

theorem kind_valueWires {w : Wire Label} (hw : w ∈ p.valueWires) :
    w.kind = .data ∨ w.kind = .mask := by
  obtain ⟨b, -, v, -, rfl⟩ | ⟨b, -, m, -, -, rfl⟩ | ⟨b, -, i, k, -, v, -, rfl⟩ |
    ⟨b, -, v, -, rfl⟩ := mem_valueWires.1 hw
  · exact .inl rfl
  · exact .inr rfl
  · exact .inl rfl
  · exact .inl rfl

theorem kind_serviceWires {a : Access} {r : Region} {w : Wire Label} (hw : w ∈ serviceWires a r) :
    w.kind = a.kind.request ∨ w.kind = a.kind.response := by
  simp only [serviceWires, List.mem_cons, List.not_mem_nil, or_false] at hw
  rcases hw with rfl | rfl
  · exact .inl rfl
  · exact .inr rfl

theorem kind_accessWires {w : Wire Label} (hw : w ∈ xs.flatMap (accessWires o)) :
    ∃ k : AccessKind, w.kind = k.request ∨ w.kind = k.response := by
  obtain ⟨x, -, hw⟩ := List.mem_flatMap.1 hw
  rw [accessWires] at hw
  cases hr : boundRegion o x.2 with
  | none => simp [hr] at hw
  | some r =>
    rw [hr] at hw
    exact ⟨x.1.kind, kind_serviceWires hw⟩

theorem kind_orderWires {w : Wire Label} (hw : w ∈ ordered.map orderWire) :
    w.kind = .dependency := by
  obtain ⟨q, -, rfl⟩ := List.mem_map.1 hw
  rfl

/-- Where a wire comes from, by its kind. -/
theorem mem_wires_of_kind {w : Wire Label} (hw : w ∈ p.wires o xs ordered) :
    match w.kind with
    | .control => w ∈ p.controlWires
    | .data | .mask => w ∈ p.valueWires
    | .dependency => w ∈ ordered.map orderWire
    | _ => True := by
  rcases List.mem_append.1 hw with hw | hw
  · rcases List.mem_append.1 hw with hw | hw
    · rw [kind_controlWires hw]
      exact hw
    · rcases kind_valueWires hw with h | h
      all_goals
        rw [h]
        exact hw
  · rcases List.mem_append.1 hw with hw | hw
    · obtain ⟨k, h | h⟩ := kind_accessWires hw
      all_goals
        rw [h]
        cases k <;> trivial
    · rw [kind_orderWires hw]
      exact hw

/-- Wires none of whose kinds use a slot leave it empty. -/
theorem portsAt_eq_nil_of_kind {ws : List (Wire Label)} {l : Label} {s : Slot}
    (h : ∀ w ∈ ws, w.kind.uses s = false) : portsAt ws l s = [] := by
  refine portsAt_eq_nil fun w hw => ?_
  have := h w hw
  rw [EdgeKind.uses, Bool.or_eq_false_iff, decide_eq_false_iff_not, decide_eq_false_iff_not] at this
  exact ⟨fun _ => this.1, fun _ => this.2⟩

section
variable {l : Label} {s : Slot}

theorem portsAt_wires : portsAt (p.wires o xs ordered) l s = portsAt p.controlWires l s ++
    portsAt p.valueWires l s ++ (portsAt (xs.flatMap (accessWires o)) l s ++
      portsAt (ordered.map orderWire) l s) := by
  rw [wires, memoryWires, portsAt_append, portsAt_append, portsAt_append]

theorem portsAt_controlWires_eq_nil (hs : EdgeKind.control.uses s = false) :
    portsAt p.controlWires l s = [] :=
  portsAt_eq_nil_of_kind fun w hw => by rwa [kind_controlWires hw]

theorem portsAt_valueWires_eq_nil (hdata : EdgeKind.data.uses s = false)
    (hmask : EdgeKind.mask.uses s = false) : portsAt p.valueWires l s = [] := by
  refine portsAt_eq_nil_of_kind fun w hw => ?_
  rcases kind_valueWires hw with h | h <;> rwa [h]

theorem portsAt_accessWires_eq_nil
    (hs : ∀ k : AccessKind, k.request.uses s = false ∧ k.response.uses s = false) :
    portsAt (xs.flatMap (accessWires o)) l s = [] := by
  refine portsAt_eq_nil_of_kind fun w hw => ?_
  obtain ⟨k, h | h⟩ := kind_accessWires hw
  · rw [h]
    exact (hs k).1
  · rw [h]
    exact (hs k).2

theorem portsAt_orderWires_eq_nil (hs : EdgeKind.dependency.uses s = false) :
    portsAt (ordered.map orderWire) l s = [] :=
  portsAt_eq_nil_of_kind fun w hw => by rwa [kind_orderWires hw]

theorem portsAt_wires_ctrl (hs : s = .ctrlIn ∨ s = .ctrlOut) :
    portsAt (p.wires o xs ordered) l s = portsAt p.controlWires l s := by
  rcases hs with rfl | rfl
  all_goals
    rw [portsAt_wires, portsAt_valueWires_eq_nil rfl rfl,
      portsAt_accessWires_eq_nil fun k => by cases k <;> exact ⟨rfl, rfl⟩,
      portsAt_orderWires_eq_nil rfl]
    simp

theorem portsAt_wires_data (hs : s = .dataIn ∨ s = .dataOut) :
    portsAt (p.wires o xs ordered) l s = portsAt p.valueWires l s := by
  rcases hs with rfl | rfl
  all_goals
    rw [portsAt_wires, portsAt_controlWires_eq_nil rfl,
      portsAt_accessWires_eq_nil fun k => by cases k <;> exact ⟨rfl, rfl⟩,
      portsAt_orderWires_eq_nil rfl]
    simp

/-- The slots of accesses and units are filled by service alone. -/
theorem portsAt_wires_memory
    (hs : s ∈ [Slot.memReq, .memResp, .readReq, .readResp, .writeReq, .writeResp]) :
    portsAt (p.wires o xs ordered) l s = portsAt (xs.flatMap (accessWires o)) l s := by
  simp only [List.mem_cons, List.not_mem_nil, or_false] at hs
  rcases hs with rfl | rfl | rfl | rfl | rfl | rfl
  all_goals
    rw [portsAt_wires, portsAt_controlWires_eq_nil rfl, portsAt_valueWires_eq_nil rfl rfl,
      portsAt_orderWires_eq_nil rfl]
    simp

end

/-! ## No access is served twice -/

theorem portsAt_accessWires {x : Access × Option Region} {l : Label} {s : Slot}
    (hs : s = .memReq ∨ s = .memResp) : portsAt (accessWires o x) l s =
      if l = x.1.label then (boundRegion o x.2).toList.map .unit else [] := by
  have hunit : ∀ k : AccessKind, k.request.targetSlot ≠ s ∧ k.response.sourceSlot ≠ s := by
    intro k
    cases k <;> rcases hs with rfl | rfl <;> decide
  rw [accessWires]
  cases boundRegion o x.2 with
  | none => simp [portsAt]
  | some r =>
    split
    · rename_i hl
      rw [hl]
      exact portsAt_serviceWires x.1 r hs
    · rename_i hl
      refine portsAt_eq_nil fun w hw => ?_
      simp only [Option.elim_some, serviceWires, List.mem_cons, List.not_mem_nil, or_false] at hw
      rcases hw with rfl | rfl
      · exact ⟨fun h => absurd h.symm hl, fun _ => (hunit x.1.kind).1⟩
      · exact ⟨fun _ => (hunit x.1.kind).2, fun h => absurd h.symm hl⟩

/-- The ports of an access towards memory are those of its own wires. -/
theorem portsAt_access (hnd : (xs.map (·.1.label)).Nodup) {x : Access × Option Region} (hx : x ∈ xs)
    {s : Slot} (hs : s = .memReq ∨ s = .memResp) :
    portsAt (p.wires o xs ordered) x.1.label s = (boundRegion o x.2).toList.map .unit := by
  rw [portsAt_wires_memory (by rcases hs with rfl | rfl <;> simp), portsAt_flatMap,
    flatMap_eq_of_unique hnd hx fun y _ hne => ?_]
  · rw [portsAt_accessWires hs, if_pos rfl]
  · rw [portsAt_accessWires hs, if_neg (Ne.symm hne)]

theorem servesOnce_wires (hnd : (xs.map (·.1.label)).Nodup) :
    ServesOnce (p.wires o xs ordered) := by
  intro l s hs
  by_cases hl : ∃ x ∈ xs, x.1.label = l
  · obtain ⟨x, hx, rfl⟩ := hl
    rw [portsAt_access hnd hx hs, List.length_map]
    exact Option.length_toList_le
  · have hnil : portsAt (p.wires o xs ordered) l s = [] := by
      rw [portsAt_wires_memory (by rcases hs with rfl | rfl <;> simp), portsAt_flatMap,
        List.flatMap_eq_nil_iff]
      exact fun x hx => by rw [portsAt_accessWires hs, if_neg fun h => hl ⟨x, hx, h.symm⟩]
    rw [hnil]
    exact Nat.zero_le _

end Plan

end Dataflow
