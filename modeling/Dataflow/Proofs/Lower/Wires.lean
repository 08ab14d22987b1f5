import Dataflow.Proofs.Lower.Members

/-!
# Adding wires to what is laid out

One lemma for each way in which lowering adds a wire: it fires a block, it tells a block the
condition of its mask, or it joins two labels and changes neither.
-/

namespace Dataflow

namespace Plan

variable {p : Plan} {o : Options} {id : Label → NodeId} {L : List Label} {W : List (Wire Label)}

/-! ## Ports of labels -/

theorem kind_opcode (parent split : NodeId) (b : BlockId) (i : Instr) :
    (p.opcode parent split b i).kind = (p.opcode 0 0 b i).kind := by
  cases i <;> rfl

theorem kind_opcodeAt (b : BlockId) (k : Nat) (i : Instr) :
    (p.opcodeAt id W b k i).kind = (p.opcode 0 0 b i).kind := by
  unfold opcodeAt
  cases (portsAt W (.instr b k) .memReq).getLast? with
  | none => exact kind_opcode ..
  | some u => exact (Opcode.kind_withMemory _ _).trans (kind_opcode ..)

theorem opcodeAt_eq {b : BlockId} {k : Nat} (h : portsAt W (.instr b k) .memReq = []) (i : Instr) :
    p.opcodeAt id W b k i = p.opcode (id (.block b)) (id (.split b k)) b i := by
  rw [opcodeAt, h]
  rfl

theorem opcodeAt_eq_withMemory {b : BlockId} {k : Nat} {u : Label}
    (h : portsAt W (.instr b k) .memReq = [u]) (i : Instr) : p.opcodeAt id W b k i =
      (p.opcode (id (.block b)) (id (.split b k)) b i).withMemory (id u) := by
  rw [opcodeAt, h]
  rfl

/-- Only accesses are bound to units. -/
theorem opcodeAt_of_not_access {b : BlockId} {k : Nat} {i : Instr} (h : i.isAccess = false) :
    p.opcodeAt id W b k i = p.opcode (id (.block b)) (id (.split b k)) b i := by
  unfold opcodeAt
  cases (portsAt W (.instr b k) .memReq).getLast? with
  | none => rfl
  | some u =>
    cases i with
    | load | store => cases h
    | _ => rfl

theorem kindOf_instr {b : BlockId} {k : Nat} {i : Instr} (hi : p.instr? b k = some i) :
    p.kindOf o id L W (.instr b k) =
      .instr ⟨p.opcodeAt id W b k i, id (.block b), i.result?⟩ := by
  simp only [kindOf, hi]

theorem accepts_instr {b : BlockId} {k : Nat} {i : Instr} (hi : p.instr? b k = some i) (s : Slot) :
    (p.kindOf o id L W (.instr b k)).accepts s = (p.opcode 0 0 b i).kind.accepts s := by
  rw [kindOf_instr hi, NodeKind.accepts, kind_opcodeAt]

/-- A member of a block takes control, and masks and dependencies. -/
theorem accepts_member {b : BlockId} {m : Label} (hm : m ∈ p.members b) {s : Slot}
    (hs : s = .ctrlIn ∨ s = .depIn) : (p.kindOf o id L W m).accepts s = true := by
  have hall : ∀ k : OpKind, k.accepts s = true := by
    intro k
    rcases hs with rfl | rfl <;> rfl
  unfold members at hm
  cases hc : p.function.blocks[b]? with
  | none => simp [hc] at hm
  | some c =>
    simp only [hc, Option.elim_some, List.mem_append, List.mem_map, List.mem_range,
      List.mem_singleton] at hm
    rcases hm with ⟨k, hk, rfl⟩ | rfl
    · have hi : p.instr? b k = some c.body[k] := by simp [instr?, hc, hk]
      rw [accepts_instr hi, hall]
    · exact hall _

/-! ## Wires -/

/-- A wire into a block leaves all other labels what they are, unless it binds an access. -/
theorem kindOf_wire_block (kind : EdgeKind) (hreq : kind.sourceSlot ≠ .memReq) {a x : Label}
    {b : BlockId} (hx : x ≠ .block b) :
    p.kindOf o id L (W ++ [⟨kind, a, .block b⟩]) x = p.kindOf o id L W x := by
  have hports : ∀ s, s ≠ kind.sourceSlot → portsAt [⟨kind, a, .block b⟩] x s = [] := by
    intro s hs
    refine portsAt_eq_nil fun w hw => ?_
    obtain rfl := List.mem_singleton.1 hw
    exact ⟨fun _ => Ne.symm hs, fun h => absurd h.symm hx⟩
  refine kindOf_append (fun c _ y hy => ?_) (fun c _ => hports _ (by cases kind <;> decide))
    fun c k _ => hports _ (Ne.symm hreq)
  rw [hports _ (by cases kind <;> decide)] at hy
  cases hy

section
variable {F : Frame Label} (hd : F.Fits (p.draw o F.id L W))
include hd

/-- A wire that fires no block, feeds no block and binds no access changes nothing but ports. -/
theorem draws_join (kind : EdgeKind) {a b : Label} (ha : a ∈ L) (hb : b ∈ L)
    (hsrc : (p.kindOf o F.id L W a).accepts kind.sourceSlot = true)
    (hdst : (p.kindOf o F.id L W b).accepts kind.targetSlot = true)
    (hkind : Graph.kindDefect? kind (F.id a) (F.id b) (F.node (p.draw o F.id L W) a)
      (F.node (p.draw o F.id L W) b) = none)
    (hreq : kind.sourceSlot ≠ .memReq)
    (hblock : ∀ c, b = .block c →
      kind.targetSlot ≠ .dataIn ∧ (kind.targetSlot = .ctrlIn → p.fires c a = false)) :
    F.Draws (Net.connect kind (F.id a) (F.id b)) (p.draw o F.id L W) ()
      (p.draw o F.id L (W ++ [⟨kind, a, b⟩])) := by
  refine (Frame.draws_connect hd kind ha hb hsrc hdst hkind).congr rfl rfl fun x _ => ?_
  refine (kindOf_append ?_ ?_ ?_).symm
  · rintro c rfl y hy
    obtain ⟨w, hw, hc, hs, rfl⟩ := (mem_portsAt_target rfl).1 hy
    obtain rfl := List.mem_singleton.1 hw
    exact (hblock c hc).2 hs
  · rintro c rfl
    refine portsAt_eq_nil fun w hw => ⟨fun _ => by cases w.kind <;> decide, fun hc => ?_⟩
    obtain rfl := List.mem_singleton.1 hw
    exact (hblock c hc).1
  · rintro c k rfl
    refine portsAt_eq_nil fun w hw => ⟨fun _ => ?_, fun _ => by cases w.kind <;> decide⟩
    obtain rfl := List.mem_singleton.1 hw
    exact hreq

theorem draws_fire {a : Label} {b : BlockId} (ha : a ∈ L) (hb : .block b ∈ L)
    (hsrc : (p.kindOf o F.id L W a).accepts .ctrlOut = true) (hfires : p.fires b a = true) :
    F.Draws (Net.activate (F.id (.block b)) (F.id a)) (p.draw o F.id L W) ()
      (p.draw o F.id L (W ++ [⟨.control, a, .block b⟩])) := by
  refine (Frame.draws_activate hd ha hb rfl hsrc).congr rfl rfl fun x _ => ?_
  by_cases hx : x = .block b
  · subst hx
    have hctrl := across_target (⟨.control, a, .block b⟩ : Wire Label)
    have hdata : (⟨.control, a, .block b⟩ : Wire Label).across (.block b) .dataIn = none := by
      simp [Wire.across, EdgeKind.sourceSlot, EdgeKind.targetSlot]
    simp only [EdgeKind.targetSlot] at hctrl
    simp only [Drawing.set_kind, Function.update_self, draw_kind, kindOf, blockNodeAt,
      portsAt_concat, hctrl, hdata, Option.toList_some, Option.toList_none, List.append_nil,
      List.filter_append, List.filter_cons, hfires, if_true, List.filter_nil,
      List.getLast?_concat, Option.map_some]
  · simp only [Drawing.set_kind, Function.update_of_ne hx, Drawing.wire_kind, draw_kind]
    exact (kindOf_wire_block .control (by decide) hx).symm

theorem draws_maskSource {a : Label} {b : BlockId} (ha : a ∈ L) (hb : .block b ∈ L)
    (hsrc : (p.kindOf o F.id L W a).accepts .dataOut = true) :
    F.Draws (Net.setMaskSource (F.id (.block b)) (F.id a)) (p.draw o F.id L W) ()
      (p.draw o F.id L (W ++ [⟨.data, a, .block b⟩])) := by
  refine (Frame.draws_setMaskSource hd ha hb rfl hsrc).congr rfl rfl fun x _ => ?_
  by_cases hx : x = .block b
  · subst hx
    have hdata := across_target (⟨.data, a, .block b⟩ : Wire Label)
    have hctrl : (⟨.data, a, .block b⟩ : Wire Label).across (.block b) .ctrlIn = none := by
      simp [Wire.across, EdgeKind.sourceSlot, EdgeKind.targetSlot]
    simp only [EdgeKind.targetSlot] at hdata
    simp only [Drawing.set_kind, Function.update_self, draw_kind, kindOf, blockNodeAt,
      portsAt_concat, hctrl, hdata, Option.toList_some, Option.toList_none, List.append_nil,
      List.getLast?_concat, Option.map_some]
  · simp only [Drawing.set_kind, Function.update_of_ne hx, Drawing.wire_kind, draw_kind]
    exact (kindOf_wire_block .data (by decide) hx).symm

end

end Plan

end Dataflow
