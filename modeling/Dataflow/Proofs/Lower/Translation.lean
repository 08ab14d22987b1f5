import Dataflow.Proofs.Lower.Conditions

/-!
# What the graph of a function is

`Translates` says what it means that a graph is the graph of a function, in terms of the function and
of where its blocks, instructions and values are placed: which node lists which members, which ports
lead where, and that there are no other edges for data and control. `Session.lower_translates`: if
lowering gives a graph, it is the graph of the function with preheaders.
-/

namespace Dataflow

open Relation

/-! ## The specification -/

/-- Where the parts of a function are in a graph. -/
structure Placement where
  block : BlockId → NodeId
  /-- The instruction at a position of a block. -/
  instr : BlockId → Nat → NodeId
  exit : BlockId → NodeId
  value : Value → NodeId

/-- The operation is that of the instruction. -/
inductive Performs : Instr → Opcode → Prop
  | phi {dest ty incoming mask us} : Performs (.phi dest ty incoming) (.phi mask us)
  | binary {dest op lhs rhs} : Performs (.binary dest op lhs rhs) (.binary op)
  | icmp {dest pred lhs rhs} : Performs (.icmp dest pred lhs rhs) (.icmp pred)
  | select {dest cond t e} : Performs (.select dest cond t e) .select
  | alloca {dest ty count} : Performs (.alloca dest ty count) (.alloca ty count)
  | gep {dest base indices} : Performs (.gep dest base indices) .gep
  | load {dest ty addr memory} : Performs (.load dest ty addr) (.load ty memory)
  | store {addr value memory} : Performs (.store addr value) (.store memory)
  | cast {dest op src ty} : Performs (.cast dest op src ty) (.cast op ty)
  | call {dest callee args split} : Performs (.call dest callee args) (.call callee split)

namespace Function

/-- A block of the function that control can get to. -/
def LiveBlock (f : Function) (b : Block) : Prop := f.blocks[b.id]? = some b ∧ f.Reachable b.id

/-- The value is read in a block that control can get to. -/
def Wants (f : Function) (v : Value) : Prop :=
  ∃ b, f.LiveBlock b ∧ ((∃ i ∈ b.body, f.Reads v i) ∨ v ∈ b.exit.operands)

/-- The predecessors that control can come from, in declaration order. -/
structure Arrivals (f : Function) (b : BlockId) (us : List BlockId) : Prop where
  ascending : us.Pairwise (· < ·)
  mem_iff : ∀ u, u ∈ us ↔ f.Reachable u ∧ f.Edge u b

/-- A value is found at the node that produces it. -/
def Finds (f : Function) (g : Graph) (place : Placement) : Value → Prop
  | .inst id => ∃ b k i, f.LiveBlock b ∧ b.body[k]? = some i ∧ i.result? = some id ∧
    place.value (.inst id) = place.instr b.id k
  | .arg j => g.kind? (place.value (.arg j)) = some (.arg j g.entry)
  | .global i => ∃ decl, f.globals[i]? = some decl ∧
    g.kind? (place.value (.global i)) = some (.global i decl.name)
  | .const c => g.kind? (place.value (.const c)) = some (.const c)

/-- The nodes of a graph are those of a function: one for each block that control can get to, which
lists the nodes of its phis and those of its other instructions, with its exit behind them. -/
structure LaidOut (f : Function) (g : Graph) (place : Placement) : Prop where
  blocks : ∀ n b, (∃ bn, g.kind? n = some (.block bn) ∧ bn.block = b) ↔
    f.Reachable b ∧ n = place.block b
  members : ∀ b bn, f.LiveBlock b → g.kind? (place.block b.id) = some (.block bn) →
    bn.members.Nodup ∧
    bn.phis = (List.range b.phis.length).map (place.instr b.id) ∧
    bn.instructions =
      (List.range' b.phis.length (b.body.length - b.phis.length)).map (place.instr b.id) ++
        [place.exit b.id]
  instrs : ∀ b k i, f.LiveBlock b → b.body[k]? = some i → ∃ op,
    g.kind? (place.instr b.id k) = some (.instr ⟨op, place.block b.id, i.result?⟩) ∧ Performs i op
  exits : ∀ b, f.LiveBlock b → ∃ op,
    g.kind? (place.exit b.id) = some (.instr ⟨op, place.block b.id, none⟩) ∧
      ((∃ v, b.exit = .ret v) ∧ op = .ret ∨
        (∀ v, b.exit ≠ .ret v) ∧ op = .branch (b.exit.targets.eraseDups.map place.block))
  owned : ∀ n i, g.kind? n = some (.instr i) → ∃ bn, g.kind? i.block = some (.block bn) ∧
    n ∈ bn.members
  values : ∀ v, f.Wants v → f.Finds g place v

/-- The ports of a graph for data and control are those of a function. -/
structure WiredUp (f : Function) (g : Graph) (place : Placement) : Prop where
  operands : ∀ b k i, f.LiveBlock b → b.body[k]? = some i → i.isPhi = false →
    g.ports (place.instr b.id k) .dataIn = i.operands.map place.value
  exit_operands : ∀ b, f.LiveBlock b →
    g.ports (place.exit b.id) .dataIn = b.exit.operands.map place.value
  branches : ∀ b, f.LiveBlock b →
    g.ports (place.exit b.id) .ctrlOut = b.exit.targets.eraseDups.map place.block
  arrivals : ∀ b, f.Reachable b → ∃ us, f.Arrivals b us ∧
    g.ports (place.block b) .ctrlIn = (if b = entry then [g.entry] else []) ++ us.map place.exit
  phi_length : ∀ b k dest ty incoming, f.LiveBlock b → b.body[k]? = some (.phi dest ty incoming) →
    (g.ports (place.instr b.id k) .dataIn).length = (g.ports (place.block b.id) .ctrlIn).length
  phi_inputs : ∀ b k dest ty incoming, f.LiveBlock b → b.body[k]? = some (.phi dest ty incoming) →
    ∀ (j : Nat) u, f.Reachable u → (g.ports (place.block b.id) .ctrlIn)[j]? = some (place.exit u) →
      ∃ v, (u, v) ∈ incoming ∧ (g.ports (place.instr b.id k) .dataIn)[j]? = some (place.value v)

/-- Where edges for data and control lead. -/
structure Confined (f : Function) (g : Graph) (place : Placement) : Prop where
  /-- Besides operands, data goes to blocks as the sources of masks. -/
  data : ∀ e ∈ g.edges, e.kind = .data →
    (∃ b, f.Reachable b ∧ e.dst = place.block b) ∨
    (∃ b k i, f.LiveBlock b ∧ b.body[k]? = some i ∧ e.dst = place.instr b.id k) ∨
    ∃ b, f.Reachable b ∧ e.dst = place.exit b
  /-- Besides branches, control goes from blocks to members and from calls to their split calls. -/
  control : ∀ e ∈ g.edges, e.kind = .control →
    (e.src = g.entry ∧ e.dst = place.block entry) ∨
    (∃ u v, f.Reachable u ∧ f.Edge u v ∧ e.src = place.exit u ∧ e.dst = place.block v) ∨
    (∃ bn, g.kind? e.src = some (.block bn) ∧ e.dst ∈ bn.members) ∨
    ∃ callee b source, g.kind? e.src = some (.instr ⟨.call callee e.dst, b, source⟩)

/-- The graph is that of the function. -/
structure Translates (f : Function) (g : Graph) (place : Placement) : Prop where
  laidOut : f.LaidOut g place
  wiredUp : f.WiredUp g place
  confined : f.Confined g place
  agrees : g.Agrees

end Function

namespace Plan

variable {p : Plan} {o : Options} {F : Frame Label} {xs : List (Access × Option Region)}
  {ordered : List (Access × Access)}

/-- Where a frame places the parts of a plan. -/
def placement (p : Plan) (F : Frame Label) : Placement where
  block b := F.id (.block b)
  instr b k := F.id (.instr b k)
  exit b := F.id (.exit b)
  value v := F.id (p.labelOf v)

/-! ## Nodes -/

theorem kindOf_eq_block {id : Label → NodeId} {L : List Label} {W : List (Wire Label)} {l : Label}
    {bn : BlockNode} (h : p.kindOf o id L W l = .block bn) :
    ∃ b, l = .block b ∧ bn = p.blockNodeAt id L W b := by
  cases l with
  | block b => exact ⟨b, rfl, (NodeKind.block.inj h).symm⟩
  | instr b k =>
    rw [kindOf] at h
    split at h <;> cases h
  | leaf v => cases v <;> cases h
  | _ => cases h

theorem kindOf_eq_instr {id : Label → NodeId} {L : List Label} {W : List (Wire Label)} {l : Label}
    {i : InstrNode} (h : p.kindOf o id L W l = .instr i) :
    ∃ b, l.owner? = some (.block b) ∧ i.block = id (.block b) := by
  cases l with
  | exit b => exact ⟨b, rfl, (NodeKind.instr.inj h) ▸ rfl⟩
  | instr b k =>
    rw [kindOf] at h
    split at h
    · exact ⟨b, rfl, (NodeKind.instr.inj h) ▸ rfl⟩
    · cases h
  | leaf v => cases v <;> cases h
  | _ => cases h

theorem performs_opcodeAt {id : Label → NodeId} {W : List (Wire Label)} (b : BlockId) (k : Nat)
    (i : Instr) : Performs i (p.opcodeAt id W b k i) := by
  unfold opcodeAt
  cases (portsAt W (.instr b k) .memReq).getLast? <;> cases i <;> constructor

section
variable (hs : p.Scope F (p.wires o xs ordered))
include hs

theorem Scope.kind?_eq {l : Label} (hl : l ∈ p.fullLabels (p.wires o xs ordered)) :
    (F.net (p.whole o F xs ordered)).kind? (F.id l) =
      some (p.kindOf o F.id (p.fullLabels (p.wires o xs ordered)) (p.wires o xs ordered) l) := by
  rw [Graph.kind?, Graph.node?, hs.fits_whole.getElem?_nodes hl]
  rfl

theorem Scope.exists_label_of_kind? {n : NodeId} {kind : NodeKind}
    (h : (F.net (p.whole o F xs ordered)).kind? n = some kind) :
    ∃ l ∈ p.fullLabels (p.wires o xs ordered), F.id l = n ∧
      p.kindOf o F.id (p.fullLabels (p.wires o xs ordered)) (p.wires o xs ordered) l = kind := by
  obtain ⟨node, hnode, rfl⟩ := Option.map_eq_some_iff.1 h
  have hn : n < (p.fullLabels (p.wires o xs ordered)).length := by
    simpa [Frame.net] using (List.getElem?_eq_some_iff.1 hnode).1
  obtain ⟨l, hl, rfl⟩ := hs.fits_whole.exists_label hn
  refine ⟨l, hl, rfl, ?_⟩
  have := hs.kind?_eq hl
  rw [h] at this
  exact (Option.some.inj this).symm

omit hs in
theorem mem_baseLabels_of_mem {l : Label} (hl : l ∈ p.fullLabels (p.wires o xs ordered))
    (hextra : l.isExtra = false) (hloop : ∀ h, l ≠ .loop h) : l ∈ p.baseLabels := by
  rcases List.mem_append.1 hl with hl | hl
  · rcases List.mem_append.1 hl with hl | hl
    · exact hl
    · rw [(mem_extras.1 hl).1] at hextra
      cases hextra
  · obtain ⟨loop, -, rfl⟩ := List.mem_map.1 hl
    exact absurd rfl (hloop loop.header)

theorem Scope.members_blockNodeAt {b : Block} (hb : b ∈ p.blocks) :
    (p.blockNodeAt F.id (p.fullLabels (p.wires o xs ordered)) (p.wires o xs ordered) b.id).members =
      (p.members b.id).map F.id := by
  rw [BlockNode.members, blockNodeAt]
  simp only [hs.owned_fullLabels hb, hs.sound.filter_isPhi hb, hs.sound.filter_not_isPhi hb]
  rw [← List.map_append, ← hs.sound.members_split hb]

theorem Scope.id_entry : F.id .entry = 0 := hs.fits_whole.id_eq (i := 0) rfl

/-- What is wanted is defined, is there and has a label. -/
theorem Scope.known_of_wants (hcomplete : p.Complete) {v : Value} (hv : p.function.Wants v) :
    p.function.Defines v ∧ p.Known v ∧ p.labelOf v ∈ p.fullLabels (p.wires o xs ordered) := by
  have hp := hs.sound
  have hwire : ∀ {x}, ⟨.data, p.labelOf v, x⟩ ∈ p.valueWires →
      p.labelOf v ∈ p.fullLabels (p.wires o xs ordered) := fun hw =>
    hs.fits_whole.src_mem _ (List.mem_append_left _ (List.mem_append_right _ hw))
  obtain ⟨b, hb, ⟨i, hi, hv⟩ | hv⟩ := hv
  all_goals
    have hb := hp.mem_blocks.2 hb
    have hblock := hp.mem_blocks_function hb
  · have hv := (hp.mem_reads hb hi).2 hv
    obtain ⟨k, hk⟩ := List.mem_iff_getElem?.1 hi
    refine ⟨hp.wellFormed.operands b hblock i hi v (mem_operands_of_mem_reads hv),
      (hcomplete b hb).1 i hi v hv, hwire (x := .instr b.id k) ?_⟩
    exact mem_valueWires.2 (.inr (.inr (.inl ⟨b, hb, i, k, hk, v, hv, rfl⟩)))
  · refine ⟨hp.wellFormed.exit_operands b hblock v hv, (hcomplete b hb).2 v hv,
      hwire (x := .exit b.id) ?_⟩
    exact mem_valueWires.2 (.inr (.inr (.inr ⟨b, hb, v, hv, rfl⟩)))

/-- A value that is wanted is found. -/
theorem Scope.finds (hcomplete : p.Complete) {v : Value} (hv : p.function.Wants v) :
    p.function.Finds (F.net (p.whole o F xs ordered)).toGraph (p.placement F) v := by
  obtain ⟨hdef, hknown, hlabel⟩ := hs.known_of_wants hcomplete hv
  have hkind := hs.kind?_eq hlabel
  cases v with
  | inst id =>
    obtain ⟨hlaid, hprod⟩ := labelOf_produces hknown
    obtain ⟨b, k, i, hl, hi, hid⟩ := produces_iff.1 hprod
    rw [hl] at hlaid
    obtain ⟨b, hb, rfl⟩ := hs.sound.exists_block (hs.sound.mem_baseLabels.1 hlaid).1
    exact ⟨b, k, i, hs.sound.mem_blocks.1 hb, (hs.sound.instr?_eq hb k).symm.trans hi, hid,
      congrArg F.id hl⟩
  | arg j => exact hkind.trans (by rw [labelOf, kindOf, hs.id_entry]; rfl)
  | global i =>
    have hget := List.getElem?_eq_getElem hdef
    exact ⟨_, hget, hkind.trans (by simp only [labelOf, kindOf, hget, Option.elim_some])⟩
  | const c => exact hkind

theorem Scope.laidOut (hcomplete : p.Complete) :
    p.function.LaidOut (F.net (p.whole o F xs ordered)).toGraph (p.placement F) where
  blocks n b := by
    constructor
    · rintro ⟨bn, hn, rfl⟩
      obtain ⟨l, hl, rfl, hkind⟩ := hs.exists_label_of_kind? hn
      obtain ⟨b, rfl, rfl⟩ := kindOf_eq_block hkind
      exact ⟨hs.sound.mem_baseLabels.1 (mem_baseLabels_of_mem hl rfl fun _ h => by cases h), rfl⟩
    · rintro ⟨hr, rfl⟩
      exact ⟨_, hs.kind?_eq (l := .block b) (mem_fullLabels (hs.sound.mem_baseLabels.2 hr)), rfl⟩
  members b bn hb hbn := by
    have hb := hs.sound.mem_blocks.2 hb
    have hlaid := hs.sound.laid_block hb
    rw [placement, hs.kind?_eq (mem_fullLabels hlaid)] at hbn
    obtain rfl := NodeKind.block.inj (Option.some.inj hbn)
    refine ⟨?_, ?_, ?_⟩
    · rw [hs.members_blockNodeAt hb]
      refine (hs.sound.nodup_members hb).map_on fun x hx y hy h => ?_
      exact (hs.fits_whole.id_inj (mem_fullLabels (hs.sound.laid_member hb hx))
        (mem_fullLabels (hs.sound.laid_member hb hy))).1 h
    · simp only [blockNodeAt, hs.owned_fullLabels hb, hs.sound.filter_isPhi hb, List.map_map]
      rfl
    · simp only [blockNodeAt, hs.owned_fullLabels hb, hs.sound.filter_not_isPhi hb, List.map_append,
        List.map_map]
      rfl
  instrs b k i hb hi := by
    have hb := hs.sound.mem_blocks.2 hb
    have hlaid := hs.sound.laid_instr hb hi
    refine ⟨p.opcodeAt F.id (p.wires o xs ordered) b.id k i,
      (hs.kind?_eq (mem_fullLabels hlaid)).trans ?_, performs_opcodeAt b.id k i⟩
    rw [kindOf_instr ((hs.sound.instr?_eq hb k).trans hi)]
    rfl
  exits b hb := by
    have hlaid := hs.sound.laid_exit (hs.sound.mem_blocks.2 hb)
    refine ⟨_, hs.kind?_eq (mem_fullLabels hlaid), ?_⟩
    by_cases hret : ∃ v, b.exit = .ret v
    · exact .inl ⟨hret, exitOp_eq_ret hb.1 hret.choose_spec⟩
    · rw [not_exists] at hret
      refine .inr ⟨hret, ?_⟩
      rw [exitOp_eq_branch hb.1 hret, hs.sound.describes.succs_eq hb.1]
      rfl
  owned n i hn := by
    obtain ⟨l, hl, rfl, hkind⟩ := hs.exists_label_of_kind? hn
    obtain ⟨b, howner, hblock⟩ := kindOf_eq_instr hkind
    have hr : p.function.Reachable b := by
      cases l with
      | instr c k =>
        cases howner
        exact (hs.sound.mem_baseLabels.1 (mem_baseLabels_of_mem hl rfl fun _ h => by cases h)).1
      | exit c =>
        cases howner
        exact hs.sound.mem_baseLabels.1 (mem_baseLabels_of_mem hl rfl fun _ h => by cases h)
      | _ => cases howner
    obtain ⟨b, hb, rfl⟩ := hs.sound.exists_block hr
    refine ⟨_, hblock ▸ hs.kind?_eq (mem_fullLabels (hs.sound.laid_block hb)), ?_⟩
    rw [hs.members_blockNodeAt hb, ← hs.owned_fullLabels hb]
    exact List.mem_map_of_mem (List.mem_filter.2 ⟨hl, decide_eq_true howner⟩)
  values v hv := hs.finds hcomplete hv

/-! ## Ports -/

theorem Scope.dataIn_eq {l : Label} (hl : l ∈ p.baseLabels) :
    (F.net (p.whole o F xs ordered)).ports (F.id l) .dataIn =
      (portsAt p.valueWires l .dataIn).map F.id := by
  rw [hs.fits_whole.ports_eq (mem_fullLabels hl), draw_wires, portsAt_wires_data (.inl rfl)]

theorem Scope.ctrl_eq {l : Label} (hl : l ∈ p.baseLabels) {s : Slot}
    (hslot : s = .ctrlIn ∨ s = .ctrlOut) : (F.net (p.whole o F xs ordered)).ports (F.id l) s =
      (portsAt p.controlWires l s).map F.id := by
  rw [hs.fits_whole.ports_eq (mem_fullLabels hl), draw_wires, portsAt_wires_ctrl hslot]

theorem Scope.ctrlIn_block {b : BlockId} (hb : p.function.Reachable b) :
    (F.net (p.whole o F xs ordered)).ports (F.id (.block b)) .ctrlIn =
      (if b = Function.entry then [0] else []) ++ (p.flow.preds b).map fun u => F.id (.exit u) := by
  have hlaid : .block b ∈ p.baseLabels := hs.sound.mem_baseLabels.2 hb
  rw [hs.ctrl_eq hlaid (.inl rfl), hs.sound.ctrlIn_block hb, List.map_append, List.map_map]
  split
  · rw [List.map_singleton, hs.id_entry]
    rfl
  · rfl

theorem Scope.dataIn_instr {b : Block} (hb : b ∈ p.blocks) {k : Nat} {i : Instr}
    (hi : b.body[k]? = some i) : (F.net (p.whole o F xs ordered)).ports (F.id (.instr b.id k)) .dataIn =
      (p.reads b.id i).map fun v => F.id (p.labelOf v) := by
  rw [hs.dataIn_eq (hs.sound.laid_instr hb hi), hs.sound.dataIn_instr hb hi, List.map_map]
  rfl

omit hs in
theorem Sound.arrivals_preds (hp : p.Sound) {b : BlockId} (hb : p.function.Reachable b) :
    p.function.Arrivals b (p.flow.preds b) where
  ascending := by
    rw [hp.describes.preds_eq (hp.wellFormed.reachable_lt hb)]
    exact List.pairwise_lt_range.filter _
  mem_iff _ := hp.describes.mem_preds hp.wellFormed.toNumbered

omit hs in
theorem getElem?_filterMap_of_isSome {β γ : Type} {k : β → Option γ} {ys : List β}
    (h : ∀ y ∈ ys, (k y).isSome) (j : Nat) : (ys.filterMap k)[j]? = ys[j]?.bind k := by
  induction ys generalizing j with
  | nil => rfl
  | cons y ys ih =>
    rw [List.forall_mem_cons] at h
    obtain ⟨z, hz⟩ := Option.isSome_iff_exists.1 h.1
    rw [List.filterMap_cons_some hz]
    cases j with
    | zero => exact hz.symm
    | succ j => exact ih h.2 j

/-- A phi stands outside the entry. -/
theorem Scope.ctrlIn_phi (hsup : p.Supported) {b : Block} (hb : b ∈ p.blocks) {dest : InstId}
    {ty : Ty} {incoming : List (BlockId × Value)} (hi : .phi dest ty incoming ∈ b.body) :
    (F.net (p.whole o F xs ordered)).ports (F.id (.block b.id)) .ctrlIn =
      (p.flow.preds b.id).map fun u => F.id (.exit u) := by
  obtain ⟨hget, hr⟩ := hs.sound.mem_blocks.1 hb
  have hentry : b.id ≠ Function.entry := by
    intro h
    rw [← b.phis_append, hsup.entry (h ▸ hget), List.nil_append] at hi
    have hphi := hs.sound.wellFormed.phis_first b (hs.sound.mem_blocks_function hb) _ hi
    cases hphi
  rw [hs.ctrlIn_block hr, if_neg hentry, List.nil_append]

theorem Scope.wiredUp (hsup : p.Supported) :
    p.function.WiredUp (F.net (p.whole o F xs ordered)).toGraph (p.placement F) where
  operands b k i hb hi hphi := by
    rw [placement, hs.dataIn_instr (hs.sound.mem_blocks.2 hb) hi]
    cases i with
    | phi => cases hphi
    | _ => rfl
  exit_operands b hb := by
    have hb := hs.sound.mem_blocks.2 hb
    rw [placement, hs.dataIn_eq (hs.sound.laid_exit hb), hs.sound.dataIn_exit hb, List.map_map]
    rfl
  branches b hlive := by
    have hb := hs.sound.mem_blocks.2 hlive
    rw [placement, hs.ctrl_eq (hs.sound.laid_exit hb) (.inr rfl), hs.sound.ctrlOut_exit hb,
      hs.sound.describes.succs_eq hlive.1, List.map_map]
    rfl
  arrivals b hb := ⟨_, hs.sound.arrivals_preds hb, hs.ctrlIn_block hb⟩
  phi_length b k dest ty incoming hb hi := by
    have hb := hs.sound.mem_blocks.2 hb
    have hctrl := hs.ctrlIn_phi hsup hb (List.mem_of_getElem? hi)
    have hall := hs.sound.isSome_incoming hb (List.mem_of_getElem? hi)
    rw [placement, hs.dataIn_instr hb hi, hctrl, List.length_map, List.length_map]
    exact List.filterMap_length_eq_length.2 hall
  phi_inputs b k dest ty incoming hb hi j u hu hj := by
    have hb := hs.sound.mem_blocks.2 hb
    have hctrl := hs.ctrlIn_phi hsup hb (List.mem_of_getElem? hi)
    have hall := hs.sound.isSome_incoming hb (List.mem_of_getElem? hi)
    rw [placement, hctrl, List.getElem?_map, Option.map_eq_some_iff] at hj
    obtain ⟨w, hw, hid⟩ := hj
    obtain rfl : w = u := by
      have hwr := ((hs.sound.arrivals_preds (hs.sound.mem_blocks.1 hb).2).mem_iff w).1
        (List.mem_of_getElem? hw)
      have hexit : ∀ {c}, p.function.Reachable c → .exit c ∈ p.baseLabels :=
        fun hc => hs.sound.mem_baseLabels.2 hc
      exact Label.exit.inj ((hs.fits_whole.id_inj (mem_fullLabels (hexit hwr.1))
        (mem_fullLabels (hexit hu))).1 hid)
    obtain ⟨v, hv⟩ := Option.isSome_iff_exists.1 (hall w (List.mem_of_getElem? hw))
    obtain ⟨e, he, rfl⟩ := Option.map_eq_some_iff.1 hv
    refine ⟨e.2, mem_of_find?_fst he, ?_⟩
    rw [placement, hs.dataIn_instr hb hi, List.getElem?_map, reads,
      getElem?_filterMap_of_isSome hall, hw, Option.bind_some, hv]
    rfl

end

/-! ## Edges -/

/-- An edge is drawn for a wire and leads to the port of the wire. -/
theorem exists_wire {e : Edge} (he : e ∈ (F.net (p.whole o F xs ordered)).edges) :
    ∃ w ∈ p.wires o xs ordered, e.kind = w.kind ∧ e.src = F.id w.src ∧ e.dst = F.id w.dst ∧
      (portsAt (p.wires o xs ordered) w.dst w.kind.targetSlot)[e.dstPort]? = some w.src := by
  obtain ⟨before, after, w, hw, rfl⟩ := Frame.mem_edges.1 he
  rw [draw_wires] at hw
  refine ⟨w, hw ▸ List.mem_append_right _ List.mem_cons_self, rfl, rfl, rfl, ?_⟩
  rw [hw]
  exact Frame.getElem?_portsAt (across_target w)

theorem mem_valueWires_of_data {w : Wire Label} (hw : w ∈ p.wires o xs ordered)
    (hkind : w.kind = .data) : w ∈ p.valueWires := by
  have := mem_wires_of_kind hw
  rwa [hkind] at this

theorem mem_controlWires_of_control {w : Wire Label} (hw : w ∈ p.wires o xs ordered)
    (hkind : w.kind = .control) : w ∈ p.controlWires := by
  have := mem_wires_of_kind hw
  rwa [hkind] at this

theorem Scope.confined (hs : p.Scope F (p.wires o xs ordered)) :
    p.function.Confined (F.net (p.whole o F xs ordered)).toGraph (p.placement F) where
  data e he hkind := by
    obtain ⟨w, hw, hk, -, hdst, -⟩ := exists_wire he
    have hlive := fun {b} => hs.sound.mem_blocks (b := b)
    obtain ⟨b, hb, v, hv, rfl⟩ | ⟨b, hb, m, hm, -, rfl⟩ | ⟨b, hb, i, k, hi, v, hv, rfl⟩ |
      ⟨b, hb, v, hv, rfl⟩ := mem_valueWires.1 (mem_valueWires_of_data hw (hk.symm.trans hkind))
    · exact .inl ⟨b.id, (hlive.1 hb).2, hdst⟩
    · rw [hkind] at hk
      cases hk
    · exact .inr (.inl ⟨b, k, i, hlive.1 hb, hi, hdst⟩)
    · exact .inr (.inr ⟨b.id, (hlive.1 hb).2, hdst⟩)
  control e he hkind := by
    obtain ⟨w, hw, hk, hsrc, hdst, -⟩ := exists_wire he
    obtain rfl | ⟨b, hb, s, hsucc, rfl⟩ | ⟨b, hb, m, hm, rfl⟩ | ⟨l, hl, hcall⟩ :=
      mem_controlWires.1 (mem_controlWires_of_control hw (hk.symm.trans hkind))
    · exact .inl ⟨hsrc.trans hs.id_entry, hdst⟩
    · exact .inr (.inl ⟨b.id, s, (hs.sound.mem_blocks.1 hb).2, hs.sound.describes.mem_succs.1 hsucc,
        hsrc, hdst⟩)
    · refine .inr (.inr (.inl ⟨_, hsrc ▸ hs.kind?_eq (mem_fullLabels (hs.sound.laid_block hb)), ?_⟩))
      rw [hs.members_blockNodeAt hb, hdst]
      exact List.mem_map_of_mem hm
    · obtain ⟨b, k, dest, callee, args, hi, rfl, rfl⟩ := mem_callWire?.1 hcall
      refine .inr (.inr (.inr ⟨callee, F.id (.block b), dest, ?_⟩))
      rw [hsrc, hdst, hs.kind?_eq (mem_fullLabels hl), kindOf_instr hi,
        opcodeAt_of_not_access rfl]
      rfl

/-- A finished graph is the graph of its plan's function. -/
theorem Scope.translates (hs : p.Scope F (p.wires o xs ordered)) (hsup : p.Supported)
    (hcomplete : p.Complete) :
    p.function.Translates (F.net (p.whole o F xs ordered)).toGraph (p.placement F) :=
  ⟨hs.laidOut hcomplete, hs.wiredUp hsup, hs.confined, hs.fits_whole.agrees⟩

end Plan

/-- What is known when lowering gives a graph: the plan, the pairs that are asked about, and the
drawing. -/
theorem Session.lower_plan {σ : Type} {s : Session} {f : Function} {d : Disambiguator σ}
    {oracle : σ} {g : Graph} (hf : f.WellFormed) (hg : (s.lower f d oracle).result = .ok g) :
    ∃ (p : Plan) (cs : List (Access × Access)), Plan.ofFunction f = .ok p ∧
      p.conflicting p.accessList = .ok cs ∧ Flow.Reducible f.Edge Function.entry ∧ p.Sound ∧
      f.withPreheaders = .ok p.function ∧ ReflTransGen Function.Round f p.function ∧
      cs.Sublist (Plan.pairs p.accessList) ∧
      (∀ q, q ∈ cs ↔ q ∈ Plan.pairs p.accessList ∧ Plan.Conflicts p.function q) ∧
      p.Supported ∧ p.Complete ∧
      g = (p.drawn s.options s.uids.next (p.lowered d oracle s.options cs)).toGraph := by
  rcases Plan.ofFunction_cases hf with ⟨hplan, -⟩ | ⟨p, hplan, hp, hpre, hrounds, -, hsame⟩
  · rw [lower, prepare, hplan] at hg
    cases hg
  · obtain ⟨cs, hconflicting, hcs, hmem⟩ := hp.conflicting_eq p.accessList
    rcases hp.lower_cases hcs s d oracle hplan hconflicting with
      ⟨-, hres⟩ | ⟨-, u, hres⟩ | ⟨⟨hsup, hcomplete⟩, hres⟩
    · rw [hres] at hg
      cases hg
    · rw [hres] at hg
      cases hg
    · have hred : Flow.Reducible f.Edge Function.entry := by
        by_contra hnot
        exact hnot (hsame hnot ▸ hsup.reducible)
      refine ⟨p, cs, hplan, hconflicting, hred, hp, hpre, hrounds, hcs, hmem, hsup, hcomplete, ?_⟩
      rw [hres] at hg
      cases haudit : (p.drawn s.options s.uids.next (p.lowered d oracle s.options cs)).audit with
      | error e =>
        rw [haudit] at hg
        cases hg
      | ok _ =>
        rw [haudit] at hg
        exact (Except.ok.inj hg).symm

theorem Session.lower_eq_ok {σ : Type} {s : Session} {f : Function} {d : Disambiguator σ}
    {oracle : σ} {g : Graph} (hf : f.WellFormed) (hg : (s.lower f d oracle).result = .ok g) :
    ∃ (p : Plan) (cs : List (Access × Access)), p.Sound ∧ f.withPreheaders = .ok p.function ∧
      ReflTransGen Function.Round f p.function ∧ cs.Sublist (Plan.pairs p.accessList) ∧
      (∀ q, q ∈ cs ↔ q ∈ Plan.pairs p.accessList ∧ Plan.Conflicts p.function q) ∧
      p.Supported ∧ p.Complete ∧
      g = (p.drawn s.options s.uids.next (p.lowered d oracle s.options cs)).toGraph := by
  obtain ⟨p, cs, -, -, -, h⟩ := lower_plan hf hg
  exact ⟨p, cs, h⟩

/-- **Lowering is a translation.** If a function that passes the check is lowered, the graph is that
of the function with preheaders. -/
theorem Session.lower_translates {σ : Type} {s : Session} {f : Function} {d : Disambiguator σ}
    {oracle : σ} {g : Graph} (hf : f.check = .ok ())
    (hg : (s.lower f d oracle).result = .ok g) :
    ∃ f' place, f.withPreheaders = .ok f' ∧ f'.Translates g place := by
  obtain ⟨p, cs, hp, hpre, -, hcs, -, hsup, hcomplete, rfl⟩ :=
    lower_eq_ok (Function.check_eq_ok_iff.1 hf) hg
  have hscope : p.Scope _ (p.lowered d oracle s.options cs) :=
    hp.scope_lowered hcs s.options s.uids.next
  exact ⟨p.function, p.placement _, hpre, hscope.translates hsup hcomplete⟩

/-- A join whose phi lists its predecessors out of order; one of them reaches it by both arms of a
branch, the other one after a call. -/
def Function.callingJoin : Function where
  name := "join"
  params := [⟨"left", .int .w1⟩, ⟨"p", .ptr⟩]
  globals := [⟨"cell", .ptr⟩]
  blocks := [
    ⟨0, "entry", [], .branch (.arg 0) 1 2⟩,
    ⟨1, "left", [.call (some 0) "next" [.arg 1]], .jump 3⟩,
    ⟨2, "right", [], .branch (.arg 0) 3 3⟩,
    ⟨3, "join", [.phi 1 .ptr [(2, .arg 1), (1, .inst 0)], .store (.global 0) (.inst 1)],
      .ret (some (.inst 1))⟩]

theorem Session.lower_translates_callingJoin : Function.callingJoin.check = .ok () ∧
    ∃ g f' place, (({} : Session).lower Function.callingJoin .single ()).result = .ok g ∧
      Function.callingJoin.withPreheaders = .ok f' ∧ f'.Translates g place := by
  have hok : (({} : Session).lower Function.callingJoin .single ()).result.isOk = true := by
    decide +kernel
  cases hg : (({} : Session).lower Function.callingJoin .single ()).result with
  | error e =>
    rw [hg] at hok
    cases hok
  | ok g =>
    obtain ⟨f', place, hpre, h⟩ := lower_translates (by decide) hg
    exact ⟨by decide, g, f', place, rfl, hpre, h⟩

end Dataflow
