import Dataflow.Proofs.Lower.Lowered
import Dataflow.Proofs.Lower.Ports

/-!
# The audit of a lowered function

Of everything that the audit looks at, a lowered function can only fail in two ways: an access has no
region, or a loop has several back edges that must not be merged (`Scope.audit_cases`). The nodes of
instructions stand in front of those of loops, so accesses come first.
-/

namespace Dataflow

namespace Plan

variable {p : Plan} {o : Options} {F : Frame Label} {xs : List (Access × Option Region)}
  {ordered : List (Access × Access)}

/-- The finished drawing of a plan with its accesses and their order. -/
abbrev whole (p : Plan) (o : Options) (F : Frame Label) (xs : List (Access × Option Region))
    (ordered : List (Access × Access)) : Drawing Label :=
  p.finished o F.id (p.wires o xs ordered)

theorem mem_fullLabels {all : List (Wire Label)} {l : Label} (hl : l ∈ p.baseLabels) :
    l ∈ p.fullLabels all := List.mem_append_left _ (mem_wiredLabels hl)

section
variable (hs : p.Scope F (p.wires o xs ordered))
include hs

theorem Scope.fits_whole : F.Fits (p.whole o F xs ordered) := hs.draws_loops.fits

theorem Scope.node_whole {l : Label} (hl : l ∈ p.baseLabels) :
    (F.net (p.whole o F xs ordered)).node (F.id l) = .ok (F.node (p.whole o F xs ordered) l) :=
  hs.fits_whole.node_eq (mem_fullLabels hl)

omit hs in
theorem ctrlIn_node (l : Label) : (F.node (p.whole o F xs ordered) l).ports.ctrlIn =
    (portsAt p.controlWires l .ctrlIn).map F.id := by
  rw [← portsAt_wires_ctrl (.inl rfl)]
  exact Frame.node_ports l .ctrlIn

omit hs in
theorem dataIn_node (l : Label) : (F.node (p.whole o F xs ordered) l).ports.dataIn =
    (portsAt p.valueWires l .dataIn).map F.id := by
  rw [← portsAt_wires_data (.inl rfl)]
  exact Frame.node_ports l .dataIn

theorem Scope.owned_fullLabels {b : Block} (hb : b ∈ p.blocks) :
    owned (p.fullLabels (p.wires o xs ordered)) (.block b.id) = p.members b.id := by
  have hloops : owned (p.loops.map fun l => .loop l.header) (.block b.id) = [] := by
    refine owned_eq_nil fun l hl => ?_
    obtain ⟨_, -, rfl⟩ := List.mem_map.1 hl
    exact fun h => by cases h
  rw [fullLabels, owned_append, hloops, List.append_nil, owned_wiredLabels,
    hs.sound.owned_baseLabels hb]

/-! ## Blocks -/

/-- Some control input activates a block. -/
theorem Scope.activated {b : Block} (hb : b ∈ p.blocks) :
    (p.blockNodeAt F.id (p.fullLabels (p.wires o xs ordered)) (p.wires o xs ordered) b.id).activate.any
      (· ∈ (F.node (p.whole o F xs ordered) (.block b.id)).ports.ctrlIn) = true := by
  have hp := hs.sound
  have hreach := (hp.mem_blocks.1 hb).2
  obtain ⟨l, hl, hfires⟩ : ∃ l ∈ portsAt p.controlWires (.block b.id) .ctrlIn,
      p.fires b.id l = true := by
    rw [hp.ctrlIn_block hreach]
    by_cases hentry : b.id = Function.entry
    · exact ⟨.entry, by simp [hentry], rfl⟩
    · obtain ⟨u, hu⟩ := Flow.exists_enters hreach hentry
      have hpred := (hp.describes.mem_preds hp.wellFormed.toNumbered).2 ⟨hu.reaches, hu.edge⟩
      have hback : p.flow.isBackEdge u b.id = false :=
        Bool.eq_false_iff.2 (mt (hp.describes.isBackEdge_iff hp.wellFormed.toNumbered).1
          hu.not_dominates)
      cases hfind : (p.flow.preds b.id).find? fun u => !p.flow.isBackEdge u b.id with
      | none => simpa [hback] using List.find?_eq_none.1 hfind u hpred
      | some v =>
        refine ⟨.exit v, List.mem_append_right _ (List.mem_map_of_mem ?_), ?_⟩
        · exact List.mem_of_find?_eq_some hfind
        · exact decide_eq_true hfind
  have hne : (portsAt p.controlWires (.block b.id) .ctrlIn).filter (p.fires b.id) ≠ [] :=
    List.ne_nil_of_mem (List.mem_filter.2 ⟨hl, hfires⟩)
  simp only [blockNodeAt, ctrlIn_node, portsAt_wires_ctrl (.inl rfl), List.getLast?_eq_some_getLast hne,
    Option.map_some, Option.any_some, decide_eq_true_eq]
  exact List.mem_map_of_mem (List.mem_of_mem_filter (List.getLast_mem hne))

theorem Scope.checkMember_eq {b : Block} (hb : b ∈ p.blocks) {m : Label} (hm : m ∈ p.members b.id) :
    (F.net (p.whole o F xs ordered)).checkMember (F.id (.block b.id))
      (p.blockNodeAt F.id (p.fullLabels (p.wires o xs ordered)) (p.wires o xs ordered) b.id) (F.id m) =
      .ok () := by
  have hp := hs.sound
  rw [Graph.checkMember, hs.node_whole (hp.laid_member hb hm), orFault_ok, ok_bind, seq_eq_ok,
    Graph.demand_eq_ok, Graph.demand_eq_ok]
  refine ⟨?_, fun hneeds => ?_⟩
  · rw [ctrlIn_node, hp.ctrlIn_member hb hm]
    exact List.mem_singleton_self _
  · have hmask : p.masks b.id m = true := by
      rw [masks, Bool.or_eq_true, decide_eq_true_iff]
      rcases hneeds with h | h
      · exact .inr (isOp_phi ▸ h)
      · exact .inl h.1
    have hdep : (F.node (p.whole o F xs ordered) m).ports.depIn =
        (portsAt (p.wires o xs ordered) m .depIn).map F.id := Frame.node_ports m .depIn
    rw [hdep]
    exact List.mem_map_of_mem (mem_depIn_of_masks hb hm hmask)

theorem Scope.originOf_exit {u : BlockId} (hu : p.function.Reachable u) :
    (F.net (p.whole o F xs ordered)).originOf (F.id (.exit u)) = .ok (some u) := by
  have hexit := hs.node_whole (l := .exit u) (hs.sound.mem_baseLabels.2 hu)
  have hblock := hs.node_whole (l := .block u) (hs.sound.mem_baseLabels.2 hu)
  rw [Graph.originOf, hexit, ok_bind, instr?_node]
  dsimp only
  rw [hblock, ok_bind, block?_node]
  rfl

theorem Scope.checkPhi_eq (hsup : p.Supported) {b : Block} (hb : b ∈ p.blocks) {k : Nat}
    (hk : k < b.phis.length) :
    (F.net (p.whole o F xs ordered)).checkPhi (F.id (.block b.id))
      (F.node (p.whole o F xs ordered) (.block b.id)).ports.ctrlIn (F.id (.instr b.id k)) =
      .ok () := by
  have hp := hs.sound
  obtain ⟨hget, hreach⟩ := hp.mem_blocks.1 hb
  obtain ⟨dest, ty, incoming, hi⟩ : ∃ dest ty incoming, b.body[k]? = some (.phi dest ty incoming) := by
    have h := (hp.isPhi_iff hb).2 hk
    rw [isPhi, hp.instr?_eq hb, Option.any_eq_true] at h
    obtain ⟨i, hi, hphi⟩ := h
    cases i with
    | phi dest ty incoming => exact ⟨dest, ty, incoming, hi⟩
    | _ => cases hphi
  -- the entry has no phi, so all control inputs come from the exits of predecessors
  have hentry : b.id ≠ Function.entry := by
    intro h
    have := hsup.entry (h ▸ hget)
    rw [this] at hk
    exact absurd hk (Nat.not_lt_zero _)
  have hcontrols : (F.node (p.whole o F xs ordered) (.block b.id)).ports.ctrlIn =
      (p.flow.preds b.id).map fun u => F.id (.exit u) := by
    rw [ctrlIn_node, hp.ctrlIn_block hreach, if_neg hentry, List.nil_append, List.map_map]
    rfl
  have hdata : (F.node (p.whole o F xs ordered) (.instr b.id k)).ports.dataIn.length =
      (p.flow.preds b.id).length := by
    rw [dataIn_node, hp.dataIn_instr hb hi, List.length_map, List.length_map, reads,
      List.filterMap_length_eq_length]
    exact hp.isSome_incoming hb (List.mem_of_getElem? hi)
  rw [Graph.checkPhi, hs.node_whole (hp.laid_instr hb hi), orFault_ok, ok_bind, instr?_node]
  simp only [hp.instr?_eq hb, hi, Option.map_some,
    opcodeAt_of_not_access (i := .phi dest ty incoming) rfl, opcode]
  rw [seq_eq_ok, seq_eq_ok, Graph.demand_eq_ok, Graph.demand_eq_ok, forM_eq_ok, hcontrols]
  refine ⟨hdata, Nat.le_of_eq (List.length_map ..).symm, fun c hc => ?_⟩
  have hzip : ((p.flow.preds b.id).map fun u => F.id (.exit u)).zip (p.flow.preds b.id) =
      (p.flow.preds b.id).map fun u => (F.id (.exit u), u) := by
    conv_lhs => rw [← List.map_id (p.flow.preds b.id), List.map_map, List.zip_map']
    rfl
  obtain ⟨u, hu, rfl⟩ := List.mem_map.1 (hzip ▸ hc)
  have hr := ((hp.describes.mem_preds hp.wellFormed.toNumbered).1 hu).1
  rw [Graph.checkOrigin, hs.originOf_exit hr, orFault_ok, ok_bind, Graph.demand_eq_ok]

/-- A block passes. -/
theorem Scope.checkLabel_block (hsup : p.Supported) {b : Block} (hb : b ∈ p.blocks) :
    F.checkLabel (p.whole o F xs ordered) (.block b.id) = .ok () := by
  have hp := hs.sound
  have hcheck : F.checkLabel (p.whole o F xs ordered) (.block b.id) =
      (F.net (p.whole o F xs ordered)).checkBlock (F.id (.block b.id))
        (F.node (p.whole o F xs ordered) (.block b.id))
        (p.blockNodeAt F.id (p.fullLabels (p.wires o xs ordered)) (p.wires o xs ordered) b.id) := rfl
  have hphis : (p.blockNodeAt F.id (p.fullLabels (p.wires o xs ordered)) (p.wires o xs ordered)
      b.id).phis = ((List.range b.phis.length).map (.instr b.id)).map F.id := by
    rw [blockNodeAt, hs.owned_fullLabels hb, hp.filter_isPhi hb]
  rw [hcheck, Graph.checkBlock, seq_eq_ok, seq_eq_ok, Graph.demand_eq_ok, forM_eq_ok, forM_eq_ok,
    hp.members_blockNodeAt hb (hs.owned_fullLabels hb), hphis]
  refine ⟨hs.activated hb, fun n hn => ?_, fun n hn => ?_⟩
  · obtain ⟨m, hm, rfl⟩ := List.mem_map.1 hn
    exact hs.checkMember_eq hb hm
  · simp only [List.mem_map, List.mem_range] at hn
    obtain ⟨_, ⟨k, hk, rfl⟩, rfl⟩ := hn
    exact hs.checkPhi_eq hsup hb hk

/-! ## Exits and instructions -/

theorem Scope.checkLabel_exit {b : Block} (hb : b ∈ p.blocks) :
    F.checkLabel (p.whole o F xs ordered) (.exit b.id) = .ok () := by
  have hp := hs.sound
  have hcheck : F.checkLabel (p.whole o F xs ordered) (.exit b.id) =
      Graph.checkInstr (F.id (.exit b.id)) (F.node (p.whole o F xs ordered) (.exit b.id))
        ⟨p.exitOp F.id b.id, F.id (.block b.id), none⟩ := rfl
  have hout : (F.node (p.whole o F xs ordered) (.exit b.id)).ports.ctrlOut =
      (p.flow.succs b.id).map fun s => F.id (.block s) := by
    have hports : (F.node (p.whole o F xs ordered) (.exit b.id)).ports.ctrlOut =
        (portsAt (p.wires o xs ordered) (.exit b.id) .ctrlOut).map F.id := Frame.node_ports _ .ctrlOut
    rw [hports, portsAt_wires_ctrl (.inr rfl), hp.ctrlOut_exit hb, List.map_map]
    rfl
  have hget := (hp.mem_blocks.1 hb).1
  rw [hcheck]
  by_cases hret : ∃ v, b.exit = .ret v
  · obtain ⟨v, hv⟩ := hret
    rw [exitOp_eq_ret hget hv]
    rfl
  · rw [exitOp_eq_branch hget fun v hv => hret ⟨v, hv⟩]
    exact Graph.demand_eq_ok.2 hout

omit hs in
theorem checkBranch_of_kind {id : NodeId} {node : Node} {i : InstrNode} (h : i.op.kind ≠ .branch) :
    Graph.checkBranch id node i = .ok () := by
  obtain ⟨op, block, source⟩ := i
  cases op with
  | branch successors => exact absurd rfl h
  | _ => rfl

omit hs in
/-- Of an instruction only its binding to memory is checked. -/
theorem checkLabel_instr {b : BlockId} {k : Nat} {i : Instr} (hi : p.instr? b k = some i) :
    F.checkLabel (p.whole o F xs ordered) (.instr b k) =
      if (p.opcode 0 0 b i).kind.isAccess then
        Graph.checkAccess (F.id (.instr b k)) (F.node (p.whole o F xs ordered) (.instr b k))
          ⟨p.opcodeAt F.id (p.wires o xs ordered) b k i, F.id (.block b), i.result?⟩
      else .ok () := by
  have hcheck : F.checkLabel (p.whole o F xs ordered) (.instr b k) =
      Graph.checkInstr (F.id (.instr b k)) (F.node (p.whole o F xs ordered) (.instr b k))
        ⟨p.opcodeAt F.id (p.wires o xs ordered) b k i, F.id (.block b), i.result?⟩ := by
    unfold Frame.checkLabel Graph.checkNode
    simp only [Frame.node, draw_kind, kindOf_instr hi]
  have hbranch : (p.opcode 0 0 b i).kind ≠ .branch := by
    cases i <;> simp [opcode, Opcode.kind]
  rw [hcheck, Graph.checkInstr, checkBranch_of_kind (by rwa [kind_opcodeAt]), kind_opcodeAt]
  cases (p.opcode 0 0 b i).kind.isAccess with
  | false => rfl
  | true =>
    simp only [if_true]
    generalize Graph.checkAccess _ _ _ = checked
    cases checked <;> rfl

/-! ## Accesses -/

section
variable (hxs : xs.map Prod.fst = p.accesses F)
include hxs

omit hs in
theorem mem_accesses_of_mem {x : Access × Option Region} (hx : x ∈ xs) : x.1 ∈ p.accesses F :=
  hxs ▸ List.mem_map_of_mem hx

theorem Scope.ports_access {x : Access × Option Region} (hx : x ∈ xs) {s : Slot}
    (h : s = .memReq ∨ s = .memResp) : portsAt (p.wires o xs ordered) x.1.label s =
      (boundRegion o x.2).toList.map .unit := by
  refine portsAt_access ?_ hx h
  have h := hs.sound.nodup_accesses (F := F)
  rwa [← hxs, List.map_map] at h

/-- An access is bound to the unit of its region. -/
theorem Scope.memory?_access {x : Access × Option Region} (hx : x ∈ xs) {i : Instr}
    (hi : p.instr? x.1.block x.1.index = some i) :
    (p.opcodeAt F.id (p.wires o xs ordered) x.1.block x.1.index i).memory? =
      (boundRegion o x.2).map fun r => F.id (.unit r) := by
  have hports : portsAt (p.wires o xs ordered) (.instr x.1.block x.1.index) .memReq =
      (boundRegion o x.2).toList.map .unit := hs.ports_access hxs hx (.inl rfl)
  cases hr : boundRegion o x.2 with
  | none =>
    rw [hr] at hports
    rw [opcodeAt_eq hports, memory?_opcode]
    rfl
  | some r =>
    obtain ⟨j, hj, hkind⟩ := (hs.sound.places (mem_accesses_of_mem hxs hx)).instr
    obtain rfl := Option.some.inj (hi.symm.trans hj)
    rw [hr] at hports
    rw [opcodeAt_eq_withMemory hports]
    exact Opcode.memory?_withMemory (by rw [kind_opcode]; exact hkind) _

theorem Scope.checkLabel_access {x : Access × Option Region} (hx : x ∈ xs) :
    F.checkLabel (p.whole o F xs ordered) x.1.label =
      if (boundRegion o x.2).isSome then .ok ()
      else .error (.refused (.unboundAccess (F.id x.1.label))) := by
  obtain ⟨i, hi, hkind⟩ := (hs.sound.places (mem_accesses_of_mem hxs hx)).instr
  have hports : ∀ {s}, s = .memReq ∨ s = .memResp →
      (F.node (p.whole o F xs ordered) x.1.label).ports.get s =
        (boundRegion o x.2).toList.map fun r => F.id (.unit r) := by
    intro s h
    rw [Frame.node_ports, draw_wires, hs.ports_access hxs hx h, List.map_map]
    rfl
  have haccess : (p.opcode 0 0 x.1.block i).kind.isAccess = true := by
    rw [OpKind.isAccess, hkind]
    rfl
  rw [Access.label, checkLabel_instr hi, if_pos haccess, Graph.checkAccess,
    hs.memory?_access hxs hx hi]
  have hreq := hports (.inl rfl)
  have hresp := hports (.inr rfl)
  cases hr : boundRegion o x.2 with
  | none => exact Graph.demand_of_not Bool.false_ne_true
  | some r =>
    rw [hr] at hreq hresp
    exact Graph.demand_eq_ok.2 (decide_eq_true ⟨hreq, hresp⟩)

omit hs hxs in
/-- Every load and store of a reachable block is among the accesses. -/
theorem exists_access {b : Block} (hb : b ∈ p.blocks) {k : Nat} {i : Instr}
    (hi : b.body[k]? = some i) (haccess : (p.opcode 0 0 b.id i).kind.isAccess = true) :
    ∃ a ∈ p.accesses F, a.label = .instr b.id k := by
  have hplaced : placed F b.id (i, k) ∈ p.blocks.flatMap (placedIn F) :=
    List.mem_flatMap.2 ⟨b, hb, List.mem_map_of_mem (List.mem_zipIdx_iff_getElem?.2 hi)⟩
  cases i with
  | load dest ty addr => exact ⟨_, List.mem_filterMap.2 ⟨_, hplaced, rfl⟩, rfl⟩
  | store value addr => exact ⟨_, List.mem_filterMap.2 ⟨_, hplaced, rfl⟩, rfl⟩
  | _ => cases haccess

/-- What is laid out passes, accesses apart. -/
theorem Scope.checkLabel_laid (hsup : p.Supported) {l : Label} (hl : l ∈ p.baseLabels)
    (hne : ∀ x ∈ xs, x.1.label ≠ l) : F.checkLabel (p.whole o F xs ordered) l = .ok () := by
  have hp := hs.sound
  have hlaid := hp.mem_baseLabels.1 hl
  cases l with
  | block b =>
    obtain ⟨b, hb, rfl⟩ := hp.exists_block hlaid
    exact hs.checkLabel_block hsup hb
  | exit b =>
    obtain ⟨b, hb, rfl⟩ := hp.exists_block hlaid
    exact hs.checkLabel_exit hb
  | instr b k =>
    obtain ⟨hr, i, hi⟩ := hlaid
    obtain ⟨b, hb, rfl⟩ := hp.exists_block hr
    rw [checkLabel_instr hi, if_neg]
    intro haccess
    obtain ⟨a, ha, hlabel⟩ := exists_access (F := F) hb ((hp.instr?_eq hb k).symm.trans hi) haccess
    obtain ⟨x, hx, rfl⟩ := List.mem_map.1 (hxs ▸ ha)
    exact hne x hx hlabel
  | leaf _ | unit _ | loop _ => exact hlaid.elim
  | _ => rfl

/-! ## Units -/

theorem Scope.checkRequest_eq {kind : AccessKind} {r : Region} {l : Label}
    (hl : l ∈ bound o xs kind r) {responses : List NodeId} (hresp : F.id l ∈ responses) :
    (F.net (p.whole o F xs ordered)).checkRequest (F.id (.unit r)) kind responses (F.id l) =
      .ok () := by
  obtain ⟨x, hfilter, rfl⟩ := List.mem_map.1 hl
  obtain ⟨hx, hbound⟩ := List.mem_filter.1 hfilter
  obtain ⟨rfl, hr⟩ := of_decide_eq_true hbound
  have hplaces := hs.sound.places (mem_accesses_of_mem hxs hx)
  obtain ⟨i, hi, hkind⟩ := hplaces.instr
  rw [Graph.checkRequest, hs.node_whole hplaces.laid, orFault_ok, ok_bind, Graph.demand_eq_ok,
    Node.access?, Access.label, instr?_node]
  simp only [hi, Option.map_some, Option.bind_some, kind_opcodeAt, hkind,
    hs.memory?_access hxs hx hi, hr, true_and]
  exact hresp

theorem Scope.checkPairs_eq (kind : AccessKind) (r : Region) :
    (F.net (p.whole o F xs ordered)).checkPairs (F.id (.unit r))
      (F.node (p.whole o F xs ordered) (.unit r)) kind = .ok () := by
  have hports : ∀ {s}, s = kind.request.targetSlot ∨ s = kind.response.sourceSlot →
      (F.node (p.whole o F xs ordered) (.unit r)).ports.get s = (bound o xs kind r).map F.id := by
    intro s h
    rw [Frame.node_ports, draw_wires, portsAt_wires_memory, portsAt_unit h]
    rcases h with rfl | rfl <;> cases kind <;>
      simp [AccessKind.request, AccessKind.response, EdgeKind.targetSlot, EdgeKind.sourceSlot]
  rw [Graph.checkPairs, hports (.inl rfl), hports (.inr rfl), seq_eq_ok, Graph.demand_eq_ok,
    forM_eq_ok]
  refine ⟨rfl, fun n hn => ?_⟩
  obtain ⟨l, hl, rfl⟩ := List.mem_map.1 hn
  exact hs.checkRequest_eq hxs hl hn

/-- Values that are not laid out pass, and so do units. -/
theorem Scope.checkLabel_extra {l : Label} (hl : l.isExtra = true) :
    F.checkLabel (p.whole o F xs ordered) l = .ok () := by
  cases l with
  | leaf v => cases v <;> rfl
  | unit r => exact seq_eq_ok.2 ⟨hs.checkPairs_eq hxs .load r, hs.checkPairs_eq hxs .store r⟩
  | _ => cases hl

end

end

/-! ## Loops -/

section
variable (hp : p.Sound) {h : BlockId} (hlatches : p.flow.latches h ≠ [])
include hp hlatches

theorem Sound.header_ne_entry : h ≠ Function.entry := by
  obtain ⟨u, hu⟩ := List.exists_mem_of_ne_nil _ hlatches
  rintro rfl
  exact hp.wellFormed.entry_untargeted u ((hp.describes.mem_latches hp.wellFormed.toNumbered).1 hu).1

variable (hh : p.function.Reachable h) (hsingle : p.function.SingleEntry)
include hh hsingle

/-- Control enters a loop along one edge. -/
theorem Sound.length_entries : (p.flow.entries (p.flow.loopAt h)).length = 1 := by
  have hf := hp.wellFormed.toNumbered
  have hback := (hp.describes.latches_ne_nil hf).1 hlatches
  obtain ⟨u, hu⟩ := Flow.exists_enters hh (hp.header_ne_entry hlatches)
  have hmem : ∀ v, v ∈ p.flow.entries (p.flow.loopAt h) ↔ v = u := by
    intro v
    rw [hp.describes.mem_entries hf hh]
    exact ⟨fun hv => hsingle h hback v u hv hu, fun hv => hv ▸ hu⟩
  have hone : p.flow.entries (p.flow.loopAt h) = [u] := by
    have hfilter := Frame.filter_eq_singleton (hp.describes.nodup_entries (p.flow.loopAt h))
      ((hmem u).2 rfl) (q := fun _ => true) fun v hv => by simpa using (hmem v).1 hv
    rwa [List.filter_true] at hfilter
  rw [hone]
  rfl

theorem Sound.length_preds : (p.flow.preds h).length = 1 + (p.flow.latches h).length := by
  have hentries := hp.length_entries hlatches hh hsingle
  rw [hp.describes.entries_loopAt hp.wellFormed.toNumbered hh] at hentries
  rw [List.length_eq_length_filter_add (p.flow.isBackEdge · h), hentries, Nat.add_comm]
  rfl

omit hp hlatches hh hsingle in
theorem count_outside : ((p.flow.preds h).map fun u => decide (u ∈ p.flow.loopBody h)).count
    false = (p.flow.entries (p.flow.loopAt h)).length := by
  rw [FlowGraph.entries, List.count, List.countP_map, ← List.countP_eq_length_filter]
  refine List.countP_congr fun u _ => ?_
  rw [Function.comp_apply, beq_iff_eq, Bool.not_eq_true', FlowGraph.contains_loopAt]

end

section
variable (hs : p.Scope F (p.wires o xs ordered)) {h : BlockId} (hh : p.function.Reachable h)
include hs hh

theorem Scope.mem_blocks_loop {u : BlockId} (hu : p.function.Reachable u) :
    F.id (.block u) ∈ (p.loopNodeAt o F.id h).blocks ↔ u ∈ p.flow.loopBody h := by
  have hp := hs.sound
  have hmem : ∀ {v}, p.function.Reachable v → .block v ∈ p.fullLabels (p.wires o xs ordered) :=
    fun hv => mem_fullLabels (hp.mem_baseLabels.2 hv)
  simp only [loopNodeAt, List.mem_map]
  constructor
  · rintro ⟨v, hv, heq⟩
    have hr := (hp.describes.dominates_of_mem_loopBody hp.wellFormed.toNumbered hh hv).reaches
    exact Label.block.inj ((hs.fits_whole.id_inj (hmem hr) (hmem hu)).1 heq) ▸ hv
  · exact fun hu => ⟨u, hu, rfl⟩

theorem Scope.isInside_exits : ((p.flow.preds h).map fun u => F.id (.exit u)).mapM
    ((F.net (p.whole o F xs ordered)).isInside (p.loopNodeAt o F.id h)) =
      .ok ((p.flow.preds h).map fun u => decide (u ∈ p.flow.loopBody h)) := by
  have hp := hs.sound
  rw [List.mapM_map, ← List.filterMap_eq_map]
  refine mapM_eq_ok fun u hu => ⟨_, rfl, ?_⟩
  have hr := ((hp.describes.mem_preds hp.wellFormed.toNumbered).1 hu).1
  have hexit : .exit u ∈ p.baseLabels := hp.mem_baseLabels.2 hr
  rw [Function.comp_apply, Graph.isInside, hs.node_whole hexit, ok_bind, instr?_node]
  simp only [Option.any_some, hs.mem_blocks_loop hh hr]
  rfl

/-- A loop with one entry passes if it has one back edge or may have several. -/
theorem Scope.checkLabel_loop (hlatches : p.flow.latches h ≠ []) (hsingle : p.function.SingleEntry) :
    F.checkLabel (p.whole o F xs ordered) (.loop h) =
      if (p.flow.latches h).length ≤ 1 ∨ o.mergeLatches = true then .ok ()
      else .error (.refused (.unresolvedLoop (F.id (.loop h))
        (.ambiguousLatches (p.flow.latches h).length))) := by
  have hp := hs.sound
  have hf := hp.wellFormed.toNumbered
  have hcheck : F.checkLabel (p.whole o F xs ordered) (.loop h) =
      (F.net (p.whole o F xs ordered)).checkLoop (F.id (.loop h)) (p.loopNodeAt o F.id h) := rfl
  have hhead : (p.loopNodeAt o F.id h).head = some (F.id (.block h)) := rfl
  have hbody : h ∈ p.flow.loopBody h := by
    have hlt := hf.reachable_lt hh
    rw [← hp.describes.count_eq] at hlt
    simp [FlowGraph.loopBody, hlt]
  have hfind : (p.loopNodeAt o F.id h).latches.find? (· ∉ (p.loopNodeAt o F.id h).blocks) = none := by
    refine List.find?_eq_none.2 fun n hn => ?_
    obtain ⟨u, hu, rfl⟩ := List.mem_map.1 hn
    have hr := ((hp.describes.mem_latches hf).1 hu).2.reaches
    simpa using (hs.mem_blocks_loop hh hr).2 (hp.describes.mem_loopBody_of_latch hf hu)
  have hlen : (p.loopNodeAt o F.id h).latches.length = (p.flow.latches h).length := List.length_map ..
  have hmerged : ((p.flow.latches h).length ≤ 1 ∨ (p.loopNodeAt o F.id h).merged = true) ↔
      (p.flow.latches h).length ≤ 1 ∨ o.mergeLatches = true := by
    simp only [loopNodeAt, decide_eq_true_eq]
    by_cases hle : (p.flow.latches h).length ≤ 1
    · exact iff_of_true (.inl hle) (.inl hle)
    · simp [hle, Nat.not_le.1 hle]
  have hblock : .block h ∈ p.baseLabels := hp.mem_baseLabels.2 hh
  have hcontrols : (F.node (p.whole o F xs ordered) (.block h)).ports.ctrlIn =
      (p.flow.preds h).map fun u => F.id (.exit u) := by
    rw [ctrlIn_node, hp.ctrlIn_block hh, if_neg (hp.header_ne_entry hlatches), List.nil_append,
      List.map_map]
    rfl
  -- of the tests on a loop only the one for several latches can fail
  rw [hcheck, Graph.checkLoop, hhead]
  dsimp only
  rw [Graph.demand_eq_ok.2 ((hs.mem_blocks_loop hh hh).2 hbody), ok_bind,
    Graph.demand_eq_ok.2 (by simpa [loopNodeAt] using hlatches), ok_bind, hfind]
  dsimp only
  rw [hs.node_whole hblock, orFault_ok, ok_bind, hcontrols, hs.isInside_exits hh, hlen]
  by_cases hone : (p.flow.latches h).length ≤ 1 ∨ o.mergeLatches = true
  · rw [if_pos hone, seq_eq_ok, Graph.demand_eq_ok, orFault_ok, ok_bind, seq_eq_ok,
      Graph.demand_eq_ok, Graph.demand_eq_ok, List.length_map, count_outside]
    exact ⟨hmerged.2 hone, hp.length_entries hlatches hh hsingle,
      hp.length_preds hlatches hh hsingle⟩
  · rw [if_neg hone, Graph.demand_of_not (mt hmerged.1 hone)]
    rfl

end

/-! ## The audit -/

/-- Some loop has several back edges, and they must not be merged. -/
def Ambiguous (p : Plan) (o : Options) : Prop :=
  o.mergeLatches = false ∧ ∃ h, 1 < (p.flow.latches h).length

section
variable (hs : p.Scope F (p.wires o xs ordered))
include hs

theorem Scope.check_laid (hxs : xs.map Prod.fst = p.accesses F) (hsup : p.Supported) :
    ((∀ x ∈ xs, boundRegion o x.2 ≠ none) ∧
      (p.wiredLabels (p.wires o xs ordered)).forM (F.checkLabel (p.whole o F xs ordered)) = .ok ()) ∨
    ((∃ x ∈ xs, boundRegion o x.2 = none) ∧
      ∃ n, (p.wiredLabels (p.wires o xs ordered)).forM (F.checkLabel (p.whole o F xs ordered)) =
        .error (.refused (.unboundAccess n))) := by
  rcases forM_cases (p.wiredLabels (p.wires o xs ordered)) (F.checkLabel (p.whole o F xs ordered)) with
    hok | ⟨l, hl, e, hcheck, herr⟩
  · refine .inl ⟨fun x hx hnone => ?_, hok⟩
    have h := forM_eq_ok.1 hok x.1.label
      (mem_wiredLabels (hs.sound.places (mem_accesses_of_mem hxs hx)).laid)
    rw [hs.checkLabel_access hxs hx, hnone] at h
    cases h
  · -- what fails is not there, or it is an access
    by_cases hx : ∃ x ∈ xs, x.1.label = l
    · obtain ⟨x, hx, rfl⟩ := hx
      rw [hs.checkLabel_access hxs hx] at hcheck
      cases hr : boundRegion o x.2 with
      | none =>
        rw [hr] at hcheck
        cases hcheck
        exact .inr ⟨⟨x, hx, hr⟩, _, herr⟩
      | some r =>
        rw [hr] at hcheck
        cases hcheck
    · have hpass : F.checkLabel (p.whole o F xs ordered) l = .ok () := by
        rcases List.mem_append.1 hl with hl | hl
        · exact hs.checkLabel_laid hxs hsup hl fun x hmem h => hx ⟨x, hmem, h⟩
        · exact hs.checkLabel_extra hxs (mem_extras.1 hl).1
      rw [hpass] at hcheck
      cases hcheck

theorem Scope.check_loops (hsingle : p.function.SingleEntry) :
    (¬ p.Ambiguous o ∧ (p.loops.map fun l => Label.loop l.header).forM
      (F.checkLabel (p.whole o F xs ordered)) = .ok ()) ∨
    (p.Ambiguous o ∧ ∃ n k, (p.loops.map fun l => Label.loop l.header).forM
      (F.checkLabel (p.whole o F xs ordered)) =
        .error (.refused (.unresolvedLoop n (.ambiguousLatches k)))) := by
  have hp := hs.sound
  rcases forM_cases (p.loops.map fun l => Label.loop l.header)
    (F.checkLabel (p.whole o F xs ordered)) with hok | ⟨l, hl, e, hcheck, herr⟩
  · refine .inl ⟨fun ⟨hmerge, h, hlen⟩ => ?_, hok⟩
    have hne : p.flow.latches h ≠ [] := List.ne_nil_of_length_pos (Nat.lt_trans Nat.zero_lt_one hlen)
    obtain ⟨u, hu⟩ := (hp.describes.latches_ne_nil hp.wellFormed.toNumbered).1 hne
    have hh : p.function.Reachable h := hu.2.reaches_left
    have hmem : .loop h ∈ p.loops.map fun l => Label.loop l.header := by
      refine List.mem_map.2 ⟨p.flow.loopAt h, ?_, rfl⟩
      rw [hp.loops_eq]
      exact FlowGraph.mem_loops.2 ⟨h, hp.describes.mem_order.2 hh, hne, rfl⟩
    have hpass := forM_eq_ok.1 hok _ hmem
    rw [hs.checkLabel_loop hh hne hsingle, if_neg (by simp [hmerge, hlen])] at hpass
    cases hpass
  · obtain ⟨_, hmem, rfl⟩ := List.mem_map.1 hl
    obtain ⟨h, hh, hne, rfl⟩ := FlowGraph.mem_loops.1 (hp.loops_eq ▸ hmem)
    have hloop := hs.checkLabel_loop (hp.describes.mem_order.1 hh) hne hsingle
    rw [show Label.loop (p.flow.loopAt h).header = .loop h from rfl, hloop] at hcheck
    split at hcheck
    · cases hcheck
    · rename_i hmany
      push Not at hmany
      cases hcheck
      exact .inr ⟨⟨by simpa using hmany.2, h, hmany.1⟩, _, _, herr⟩

/-- A lowered function passes the audit unless an access is not bound or a loop is ambiguous. -/
theorem Scope.audit_cases (hxs : xs.map Prod.fst = p.accesses F) (hsup : p.Supported)
    (hsingle : p.function.SingleEntry) :
    ((∃ x ∈ xs, boundRegion o x.2 = none) ∧
      ∃ n, (F.net (p.whole o F xs ordered)).audit = .error (.refused (.unboundAccess n))) ∨
    ((∀ x ∈ xs, boundRegion o x.2 ≠ none) ∧ p.Ambiguous o ∧
      ∃ n k, (F.net (p.whole o F xs ordered)).audit =
        .error (.refused (.unresolvedLoop n (.ambiguousLatches k)))) ∨
    ((∀ x ∈ xs, boundRegion o x.2 ≠ none) ∧ ¬ p.Ambiguous o ∧
      (F.net (p.whole o F xs ordered)).audit = .ok ()) := by
  have haudit : (F.net (p.whole o F xs ordered)).audit =
      (p.wiredLabels (p.wires o xs ordered)).forM (F.checkLabel (p.whole o F xs ordered)) >>= fun _ =>
        (p.loops.map fun l => Label.loop l.header).forM (F.checkLabel (p.whole o F xs ordered)) :=
    hs.fits_whole.audit_eq.trans List.forM_append
  rw [haudit]
  rcases hs.check_laid hxs hsup with ⟨hbound, hok⟩ | ⟨hunbound, n, herr⟩
  · rw [hok]
    rcases hs.check_loops hsingle with ⟨hclear, h⟩ | ⟨hmany, n, k, h⟩
    · exact .inr (.inr ⟨hbound, hclear, h⟩)
    · exact .inr (.inl ⟨hbound, hmany, n, k, h⟩)
  · rw [herr]
    exact .inl ⟨hunbound, n, rfl⟩

end

end Plan

end Dataflow
