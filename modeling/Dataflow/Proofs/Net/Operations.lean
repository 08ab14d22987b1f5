import Dataflow.Proofs.Net.Drawing

/-!
# What the operations of a net do to its drawing

One lemma for each operation that lowering uses, with the conditions under which it is not refused.
-/

namespace Dataflow

namespace Opcode

@[simp] theorem kind_withMemory (op : Opcode) (unit : NodeId) :
    (op.withMemory unit).kind = op.kind := by
  cases op <;> rfl

theorem memory?_withMemory {op : Opcode} {k : AccessKind} (h : op.kind.access? = some k)
    (unit : NodeId) : (op.withMemory unit).memory? = some unit := by
  cases op <;> first | rfl | cases h

end Opcode

theorem accepts_memory {op : Opcode} {k : AccessKind} (h : op.kind.access? = some k) {s : Slot}
    (hs : s = .memReq ∨ s = .memResp) : op.kind.accepts s = true := by
  rcases hs with rfl | rfl <;> simp [OpKind.accepts, OpKind.isAccess, h]

theorem Graph.accessDefect?_eq_none {n : Node} {i : InstrNode} {unit : NodeId} {k : AccessKind}
    {s : Slot} (hi : n.kind = .instr i) (hk : i.op.kind.access? = some k)
    (hm : i.op.memory? = some unit) (hs : n.ports.get s = []) :
    Graph.accessDefect? n unit k s = none := by
  simp [accessDefect?, Node.access?, Node.instr?, hi, hk, hm, hs]

namespace Frame

variable {α : Type} [DecidableEq α] {F : Frame α} {d : Drawing α}

section
variable (hd : F.Fits d)
include hd

/-! ## Reading -/

theorem draws_getNode {l : α} (hl : l ∈ d.labels) :
    F.Draws (Net.getNode (F.id l)) d (F.node d l) d := by
  refine .get ⟨hd, Nat.le_refl _, .inl ?_⟩
  have : (F.net d).node (F.id l) = .ok (F.node d l) := lookup_eq_ok.2 (hd.getElem?_nodes hl)
  rw [this]
  rfl

theorem draws_getBlock {l : α} (hl : l ∈ d.labels) {b : BlockNode} (hb : d.kind l = .block b) :
    F.Draws (Net.getBlock (F.id l)) d b d := by
  refine ⟨hd, Nat.le_refl _, .inl ?_⟩
  simp only [Net.getBlock, hd.getElem?_nodes hl, Option.bind_some, Node.block?, node, hb]

theorem draws_getLoop {l : α} (hl : l ∈ d.labels) {n : LoopNode} (hn : d.kind l = .loop n) :
    F.Draws (Net.getLoop (F.id l)) d n d := by
  refine ⟨hd, Nat.le_refl _, .inl ?_⟩
  simp only [Net.getLoop, hd.getElem?_nodes hl, Option.bind_some, Node.loop?, node, hn]

theorem draws_attempt {β : Type} (b : β) : F.Draws (Net.attempt (.ok b)) d b d :=
  ⟨hd, Nat.le_refl _, .inl rfl⟩

/-! ## Nodes -/

theorem draws_push {l : α} {kind : NodeKind} (hl : F.id l = d.labels.length)
    (hk : d.kind l = kind) : F.Draws (Net.push kind) d (F.id l) (d.add l) := by
  refine ⟨hd.add hl, by simp, ?_⟩
  by_cases hlt : F.start + d.labels.length < idLimit
  · left
    rw [hd.net_add hl, hk]
    simp only [Net.push, Supply.take, net, hlt, if_true, List.length_map, hl]
  · refine .inr ⟨?_, F.net d, ?_⟩
    · rw [Drawing.add_labels, List.length_append, List.length_singleton]
      exact Nat.lt_succ_of_le (Nat.not_lt.1 hlt)
    · simp only [Net.push, Supply.take, net, hlt, if_false]

theorem draws_modifyKind {l : α} (hl : l ∈ d.labels) (change : NodeKind → NodeKind) :
    F.Draws (Net.change (·.modifyKind (F.id l) change)) d () (d.set l (change (d.kind l))) :=
  ⟨hd.set l _, Nat.le_refl _, .inl (by rw [hd.net_set hl]; rfl)⟩

theorem draws_setKind {l : α} (hl : l ∈ d.labels) (kind : NodeKind) :
    F.Draws (Net.setKind (F.id l) kind) d () (d.set l kind) :=
  draws_modifyKind hd hl fun _ => kind

theorem draws_modifyBlock {l : α} (hl : l ∈ d.labels) {b : BlockNode} (hb : d.kind l = .block b)
    (change : BlockNode → BlockNode) :
    F.Draws (Net.modifyBlock (F.id l) change) d () (d.set l (.block (change b))) :=
  (draws_getBlock hd hl hb).bind (draws_setKind hd hl _)

theorem draws_modifyLoop {l : α} (hl : l ∈ d.labels) {n : LoopNode} (hn : d.kind l = .loop n)
    (change : LoopNode → LoopNode) :
    F.Draws (Net.modifyLoop (F.id l) change) d () (d.set l (.loop (change n))) :=
  (draws_getLoop hd hl hn).bind (draws_setKind hd hl _)

theorem draws_addArgument {s l : α} (hs : s ∈ d.labels) {arguments : List NodeId}
    (hk : d.kind s = .split arguments) (hl : F.id l = d.labels.length)
    (hkl : d.kind l = .arg arguments.length (F.id s)) :
    F.Draws (Net.addArgument (F.id s)) d (F.id l)
      ((d.add l).set s (.split (arguments ++ [F.id l]))) := by
  refine (draws_getNode hd hs).bind ?_
  have hkind : (F.node d s).kind = .split arguments := hk
  simp only [hkind]
  have hpush := draws_push hd hl hkl
  refine hpush.bind ((draws_setKind hpush.fits ?_ _).bind (.pure (hpush.fits.set _ _) _))
  exact List.mem_append_left _ hs

theorem draws_addInstr {p l : α} {b : BlockNode} {op : Opcode} {source : Option InstId}
    (hp : p ∈ d.labels) (hb : d.kind p = .block b) (hl : F.id l = d.labels.length)
    (hmask : ∀ m, op.mask? = some m → m = F.id p) (hk : d.kind l = .instr ⟨op, F.id p, source⟩) :
    F.Draws (Net.addInstr (F.id p) op source) d (F.id l)
      ((d.add l).set p (.block
        (if op.mask?.isSome then { b with phis := b.phis ++ [F.id l] }
          else { b with instructions := b.instructions ++ [F.id l] }))) := by
  have hrefuse : op.mask?.any (· ≠ F.id p) = false := by
    cases hm : op.mask? with
    | none => rfl
    | some m => simp [hmask m hm]
  have hpush := draws_push hd hl hk
  refine (draws_getBlock hd hp hb).bind ?_
  simp only [hrefuse]
  refine hpush.bind ((draws_modifyBlock hpush.fits (List.mem_append_left _ hp) hb _).bind ?_)
  exact .pure (hpush.fits.set _ _) _

/-! ## Edges -/

theorem draws_connect (kind : EdgeKind) {a b : α} (ha : a ∈ d.labels) (hb : b ∈ d.labels)
    (hsrc : (d.kind a).accepts kind.sourceSlot = true)
    (hdst : (d.kind b).accepts kind.targetSlot = true)
    (hkind : Graph.kindDefect? kind (F.id a) (F.id b) (F.node d a) (F.node d b) = none) :
    F.Draws (Net.connect kind (F.id a) (F.id b)) d () (d.wire kind a b) := by
  refine ⟨hd.wire ha hb, Nat.le_refl _, .inl ?_⟩
  have hok : (F.net d).edgeDefect? kind (F.id a) (F.id b) = none := by
    have hsrc' : (F.node d a).accepts kind.sourceSlot = true := hsrc
    have hdst' : (F.node d b).accepts kind.targetSlot = true := hdst
    simp [Graph.edgeDefect?, hd.getElem?_nodes ha, hd.getElem?_nodes hb, hsrc', hdst', hkind]
  rw [hd.net_wire ha hb, Net.connect, hok]

theorem draws_activate {a b : α} {n : BlockNode} (ha : a ∈ d.labels) (hb : b ∈ d.labels)
    (hn : d.kind b = .block n) (hsrc : (d.kind a).accepts .ctrlOut = true) :
    F.Draws (Net.activate (F.id b) (F.id a)) d ()
      ((d.wire .control a b).set b (.block { n with activate := some (F.id a) })) := by
  have hdst : (d.kind b).accepts .ctrlIn = true := by rw [hn]; rfl
  have hwire := draws_connect hd .control ha hb hsrc hdst rfl
  refine (draws_getBlock hd hb hn).bind (hwire.bind ?_)
  exact draws_modifyBlock hwire.fits hb hn _

theorem draws_setMaskSource {a b : α} {n : BlockNode} (ha : a ∈ d.labels) (hb : b ∈ d.labels)
    (hn : d.kind b = .block n) (hsrc : (d.kind a).accepts .dataOut = true) :
    F.Draws (Net.setMaskSource (F.id b) (F.id a)) d ()
      ((d.wire .data a b).set b (.block { n with maskSource := some (F.id a) })) := by
  have hdst : (d.kind b).accepts .dataIn = true := by rw [hn]; rfl
  have hwire := draws_connect hd .data ha hb hsrc hdst rfl
  refine (draws_getBlock hd hb hn).bind (hwire.bind ?_)
  exact draws_modifyBlock hwire.fits hb hn _

/-! ## Memory -/

section
variable {a u : α} {i : InstrNode} {kind : AccessKind} {r : Region} (ha : a ∈ d.labels)
  (hu : u ∈ d.labels) (hi : d.kind a = .instr i) (hkind : i.op.kind.access? = some kind)
  (hr : d.kind u = .memory r)
include ha hu hi hkind hr

/-- An access that names a unit can send requests there, if it sends none yet. -/
theorem draws_request (hmem : i.op.memory? = some (F.id u)) (hreq : portsAt d.wires a .memReq = []) :
    F.Draws (Net.connect kind.request (F.id a) (F.id u)) d () (d.wire kind.request a u) := by
  refine draws_connect hd kind.request ha hu ?_ ?_ ?_
  · rw [hi]
    exact accepts_memory hkind (by cases kind <;> simp [AccessKind.request, EdgeKind.sourceSlot])
  · rw [hr]
    cases kind <;> rfl
  · have hfree : (F.node d a).ports.get .memReq = [] := by simp [node, hreq]
    have hnone := Graph.accessDefect?_eq_none (n := F.node d a) hi hkind hmem hfree
    cases kind <;> exact hnone

/-- It can get responses from there, if it gets none yet. -/
theorem draws_response (hmem : i.op.memory? = some (F.id u))
    (hresp : portsAt d.wires a .memResp = []) :
    F.Draws (Net.connect kind.response (F.id u) (F.id a)) d () (d.wire kind.response u a) := by
  refine draws_connect hd kind.response hu ha ?_ ?_ ?_
  · rw [hr]
    cases kind <;> rfl
  · rw [hi]
    exact accepts_memory hkind (by cases kind <;> simp [AccessKind.response, EdgeKind.targetSlot])
  · have hfree : (F.node d a).ports.get .memResp = [] := by simp [node, hresp]
    have hnone := Graph.accessDefect?_eq_none (n := F.node d a) hi hkind hmem hfree
    cases kind <;> exact hnone

/-- An access that is not bound yet is bound to a unit by two wires. -/
theorem draws_bind (hau : a ≠ u) (hfree : i.op.memory? = none) (hreq : portsAt d.wires a .memReq = [])
    (hresp : portsAt d.wires a .memResp = []) :
    F.Draws (Net.bind (F.id a) (F.id u)) d ()
      (((d.set a (.instr { i with op := i.op.withMemory (F.id u) })).wire kind.request a u).wire
        kind.response u a) := by
  have haccess : (F.node d a).access? = some kind := by
    simp only [Node.access?, Node.instr?, node, hi, Option.bind_some, hkind]
  have hold : (F.node d a).instr?.bind (·.op.memory?) = none := by
    simp only [Node.instr?, node, hi, Option.bind_some, hfree]
  have htype : (F.node d u).type = .memory := by
    simp only [Node.type, node, hr, NodeKind.type]
  have hset : F.Draws (Net.setMemory (F.id a) (F.id u)) d ()
      (d.set a (.instr { i with op := i.op.withMemory (F.id u) })) := by
    have h : F.Draws (Net.setMemory (F.id a) (F.id u)) d () _ := draws_modifyKind hd ha _
    rwa [hi] at h
  refine (draws_getNode hd ha).bind ?_
  simp only [haccess]
  refine (draws_getNode hd hu).bind ?_
  simp only [htype, ne_eq, not_true, if_false, hold, reduceCtorEq]
  -- the access names the unit before it is joined to it
  refine hset.bind ?_
  have hi' : (d.set a (.instr { i with op := i.op.withMemory (F.id u) })).kind a =
      .instr { i with op := i.op.withMemory (F.id u) } := by simp
  have hr' : (d.set a (.instr { i with op := i.op.withMemory (F.id u) })).kind u = .memory r := by
    simp [hau.symm, hr]
  have hkind' : (i.op.withMemory (F.id u)).kind.access? = some kind := by
    rw [Opcode.kind_withMemory]
    exact hkind
  have hmem := Opcode.memory?_withMemory hkind (F.id u)
  have hrequest := draws_request hset.fits ha hu hi' hkind' hr' hmem hreq
  refine hrequest.bind (draws_response hrequest.fits ha hu hi' hkind' hr' hmem ?_)
  have hnew : (⟨kind.request, a, u⟩ : Wire α).across a .memResp = none := by
    have hslot : kind.request.sourceSlot ≠ .memResp := by cases kind <;> decide
    simp [Wire.across, hslot, hau.symm]
  simp [portsAt_concat, hresp, hnew]

end

end

end Frame

end Dataflow
