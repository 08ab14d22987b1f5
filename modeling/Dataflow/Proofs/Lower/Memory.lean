import Dataflow.Proofs.Lower.Data

/-!
# Routing memory

The wires that `Plan.routeMemory` adds: for each access with a region a request to the unit of the
region and its response, and for each pair that has to keep its order a dependency.
-/

namespace Dataflow

def Access.label (a : Access) : Label := .instr a.block a.index

namespace Plan

/-- The region that an access is bound to: the one that is known, or the default. -/
def boundRegion (o : Options) (r : Option Region) : Option Region :=
  r.or (if o.defaultMemory then some 0 else none)

/-- The request of an access to a unit and the response. -/
def serviceWires (a : Access) (r : Region) : List (Wire Label) :=
  [⟨a.kind.request, a.label, .unit r⟩, ⟨a.kind.response, .unit r, a.label⟩]

def accessWires (o : Options) (a : Access × Option Region) : List (Wire Label) :=
  (boundRegion o a.2).elim [] (serviceWires a.1)

def orderWire (pair : Access × Access) : Wire Label := ⟨.dependency, pair.1.label, pair.2.label⟩

def memoryWires (o : Options) (accesses : List (Access × Option Region))
    (ordered : List (Access × Access)) : List (Wire Label) :=
  accesses.flatMap (accessWires o) ++ ordered.map orderWire

/-- The accesses of a plan, in declaration order. -/
def accesses (p : Plan) (F : Frame Label) : List Access :=
  (p.blocks.flatMap (placedIn F)).filterMap Placed.access?

/-- The access stands for a load or store of a reachable block. -/
structure Places (p : Plan) (F : Frame Label) (a : Access) : Prop where
  node_eq : a.node = F.id a.label
  laid : a.label ∈ p.baseLabels
  instr : ∃ i, p.instr? a.block a.index = some i ∧
    (p.opcode 0 0 a.block i).kind.access? = some a.kind

variable {p : Plan} {o : Options} {F : Frame Label}

/-! ## The accesses of a plan -/

section
variable (hp : p.Sound)
include hp

theorem Sound.places {a : Access} (ha : a ∈ p.accesses F) : p.Places F a := by
  obtain ⟨q, hq, hqa⟩ := List.mem_filterMap.1 ha
  obtain ⟨b, hb, hq⟩ := List.mem_flatMap.1 hq
  obtain ⟨⟨i, k⟩, hi, rfl⟩ := List.mem_map.1 hq
  have hinstr : p.instr? b.id k = some i :=
    (hp.instr?_eq hb k).trans (List.mem_zipIdx_iff_getElem?.1 hi)
  have hlaid : .instr b.id k ∈ p.baseLabels :=
    hp.mem_baseLabels.2 ⟨(hp.mem_blocks.1 hb).2, i, hinstr⟩
  cases i <;> cases hqa
  · exact ⟨rfl, hlaid, _, hinstr, rfl⟩
  · exact ⟨rfl, hlaid, _, hinstr, rfl⟩

theorem Sound.nodup_accesses : ((p.accesses F).map Access.label).Nodup := by
  have hplaced : ((p.blocks.flatMap (placedIn F)).map fun q => Label.instr q.block q.index).Nodup := by
    rw [List.map_flatMap, List.nodup_flatMap]
    constructor
    · intro b _
      rw [placedIn, List.map_map]
      exact List.pairwise_map.2 ((pairwise_positions b.body).imp fun hij h =>
        hij (Label.instr.inj h).2)
    · refine (List.pairwise_map.1 hp.nodup_ids).imp fun {b c} hbc l hb hc => hbc ?_
      simp only [placedIn, List.map_map, List.mem_map] at hb hc
      obtain ⟨i, -, rfl⟩ := hb
      obtain ⟨j, -, h⟩ := hc
      exact (Label.instr.inj h).1.symm
  have hlabel : ∀ {q : Placed} {a : Access}, q.access? = some a → a.label = .instr q.block q.index := by
    rintro ⟨b, k, i, n⟩ a h
    cases i <;> cases h <;> rfl
  rw [accesses, List.map_filterMap]
  refine List.pairwise_filterMap.2 ((List.pairwise_map.1 hplaced).imp fun {q q'} hne l hl l' hl' => ?_)
  obtain ⟨a, ha, rfl⟩ := Option.map_eq_some_iff.1 hl
  obtain ⟨a', ha', rfl⟩ := Option.map_eq_some_iff.1 hl'
  rw [hlabel ha, hlabel ha']
  exact hne

end

/-! ## Binding an access -/

theorem memory?_opcode (parent split : NodeId) (b : BlockId) (i : Instr) :
    (p.opcode parent split b i).memory? = none := by
  cases i <;> rfl

theorem portsAt_serviceWires (a : Access) (r : Region) {s : Slot} (hs : s = .memReq ∨ s = .memResp) :
    portsAt (serviceWires a r) a.label s = [.unit r] := by
  have hlabel : a.label ≠ .unit r := fun h => by cases h
  cases hk : a.kind <;> rcases hs with rfl | rfl <;>
    simp [portsAt, serviceWires, Wire.across, hk, AccessKind.request, AccessKind.response,
      EdgeKind.sourceSlot, EdgeKind.targetSlot, hlabel.symm]

/-- Serving an access lands in no slot of another label, its unit apart. -/
theorem portsAt_serviceWires_eq_nil {a : Access} {r : Region} {x : Label} (hx : x ≠ a.label)
    (hu : x ≠ .unit r) (s : Slot) : portsAt (serviceWires a r) x s = [] := by
  refine portsAt_eq_nil fun w hw => ?_
  simp only [serviceWires, List.mem_cons, List.not_mem_nil, or_false] at hw
  rcases hw with rfl | rfl
  · exact ⟨fun h => absurd h.symm hx, fun h => absurd h.symm hu⟩
  · exact ⟨fun h => absurd h.symm hu, fun h => absurd h.symm hx⟩

theorem draws_serve {L : List Label} {W : List (Wire Label)} {a : Access} {r : Region}
    (hd : F.Fits (p.draw o F.id L W)) (ha : p.Places F a) (hL : a.label ∈ L) (hu : .unit r ∈ L)
    (hreq : portsAt W a.label .memReq = []) (hresp : portsAt W a.label .memResp = []) :
    F.Draws (Net.bind a.node (F.id (.unit r))) (p.draw o F.id L W) ()
      (p.draw o F.id L (W ++ serviceWires a r)) := by
  obtain ⟨i, hi, hkind⟩ := ha.instr
  have hports : portsAt (W ++ serviceWires a r) a.label .memReq = [.unit r] := by
    rw [portsAt_append, hreq, portsAt_serviceWires a r (.inl rfl), List.nil_append]
  have hk : p.kindOf o F.id L W a.label = .instr ⟨p.opcode (F.id (.block a.block))
      (F.id (.split a.block a.index)) a.block i, F.id (.block a.block), i.result?⟩ :=
    (kindOf_instr hi).trans (by rw [opcodeAt_eq hreq])
  have hk' : p.kindOf o F.id L (W ++ serviceWires a r) a.label = .instr
      ⟨(p.opcode (F.id (.block a.block)) (F.id (.split a.block a.index)) a.block i).withMemory
        (F.id (.unit r)), F.id (.block a.block), i.result?⟩ :=
    (kindOf_instr hi).trans (by rw [opcodeAt_eq_withMemory hports])
  have hbind := Frame.draws_bind hd hL hu hk (by rw [kind_opcode]; exact hkind) rfl
    (fun h => by cases h) (memory?_opcode ..) hreq hresp
  rw [ha.node_eq]
  refine hbind.congr rfl (by simp [serviceWires]) fun x _ => ?_
  simp only [Drawing.wire_kind, Drawing.set_kind, draw_kind]
  by_cases hx : x = a.label
  · rw [hx, Function.update_self, hk']
  · rw [Function.update_of_ne hx]
    refine (kindOf_append ?_ ?_ ?_).symm
    · rintro c rfl y hy
      rw [portsAt_serviceWires_eq_nil hx fun h => by cases h] at hy
      cases hy
    · rintro c rfl
      exact portsAt_serviceWires_eq_nil hx (fun h => by cases h) _
    · rintro c k rfl
      exact portsAt_serviceWires_eq_nil hx (fun h => by cases h) _

/-! ## All accesses -/

/-- No access is served twice. -/
def ServesOnce (all : List (Wire Label)) : Prop :=
  ∀ l s, s = .memReq ∨ s = .memResp → (portsAt all l s).length ≤ 1

theorem ServesOnce.free {all W ws : List (Wire Label)} (h : ServesOnce all) (hW : W ++ ws <+: all)
    {l : Label} {s : Slot} (hs : s = .memReq ∨ s = .memResp) (hws : portsAt ws l s ≠ []) :
    portsAt W l s = [] := by
  obtain ⟨rest, rfl⟩ := hW
  have hlen := h l s hs
  have hpos := List.length_pos_iff.2 hws
  rw [portsAt_append, portsAt_append, List.length_append, List.length_append] at hlen
  exact List.length_eq_zero_iff.1 (by omega)

section
variable {all : List (Wire Label)} (hs : p.Scope F all)
include hs

/-- The unit of a region, which is drawn if it is new. -/
theorem Scope.draws_unitNode {W : List (Wire Label)} {a : Access} {r : Region}
    (ha : a.label ∈ p.baseLabels) (hW : W ++ serviceWires a r <+: all) :
    F.Draws (unitNode r) (p.wired o F.id W) (F.id (.unit r))
      (p.draw o F.id (p.wiredLabels (W ++ serviceWires a r)) W) := by
  have hp := hs.sound
  have hd : F.Fits (p.wired o F.id W) := hs.fits ((List.prefix_append _ _).trans hW)
  have hbase := hp.isExtra_of_mem ha
  have hrequest := hp.wiredLabels_concat (W := W) (w := ⟨a.kind.request, a.label, .unit r⟩)
    (x := .unit r) (.inr rfl) (by simp [hbase])
  have hresponse : p.wiredLabels (W ++ serviceWires a r) =
      p.wiredLabels (W ++ [⟨a.kind.request, a.label, .unit r⟩]) := by
    have hmem : .unit r ∈ p.wiredLabels (W ++ [⟨a.kind.request, a.label, .unit r⟩]) :=
      List.mem_append_right _ (mem_extras.2 ⟨rfl, _, List.mem_append_right _
        List.mem_cons_self, .inr rfl⟩)
    have h := hp.wiredLabels_concat (W := W ++ [⟨a.kind.request, a.label, .unit r⟩])
      (w := ⟨a.kind.response, .unit r, a.label⟩) (x := .unit r) (.inr rfl)
      (by simp [hbase, List.filter_cons])
    rw [if_pos hmem, List.append_assoc] at h
    exact h
  have hpre : p.wiredLabels (W ++ serviceWires a r) <+: p.fullLabels all :=
    (wiredLabels_mono hW).trans (List.prefix_append _ _)
  rw [hresponse, hrequest] at hpre ⊢
  refine .get ?_
  rw [wired, unitNode?_eq hd]
  by_cases hmem : .unit r ∈ p.wiredLabels W
  · rw [if_pos hmem, if_pos hmem]
    exact .pure hd _
  · rw [if_neg hmem] at hpre ⊢
    rw [if_neg hmem]
    exact draws_add hd (hs.numbers.id_eq hpre) rfl rfl fun _ => rfl

theorem Scope.routes_routeAccess (honce : ServesOnce all) {a : Access × Option Region}
    (ha : p.Places F a.1) :
    p.Routes o F all True (routeAccess o a) (accessWires o a) := by
  have heq : routeAccess o a = (boundRegion o a.2).elim (pure ()) fun r =>
      unitNode r >>= Net.bind a.1.node := by
    unfold routeAccess boundRegion
    dsimp only
    cases a.2.or (if o.defaultMemory then some 0 else none) <;> rfl
  rw [heq, accessWires]
  cases boundRegion o a.2 with
  | none => exact hs.routes_pure
  | some r =>
    intro W hW
    have hunit := hs.draws_unitNode (o := o) ha.laid hW
    have hfree : ∀ {s}, s = .memReq ∨ s = .memResp → portsAt W a.1.label s = [] := fun h =>
      honce.free hW h (by simp [portsAt_serviceWires a.1 r h])
    have hmem : .unit r ∈ p.wiredLabels (W ++ serviceWires a.1 r) :=
      List.mem_append_right _ (mem_extras.2 ⟨rfl, _, List.mem_append_right _
        List.mem_cons_self, .inr rfl⟩)
    have hbind := draws_serve hunit.fits ha (mem_wiredLabels ha.laid) hmem (hfree (.inl rfl))
      (hfree (.inr rfl))
    exact (hunit.bind hbind).tries

theorem Scope.routes_order {pair : Access × Access} (h₁ : p.Places F pair.1)
    (h₂ : p.Places F pair.2) :
    p.Routes o F all True (Net.connect .dependency pair.1.node pair.2.node) [orderWire pair] := by
  obtain ⟨i, hi, hk⟩ := h₁.instr
  obtain ⟨j, hj, -⟩ := h₂.instr
  rw [h₁.node_eq, h₂.node_eq]
  refine hs.routes_join h₁.laid h₂.laid (fun L W => ?_) (fun L W => ?_) (fun L W => ?_) (by decide)
    fun c h => by cases h
  · rw [Access.label, accepts_instr hi]
    simp [EdgeKind.sourceSlot, OpKind.accepts, OpKind.isAccess, hk]
  · rw [Access.label, accepts_instr hj]
    rfl
  · simp [Graph.kindDefect?, Node.type, Frame.node, Access.label, kindOf_instr hi, NodeKind.type]

/-- Routing memory adds the memory wires. -/
theorem Scope.routes_routeMemory (honce : ServesOnce all) {xs : List (Access × Option Region)}
    {ordered : List (Access × Access)} (hxs : ∀ x ∈ xs, p.Places F x.1)
    (hordered : ∀ x ∈ ordered, p.Places F x.1 ∧ p.Places F x.2) :
    p.Routes o F all True (routeMemory o xs ordered) (memoryWires o xs ordered) := by
  have haccesses := hs.routes_forM fun x hx => hs.routes_routeAccess (o := o) honce (hxs x hx)
  have horder := hs.routes_forM fun x hx =>
    hs.routes_order (o := o) (hordered x hx).1 (hordered x hx).2
  rw [← List.map_eq_flatMap] at horder
  exact (haccesses.bind horder).iff (by simp)

end

end Plan

end Dataflow
