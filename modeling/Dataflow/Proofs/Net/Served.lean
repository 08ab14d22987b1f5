import Dataflow.Proofs.Net.Audit
import Dataflow.Proofs.Net.Reached

/-!
# Every access is served once

A memory unit lists the requests it gets and the responses it gives, loads apart from stores. In a
coherent graph whatever stands in such a list is an access of that kind that is bound to the unit
(`Coherent.boundTo_of_request`, `Coherent.boundTo_of_response`), and it stands there as often as the
unit stands in the matching list of the access (`Coherent.count_request`, `Coherent.count_response`).
The audit asks that list to hold the unit and nothing else. So in every graph that is handed out each
access stands once in the request list and once in the response list of its unit, and in no other
(`Net.finish_serves`).
-/

namespace Dataflow

namespace Graph

section
variable {g : Graph}

/-! ## Counting ports by edges -/

theorem InStep.count_ports (hg : g.InStep) (n : NodeId) (s : Slot) (x : NodeId) :
    (g.ports n s).count x = g.edges.countP fun e => (e.spot? n s).map Prod.fst = some x := by
  have hports : (g.ports n s).Perm (g.edges.filterMap fun e => (e.spot? n s).map Prod.fst) := by
    have hperm := ((hg n s).map Prod.fst).symm
    rwa [List.zipIdx_map_fst, spots, List.map_filterMap] at hperm
  rw [hports.count_eq, List.count, List.countP_filterMap]
  refine List.countP_congr fun e _ => ?_
  cases (e.spot? n s).map Prod.fst <;> simp

theorem map_fst_spot?_source {e : Edge} {n x : NodeId} {s : Slot} (hs : s.isSourceSide = true) :
    (e.spot? n s).map Prod.fst = some x ↔ e.src = n ∧ e.kind.sourceSlot = s ∧ e.dst = x := by
  simp only [Option.map_eq_some_iff, Prod.exists, Edge.spot?_eq_some_source hs]
  grind

theorem map_fst_spot?_target {e : Edge} {n x : NodeId} {s : Slot} (hs : s.isSourceSide = false) :
    (e.spot? n s).map Prod.fst = some x ↔ e.dst = n ∧ e.kind.targetSlot = s ∧ e.src = x := by
  simp only [Option.map_eq_some_iff, Prod.exists, Edge.spot?_eq_some_target hs]
  grind

/-! ## Lists of a unit and of an access -/

/-- The edges that land in a request list, and those that leave an access for its unit. -/
theorem request_iff {e : Edge} {k : AccessKind} : e.kind.targetSlot = k.request.targetSlot ↔
    e.kind = k.request := by
  cases k <;> cases e.kind <;> simp [AccessKind.request, EdgeKind.targetSlot]

theorem response_iff {e : Edge} {k : AccessKind} : e.kind.sourceSlot = k.response.sourceSlot ↔
    e.kind = k.response := by
  cases k <;> cases e.kind <;> simp [AccessKind.response, EdgeKind.sourceSlot]

section
variable (hg : g.Coherent)
include hg

theorem Coherent.boundTo_request {e : Edge} (he : e ∈ g.edges) {k : AccessKind}
    (hk : e.kind = k.request) : ∃ kind, g.kind? e.src = some kind ∧ kind.BoundTo k e.dst := by
  obtain ⟨source, target, hcarries⟩ := hg.carries e he
  have hsuits := hcarries.suits
  rw [hk] at hsuits
  refine ⟨source, hcarries.kind_src, ?_⟩
  cases k <;> exact hsuits

theorem Coherent.boundTo_response {e : Edge} (he : e ∈ g.edges) {k : AccessKind}
    (hk : e.kind = k.response) : ∃ kind, g.kind? e.dst = some kind ∧ kind.BoundTo k e.src := by
  obtain ⟨source, target, hcarries⟩ := hg.carries e he
  have hsuits := hcarries.suits
  rw [hk] at hsuits
  refine ⟨target, hcarries.kind_dst, ?_⟩
  cases k <;> exact hsuits

theorem Coherent.boundTo_of_request {access unit : NodeId} {k : AccessKind}
    (h : access ∈ g.ports unit k.request.targetSlot) :
    ∃ kind, g.kind? access = some kind ∧ kind.BoundTo k unit := by
  obtain ⟨e, he, i, hspot⟩ := hg.inStep.exists_edge h
  obtain ⟨⟨rfl, hslot⟩, rfl, -⟩ := (Edge.spot?_eq_some_target (by simp)).1 hspot
  exact hg.boundTo_request he (request_iff.1 hslot)

theorem Coherent.boundTo_of_response {access unit : NodeId} {k : AccessKind}
    (h : access ∈ g.ports unit k.response.sourceSlot) :
    ∃ kind, g.kind? access = some kind ∧ kind.BoundTo k unit := by
  obtain ⟨e, he, i, hspot⟩ := hg.inStep.exists_edge h
  obtain ⟨⟨rfl, hslot⟩, rfl, -⟩ := (Edge.spot?_eq_some_source (by simp)).1 hspot
  exact hg.boundTo_response he (response_iff.1 hslot)

section
variable {access unit : NodeId} {i : InstrNode} {k : AccessKind}
variable (hi : g.kind? access = some (.instr i)) (hk : i.op.kind.access? = some k)
include hi hk

theorem Coherent.count_request :
    (g.ports unit k.request.targetSlot).count access = (g.ports access .memReq).count unit := by
  rw [hg.inStep.count_ports, hg.inStep.count_ports]
  refine List.countP_congr fun e he => ?_
  simp only [decide_eq_true_eq]
  rw [map_fst_spot?_target (by simp), map_fst_spot?_source rfl, request_iff]
  constructor
  · rintro ⟨rfl, hkind, rfl⟩
    refine ⟨rfl, ?_, rfl⟩
    rw [hkind]
    cases k <;> rfl
  · rintro ⟨rfl, hslot, rfl⟩
    obtain ⟨unit, -, hjoins⟩ := hg.joins_request hi hk he (Edge.spot?_eq_some_source rfl |>.2
      ⟨⟨rfl, hslot⟩, rfl, rfl⟩)
    exact ⟨rfl, (Edge.joins_iff.1 hjoins).1, rfl⟩

theorem Coherent.count_response :
    (g.ports unit k.response.sourceSlot).count access = (g.ports access .memResp).count unit := by
  rw [hg.inStep.count_ports, hg.inStep.count_ports]
  refine List.countP_congr fun e he => ?_
  simp only [decide_eq_true_eq]
  rw [map_fst_spot?_source (by simp), map_fst_spot?_target rfl, response_iff]
  constructor
  · rintro ⟨rfl, hkind, rfl⟩
    refine ⟨rfl, ?_, rfl⟩
    rw [hkind]
    cases k <;> rfl
  · rintro ⟨rfl, hslot, rfl⟩
    obtain ⟨unit, -, hjoins⟩ := hg.joins_response hi hk he (Edge.spot?_eq_some_target rfl |>.2
      ⟨⟨rfl, hslot⟩, rfl, rfl⟩)
    exact ⟨rfl, (Edge.joins_iff.1 hjoins).1, rfl⟩

end

end

/-! ## What the audit asks of an access -/

theorem checkNode_of_audit (haudit : g.audit = .ok ()) {n : NodeId} {node : Node}
    (hnode : g.nodes[n]? = some node) : g.checkNode (node, n) = .ok () :=
  forM_eq_ok.1 (seq_eq_ok.1 haudit).2 (node, n) (List.mem_zipIdx_iff_getElem?.2 hnode)

theorem memory_of_audit (haudit : g.audit = .ok ()) {access : NodeId} {i : InstrNode}
    {k : AccessKind} (hi : g.kind? access = some (.instr i)) (hk : i.op.kind.access? = some k) :
    ∃ unit, i.op.memory? = some unit ∧ g.ports access .memReq = [unit] ∧
      g.ports access .memResp = [unit] := by
  obtain ⟨node, hnode, hkind⟩ := kind?_eq_some.1 hi
  have hcheck := checkNode_of_audit haudit hnode
  have hisAccess : i.op.kind.isAccess = true := by simp [OpKind.isAccess, hk]
  simp only [checkNode, hkind, checkInstr, hisAccess, if_true] at hcheck
  have haccess := (seq_eq_ok.1 hcheck).1
  rw [checkAccess, demand_eq_ok] at haccess
  cases hmemory : i.op.memory? with
  | none => simp [hmemory] at haccess
  | some unit =>
    simp only [hmemory, Option.any_some, decide_eq_true_eq] at haccess
    exact ⟨unit, rfl, (ports_eq hnode _).trans haccess.1, (ports_eq hnode _).trans haccess.2⟩

/-- Only memory units have lists of requests. -/
theorem memory_of_accepts {kind : NodeKind} {k : AccessKind}
    (h : kind.accepts k.request.targetSlot = true) : ∃ r, kind = .memory r := by
  cases kind with
  | memory r => exact ⟨r, rfl⟩
  | _ => cases k <;> simp [NodeKind.accepts, OpKind.accepts, AccessKind.request,
      EdgeKind.targetSlot] at h

section
variable (hg : g.Coherent) (haudit : g.audit = .ok ())
include hg haudit

theorem Coherent.served {access : NodeId} {i : InstrNode} {k : AccessKind}
    (hi : g.kind? access = some (.instr i)) (hk : i.op.kind.access? = some k) :
    ∃ unit r, i.op.memory? = some unit ∧ g.kind? unit = some (.memory r) ∧
      (g.ports unit k.request.targetSlot).count access = 1 ∧
      (g.ports unit k.response.sourceSlot).count access = 1 := by
  obtain ⟨unit, hu, hreq, hresp⟩ := memory_of_audit haudit hi hk
  have hrequest : (g.ports unit k.request.targetSlot).count access = 1 := by
    rw [hg.count_request hi hk, hreq, List.count_singleton_self]
  have hresponse : (g.ports unit k.response.sourceSlot).count access = 1 := by
    rw [hg.count_response hi hk, hresp, List.count_singleton_self]
  have hne : g.ports unit k.request.targetSlot ≠ [] := fun h => by simp [h] at hrequest
  obtain ⟨kind, hkind, haccepts⟩ := hg.accepts hne
  obtain ⟨r, rfl⟩ := memory_of_accepts haccepts
  exact ⟨unit, r, hu, hkind, hrequest, hresponse⟩

/-- Requests and responses of a unit have the same entries. -/
theorem Coherent.requests_perm (unit : NodeId) (k : AccessKind) :
    (g.ports unit k.request.targetSlot).Perm (g.ports unit k.response.sourceSlot) := by
  refine List.perm_iff_count.2 fun access => ?_
  by_cases hbound : ∃ kind, g.kind? access = some kind ∧ kind.BoundTo k unit
  · obtain ⟨_, hi, i, rfl, hk, hu⟩ := hbound
    obtain ⟨unit', r, hu', -, hrequest, hresponse⟩ := hg.served haudit hi hk
    obtain rfl := Option.some.inj (hu.symm.trans hu')
    rw [hrequest, hresponse]
  · rw [List.count_eq_zero_of_not_mem fun h => hbound (hg.boundTo_of_request h),
      List.count_eq_zero_of_not_mem fun h => hbound (hg.boundTo_of_response h)]

end

end

end Graph

namespace Net

theorem finish_eq_ok {net net' : Net} {g : Graph} (h : finish net = .ok g net') :
    g = net.toGraph ∧ net.audit = .ok () := by
  rw [finish_run] at h
  split at h
  · rename_i haudit
    cases h
    exact ⟨rfl, haudit⟩
  · cases h

theorem finish_same {net net' : Net} {g : Graph} (h : finish net = .ok g net') : net' = net := by
  rw [finish_run] at h
  split at h <;> cases h
  rfl

/-- Every graph that is handed out serves each of its accesses once: a load stands once in the list of
read requests and once in the list of read responses of the memory unit it is bound to, a store in
those for writes, and neither stands in any other list of a unit. Whatever stands in such a list is an
access of that kind that is bound to the unit. So the requests and the responses of one kind have the
same entries and are equally many. -/
theorem finish_serves {net net' : Net} {g : Graph} (h : net.Reached)
    (hfinish : finish net = .ok g net') :
    (∀ (access : NodeId) (i : InstrNode) (k : AccessKind), g.kind? access = some (.instr i) →
      i.op.kind.access? = some k →
      ∃ unit r, i.op.memory? = some unit ∧ g.kind? unit = some (.memory r) ∧
        (g.ports unit k.request.targetSlot).count access = 1 ∧
        (g.ports unit k.response.sourceSlot).count access = 1 ∧
        ∀ (other : NodeId) (k' : AccessKind), access ∈ g.ports other k'.request.targetSlot ∨
          access ∈ g.ports other k'.response.sourceSlot → other = unit ∧ k' = k) ∧
    (∀ (unit : NodeId) (k : AccessKind) (access : NodeId),
      access ∈ g.ports unit k.request.targetSlot ∨ access ∈ g.ports unit k.response.sourceSlot →
      ∃ i, g.kind? access = some (.instr i) ∧ i.op.kind.access? = some k ∧
        i.op.memory? = some unit) ∧
    ∀ (unit : NodeId) (k : AccessKind),
      (g.ports unit k.request.targetSlot).Perm (g.ports unit k.response.sourceSlot) := by
  obtain ⟨rfl, haudit⟩ := finish_eq_ok hfinish
  have hnet := h.coherent
  have hentry : ∀ (unit : NodeId) (k : AccessKind) (access : NodeId),
      access ∈ net.ports unit k.request.targetSlot ∨ access ∈ net.ports unit k.response.sourceSlot →
      ∃ kind, net.kind? access = some kind ∧ kind.BoundTo k unit := by
    rintro unit k access (h | h)
    · exact hnet.boundTo_of_request h
    · exact hnet.boundTo_of_response h
  refine ⟨fun access i k hi hk => ?_, fun unit k access h => ?_, hnet.requests_perm haudit⟩
  · obtain ⟨unit, r, hu, hunit, hrequest, hresponse⟩ := hnet.served haudit hi hk
    refine ⟨unit, r, hu, hunit, hrequest, hresponse, fun other k' h => ?_⟩
    obtain ⟨kind, hkind, hbound⟩ := hentry other k' access h
    obtain rfl : kind = .instr i := Option.some.inj (hkind.symm.trans hi)
    have hsame := hbound.unique ⟨i, rfl, hk, hu⟩
    exact ⟨hsame.2, hsame.1⟩
  · obtain ⟨_, hkind, i, rfl, hk, hu⟩ := hentry unit k access h
    exact ⟨i, hkind, hk, hu⟩

theorem finish_serves_workbench : ∃ g net', finish workbench = .ok g net' ∧
    (g.ports 4 .readReq).count 2 = 1 ∧ (g.ports 4 .readResp).count 2 = 1 ∧
    2 ∉ g.ports 3 .readReq := by
  have hfinish : finish workbench = .ok workbench.toGraph workbench := rfl
  obtain ⟨hserved, -, -⟩ := finish_serves workbench_reached hfinish
  obtain ⟨unit, r, hu, -, hrequest, hresponse, honly⟩ :=
    hserved 2 ⟨.load .ptr (some 4), 1, some 0⟩ .load (by decide +kernel) rfl
  obtain rfl : 4 = unit := Option.some.inj hu
  exact ⟨_, _, hfinish, hrequest, hresponse, fun h => by cases (honly 3 .load (.inl h)).1⟩

end Net

end Dataflow
