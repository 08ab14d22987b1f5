import Dataflow.Net.Audit
import Dataflow.Proofs.Outcome
import Mathlib.Data.List.Perm.Basic

/-!
# Edges and ports in step

A graph says twice what its nodes are joined to: in its edges and in the port lists of its nodes.
`Graph.InStep` says that the two agree: the edges that land in a slot of a node take each position of
its port list exactly once, and their other ends stand there. Adding an edge keeps this
(`InStep.link`), and so does removing one, which moves the ports behind it up (`InStep.unlink`). The
part of the audit that compares edges with ports accepts such graphs (`InStep.checkPorts_eq`).
-/

namespace Dataflow

/-! ## Where edges land -/

namespace Edge

/-- The other end of an edge and the position of the edge, seen from a slot of a node. -/
def spot? (e : Edge) (n : NodeId) (s : Slot) : Option (NodeId × Nat) :=
  if e.src = n ∧ e.kind.sourceSlot = s then some (e.dst, e.srcPort)
  else if e.dst = n ∧ e.kind.targetSlot = s then some (e.src, e.dstPort)
  else none

theorem joins_iff {e : Edge} {kind : EdgeKind} {src dst : NodeId} :
    e.joins kind src dst = true ↔ e.kind = kind ∧ e.src = src ∧ e.dst = dst := by
  simp [joins, and_assoc]

theorem spot?_source (e : Edge) : e.spot? e.src e.kind.sourceSlot = some (e.dst, e.srcPort) :=
  if_pos ⟨rfl, rfl⟩

theorem spot?_target (e : Edge) : e.spot? e.dst e.kind.targetSlot = some (e.src, e.dstPort) := by
  rw [spot?, if_neg fun h => e.kind.sourceSlot_ne_targetSlot e.kind h.2, if_pos ⟨rfl, rfl⟩]

theorem spot?_eq_some {e : Edge} {n x : NodeId} {s : Slot} {i : Nat} : e.spot? n s = some (x, i) ↔
    (e.src = n ∧ e.kind.sourceSlot = s) ∧ e.dst = x ∧ e.srcPort = i ∨
      (e.dst = n ∧ e.kind.targetSlot = s) ∧ e.src = x ∧ e.dstPort = i := by
  have hne := e.kind.sourceSlot_ne_targetSlot e.kind
  unfold spot?
  split
  · rename_i h
    have h' : ¬ (e.dst = n ∧ e.kind.targetSlot = s) := fun h' => hne (h.2.trans h'.2.symm)
    simp [h, h']
  · rename_i h
    split
    · rename_i h'
      simp [h, h']
    · rename_i h'
      simp [h, h']

theorem spot?_eq_some_source {e : Edge} {n x : NodeId} {s : Slot} {i : Nat}
    (hs : s.isSourceSide = true) : e.spot? n s = some (x, i) ↔
      (e.src = n ∧ e.kind.sourceSlot = s) ∧ e.dst = x ∧ e.srcPort = i := by
  rw [spot?_eq_some]
  refine or_iff_left fun h => ?_
  rw [← h.1.2, EdgeKind.isSourceSide_targetSlot] at hs
  cases hs

theorem spot?_eq_some_target {e : Edge} {n x : NodeId} {s : Slot} {i : Nat}
    (hs : s.isSourceSide = false) : e.spot? n s = some (x, i) ↔
      (e.dst = n ∧ e.kind.targetSlot = s) ∧ e.src = x ∧ e.dstPort = i := by
  rw [spot?_eq_some]
  refine or_iff_right fun h => ?_
  rw [← h.1.2, EdgeKind.isSourceSide_sourceSlot] at hs
  cases hs

/-- An edge closes up behind one that is removed where both land in one slot. -/
theorem spot?_closeUp (gone e : Edge) (n : NodeId) (s : Slot) :
    (Graph.closeUp gone e).spot? n s = (e.spot? n s).map fun x =>
      (x.1, (gone.spot? n s).elim x.2 fun hole => Graph.shift hole.2 x.2) := by
  have hgone := gone.kind.sourceSlot_ne_targetSlot e.kind
  have he := e.kind.sourceSlot_ne_targetSlot gone.kind
  unfold spot?
  simp only [Graph.closeUp]
  by_cases hsrc : e.src = n ∧ e.kind.sourceSlot = s
  · obtain ⟨rfl, rfl⟩ := hsrc
    by_cases h : gone.src = e.src ∧ gone.kind.sourceSlot = e.kind.sourceSlot
    · simp [h]
    · have h' : ¬ (e.src = gone.src ∧ e.kind.sourceSlot = gone.kind.sourceSlot) :=
        fun h' => h ⟨h'.1.symm, h'.2.symm⟩
      simp [h, h', he.symm]
  · by_cases hdst : e.dst = n ∧ e.kind.targetSlot = s
    · obtain ⟨rfl, rfl⟩ := hdst
      by_cases h : gone.dst = e.dst ∧ gone.kind.targetSlot = e.kind.targetSlot
      · simp [hsrc, h, hgone]
      · have h' : ¬ (e.dst = gone.dst ∧ e.kind.targetSlot = gone.kind.targetSlot) :=
          fun h' => h ⟨h'.1.symm, h'.2.symm⟩
        simp [hsrc, h, h', hgone]
    · simp [hsrc, hdst]

theorem srcPort_closeUp (gone e : Edge) : (Graph.closeUp gone e).srcPort =
    (gone.spot? e.src e.kind.sourceSlot).elim e.srcPort fun hole => Graph.shift hole.2 e.srcPort := by
  have h := spot?_closeUp gone e e.src e.kind.sourceSlot
  rw [spot?_source e, show (Graph.closeUp gone e).spot? e.src e.kind.sourceSlot =
    some (e.dst, (Graph.closeUp gone e).srcPort) from spot?_source _] at h
  exact congrArg Prod.snd (Option.some.inj h)

theorem dstPort_closeUp (gone e : Edge) : (Graph.closeUp gone e).dstPort =
    (gone.spot? e.dst e.kind.targetSlot).elim e.dstPort fun hole => Graph.shift hole.2 e.dstPort := by
  have h := spot?_closeUp gone e e.dst e.kind.targetSlot
  rw [spot?_target e, show (Graph.closeUp gone e).spot? e.dst e.kind.targetSlot =
    some (e.src, (Graph.closeUp gone e).dstPort) from spot?_target _] at h
  exact congrArg Prod.snd (Option.some.inj h)

end Edge

namespace Graph

/-- What the edges say about a slot of a node: the other ends, with the positions they are at. -/
def spots (g : Graph) (n : NodeId) (s : Slot) : List (NodeId × Nat) :=
  g.edges.filterMap (·.spot? n s)

/-- The edges that land in a slot of a node take each position of its port list exactly once, and
their other ends stand there. -/
def InStep (g : Graph) : Prop := ∀ n s, (g.spots n s).Perm (g.ports n s).zipIdx

/-- What stands at a node. -/
def kind? (g : Graph) (n : NodeId) : Option NodeKind := (g.node? n).map Node.kind

/-! ## Kinds and port lists -/

section
variable {g : Graph}

theorem kind?_eq_some {n : NodeId} {kind : NodeKind} :
    g.kind? n = some kind ↔ ∃ node, g.nodes[n]? = some node ∧ node.kind = kind := by
  simp [kind?, node?]

theorem lt_of_kind? {n : NodeId} {kind : NodeKind} (h : g.kind? n = some kind) :
    n < g.nodes.length := by
  obtain ⟨node, hnode, -⟩ := kind?_eq_some.1 h
  exact (List.getElem?_eq_some_iff.1 hnode).1

theorem kind?_modifyKind {id : NodeId} (change : NodeKind → NodeKind) (n : NodeId) :
    (g.modifyKind id change).kind? n = if id = n then (g.kind? n).map change else g.kind? n := by
  simp only [kind?, node?, modifyKind, modifyNode, List.getElem?_modify]
  by_cases hn : id = n
  · cases g.nodes[n]? <;> simp [hn]
  · simp [hn]

/-- A change of what a node is depends on what it was only. -/
theorem modifyKind_eq {id : NodeId} {kind : NodeKind} (h : g.kind? id = some kind)
    (change : NodeKind → NodeKind) :
    g.modifyKind id change = g.modifyKind id fun _ => change kind := by
  obtain ⟨node, hnode, rfl⟩ := kind?_eq_some.1 h
  simp only [modifyKind, modifyNode, Graph.mk.injEq, and_true, true_and]
  refine List.ext_getElem? fun n => ?_
  rw [List.getElem?_modify, List.getElem?_modify]
  by_cases hn : id = n
  · subst hn
    simp [hnode]
  · simp [hn]

@[simp] theorem kind?_modifyPorts (id : NodeId) (slot : Slot) (change : List NodeId → List NodeId)
    (n : NodeId) : (g.modifyPorts id slot change).kind? n = g.kind? n := by
  simp only [kind?, node?, modifyPorts, modifyNode, List.getElem?_modify]
  by_cases hn : id = n
  · cases g.nodes[n]? <;> simp [hn]
  · simp [hn]

@[simp] theorem kind?_link (kind : EdgeKind) (src dst n : NodeId) :
    (g.link kind src dst).kind? n = g.kind? n := by
  have h : (g.link kind src dst).kind? n = ((g.modifyPorts src kind.sourceSlot (· ++ [dst])).modifyPorts
      dst kind.targetSlot (· ++ [src])).kind? n := rfl
  rw [h, kind?_modifyPorts, kind?_modifyPorts]

@[simp] theorem kind?_unlinkAt (gone : Edge) (i : Nat) (n : NodeId) :
    (g.unlinkAt gone i).kind? n = g.kind? n := by
  have h : (g.unlinkAt gone i).kind? n = ((g.modifyPorts gone.src gone.kind.sourceSlot
      (·.eraseIdx gone.srcPort)).modifyPorts gone.dst gone.kind.targetSlot
      (·.eraseIdx gone.dstPort)).kind? n := rfl
  rw [h, kind?_modifyPorts, kind?_modifyPorts]

@[simp] theorem kind?_unlink (kind : EdgeKind) (src dst n : NodeId) :
    (g.unlink kind src dst).kind? n = g.kind? n := by
  unfold unlink
  split
  · exact kind?_unlinkAt ..
  · rfl

theorem ports_eq {n : NodeId} {node : Node} (h : g.nodes[n]? = some node) (s : Slot) :
    g.ports n s = node.ports.get s := by
  simp only [ports, h]

theorem exists_node_of_ports {n : NodeId} {s : Slot} (h : g.ports n s ≠ []) :
    ∃ node, g.nodes[n]? = some node := by
  unfold ports at h
  split at h
  · exact ⟨_, ‹_›⟩
  · exact absurd rfl h

theorem ports_modifyPorts {id : NodeId} (hid : id < g.nodes.length) (slot : Slot)
    (change : List NodeId → List NodeId) (n : NodeId) (s : Slot) :
    (g.modifyPorts id slot change).ports n s =
      if id = n ∧ slot = s then change (g.ports n s) else g.ports n s := by
  simp only [ports, modifyPorts, modifyNode, List.getElem?_modify]
  by_cases hn : id = n
  · subst hn
    rw [List.getElem?_eq_getElem hid]
    by_cases hs : slot = s
    · subst hs
      simp
    · simp [hs, Ports.get_modify_of_ne _ _ hs]
  · cases g.nodes[n]? <;> simp [hn]

@[simp] theorem ports_modifyKind (id : NodeId) (change : NodeKind → NodeKind) (n : NodeId) (s : Slot) :
    (g.modifyKind id change).ports n s = g.ports n s := by
  simp only [ports, modifyKind, modifyNode, List.getElem?_modify]
  by_cases hn : id = n
  · cases g.nodes[n]? <;> simp [hn]
  · simp [hn]

@[simp] theorem length_modifyKind (id : NodeId) (change : NodeKind → NodeKind) :
    (g.modifyKind id change).nodes.length = g.nodes.length := by
  simp [modifyKind, modifyNode]

@[simp] theorem length_modifyPorts (id : NodeId) (slot : Slot) (change : List NodeId → List NodeId) :
    (g.modifyPorts id slot change).nodes.length = g.nodes.length := by
  simp [modifyPorts, modifyNode]

theorem ports_link {a b : NodeId} (ha : a < g.nodes.length) (hb : b < g.nodes.length)
    (kind : EdgeKind) (n : NodeId) (s : Slot) : (g.link kind a b).ports n s =
      g.ports n s ++ (((g.nextEdge kind a b).spot? n s).map Prod.fst).toList := by
  have hne := kind.sourceSlot_ne_targetSlot kind
  have hports : (g.link kind a b).ports n s = ((g.modifyPorts a kind.sourceSlot (· ++ [b])).modifyPorts b
      kind.targetSlot (· ++ [a])).ports n s := rfl
  rw [hports, ports_modifyPorts (by simpa using hb), ports_modifyPorts ha]
  simp only [Edge.spot?, nextEdge]
  by_cases hsrc : a = n ∧ kind.sourceSlot = s
  · have hdst : ¬ (b = n ∧ kind.targetSlot = s) := fun h => hne (hsrc.2.trans h.2.symm)
    simp [hsrc, hdst]
  · by_cases hdst : b = n ∧ kind.targetSlot = s
    · simp [hsrc, hdst]
    · simp [hsrc, hdst]

theorem ports_unlinkAt {gone : Edge} (hsrc : gone.src < g.nodes.length)
    (hdst : gone.dst < g.nodes.length) (i : Nat) (n : NodeId) (s : Slot) :
    (g.unlinkAt gone i).ports n s =
      (gone.spot? n s).elim (g.ports n s) fun hole => (g.ports n s).eraseIdx hole.2 := by
  have hne := gone.kind.sourceSlot_ne_targetSlot gone.kind
  have hports : (g.unlinkAt gone i).ports n s = ((g.modifyPorts gone.src gone.kind.sourceSlot
      (·.eraseIdx gone.srcPort)).modifyPorts gone.dst gone.kind.targetSlot
      (·.eraseIdx gone.dstPort)).ports n s := rfl
  rw [hports, ports_modifyPorts (by simpa using hdst), ports_modifyPorts hsrc]
  unfold Edge.spot?
  by_cases h : gone.src = n ∧ gone.kind.sourceSlot = s
  · have h' : ¬ (gone.dst = n ∧ gone.kind.targetSlot = s) := fun h' => hne (h.2.trans h'.2.symm)
    simp [h, h']
  · by_cases h' : gone.dst = n ∧ gone.kind.targetSlot = s
    · simp [h, h']
    · simp [h, h']

/-! ## What being in step says -/

section
variable (hg : g.InStep)
include hg

theorem InStep.mem_zipIdx {e : Edge} (he : e ∈ g.edges) {n x : NodeId} {s : Slot} {i : Nat}
    (hspot : e.spot? n s = some (x, i)) : (x, i) ∈ (g.ports n s).zipIdx :=
  (hg n s).subset (List.mem_filterMap.2 ⟨e, he, hspot⟩)

theorem InStep.getElem?_ports {e : Edge} (he : e ∈ g.edges) {n x : NodeId} {s : Slot} {i : Nat}
    (hspot : e.spot? n s = some (x, i)) : (g.ports n s)[i]? = some x :=
  List.mem_zipIdx_iff_getElem?.1 (hg.mem_zipIdx he hspot)

theorem InStep.lt_length_ports {e : Edge} (he : e ∈ g.edges) {n x : NodeId} {s : Slot} {i : Nat}
    (hspot : e.spot? n s = some (x, i)) : i < (g.ports n s).length :=
  (List.getElem?_eq_some_iff.1 (hg.getElem?_ports he hspot)).1

/-- Whatever stands in a port list is the other end of an edge. -/
theorem InStep.exists_edge {n x : NodeId} {s : Slot} (hx : x ∈ g.ports n s) :
    ∃ e ∈ g.edges, ∃ i, e.spot? n s = some (x, i) := by
  obtain ⟨i, hi⟩ := List.mem_iff_getElem?.1 hx
  have hmem : (x, i) ∈ (g.ports n s).zipIdx := List.mem_zipIdx_iff_getElem?.2 hi
  obtain ⟨e, he, hspot⟩ := List.mem_filterMap.1 ((hg n s).symm.subset hmem)
  exact ⟨e, he, i, hspot⟩

theorem InStep.ends {e : Edge} (he : e ∈ g.edges) :
    e.src < g.nodes.length ∧ e.dst < g.nodes.length := by
  have hnode : ∀ {n x s i}, e.spot? n s = some (x, i) → n < g.nodes.length := by
    intro n x s i hspot
    have hne : g.ports n s ≠ [] := List.ne_nil_of_mem
      (List.mem_of_getElem? (hg.getElem?_ports he hspot))
    obtain ⟨node, hnode⟩ := exists_node_of_ports hne
    exact (List.getElem?_eq_some_iff.1 hnode).1
  exact ⟨hnode e.spot?_source, hnode e.spot?_target⟩

omit hg in
theorem length_filterMap_spot? (es : List Edge) (n : NodeId) (s : Slot) :
    (es.filterMap (·.spot? n s)).length = landings es n s := by
  induction es with
  | nil => rfl
  | cons e es ih =>
    have hne := e.kind.sourceSlot_ne_targetSlot e.kind
    unfold landings at ih ⊢
    rw [List.filterMap_cons, List.countP_cons, List.countP_cons]
    by_cases h : e.src = n ∧ e.kind.sourceSlot = s
    · have h' : ¬ (e.dst = n ∧ e.kind.targetSlot = s) := fun h' => hne (h.2.trans h'.2.symm)
      have hspot : e.spot? n s = some (e.dst, e.srcPort) := if_pos h
      simp only [hspot, List.length_cons, decide_eq_true_eq, if_pos h, if_neg h']
      omega
    · by_cases h' : e.dst = n ∧ e.kind.targetSlot = s
      · have hspot : e.spot? n s = some (e.src, e.dstPort) := (if_neg h).trans (if_pos h')
        simp only [hspot, List.length_cons, decide_eq_true_eq, if_neg h, if_pos h']
        omega
      · have hspot : e.spot? n s = none := (if_neg h).trans (if_neg h')
        simp only [hspot, decide_eq_true_eq, if_neg h, if_neg h']
        omega

end

end

end Graph

theorem Node.kind_of_instr? {n : Node} {i : InstrNode} (h : n.instr? = some i) :
    n.kind = .instr i := by
  unfold Node.instr? at h
  split at h <;> simp_all

theorem Node.kind_of_block? {n : Node} {b : BlockNode} (h : n.block? = some b) :
    n.kind = .block b := by
  unfold Node.block? at h
  split at h <;> simp_all

theorem Node.kind_of_loop? {n : Node} {l : LoopNode} (h : n.loop? = some l) :
    n.kind = .loop l := by
  unfold Node.loop? at h
  split at h <;> simp_all

theorem Node.kind_of_memory {n : Node} (h : n.type = .memory) : ∃ r, n.kind = .memory r := by
  unfold Node.type NodeKind.type at h
  split at h <;> simp_all

/-- The nodes that the audit of a node looks up, besides its neighbours: the members of a block, the
blocks of a loop, the block of an instruction. -/
def NodeKind.stored : NodeKind → List NodeId
  | .block b => b.members
  | .loop l => l.blocks
  | .instr i => [i.block]
  | .arg .. | .global .. | .const _ | .memory _ | .split _ => []

@[simp] theorem orFault_ok {α : Type} (a : α) : orFault (.ok a) = .ok a := rfl

theorem orFault_eq_ok {α : Type} {x : Except Fault α} {a : α} : orFault x = .ok a ↔ x = .ok a := by
  cases x <;> simp [orFault]

theorem Slot.mem_all (s : Slot) : s ∈ Slot.all := by cases s <;> decide

/-- The failure says that edges and ports have come apart. -/
def Failure.isDrift : Failure → Bool
  | .refused (.malformedEdge _ _ _ .outOfSync) => true
  | .refused (.malformedEdge _ _ _ .portWithoutEdge) => true
  | _ => false

namespace Graph

section
variable {g : Graph}

@[simp] theorem demand_eq_ok {c : Prop} [Decidable c] {r : Refusal} : demand c r = .ok () ↔ c := by
  by_cases h : c <;> simp [demand, reject, h]

theorem failsOnly_demand {p : Failure → Prop} {c : Prop} [Decidable c] {r : Refusal}
    (h : p (.refused r)) : FailsOnly p (demand c r) := by
  unfold demand
  split
  · exact failsOnly_ok ()
  · exact failsOnly_error h

theorem failsOnly_orFault {p : Failure → Prop} {α : Type} {x : Except Fault α}
    (h : FailsOnly (fun f => p (.fault f)) x) : FailsOnly p (orFault x) := by
  cases x with
  | ok a => exact failsOnly_ok a
  | error f => exact failsOnly_error (h f rfl)

/-! ## What the audit says about ports -/

/-- Each end of the edge stands in the port list of the other, at the recorded position. -/
def PointsBack (g : Graph) (e : Edge) : Prop :=
  (g.ports e.src e.kind.sourceSlot)[e.srcPort]? = some e.dst ∧
    (g.ports e.dst e.kind.targetSlot)[e.dstPort]? = some e.src

theorem PointsBack.getElem?_ports {e : Edge} (h : g.PointsBack e) {n x : NodeId} {s : Slot} {i : Nat}
    (hspot : e.spot? n s = some (x, i)) : (g.ports n s)[i]? = some x := by
  rcases Edge.spot?_eq_some.1 hspot with ⟨⟨rfl, rfl⟩, rfl, rfl⟩ | ⟨⟨rfl, rfl⟩, rfl, rfl⟩
  · exact h.1
  · exact h.2

theorem exists_node_of_getElem? {n x : NodeId} {s : Slot} {i : Nat}
    (h : (g.ports n s)[i]? = some x) : ∃ node, g.nodes[n]? = some node :=
  exists_node_of_ports (List.ne_nil_of_mem (List.mem_of_getElem? h))

theorem checkEdge_eq_ok_iff {e : Edge} : g.checkEdge e = .ok () ↔ g.PointsBack e := by
  simp only [checkEdge, node, bind_eq_ok, orFault_eq_ok, lookup_eq_ok, demand_eq_ok]
  constructor
  · rintro ⟨source, hsource, target, htarget, h⟩
    rwa [← ports_eq hsource, ← ports_eq htarget] at h
  · intro h
    obtain ⟨source, hsource⟩ := exists_node_of_getElem? h.1
    obtain ⟨target, htarget⟩ := exists_node_of_getElem? h.2
    refine ⟨source, hsource, target, htarget, ?_⟩
    rwa [← ports_eq hsource, ← ports_eq htarget]

/-- The audit only counts the edges at a node, which are all that land there. -/
theorem landings_filter (es : List Edge) (n : NodeId) (s : Slot) :
    landings (es.filter fun e => e.src = n ∨ e.dst = n) n s = landings es n s := by
  rw [landings, landings, List.countP_filter, List.countP_filter]
  congr 1
  · refine List.countP_congr fun e _ => ?_
    simp only [decide_eq_true_eq, Bool.and_eq_true]
    exact ⟨fun h => h.1, fun h => ⟨h, .inl h.1⟩⟩
  · refine List.countP_congr fun e _ => ?_
    simp only [decide_eq_true_eq, Bool.and_eq_true]
    exact ⟨fun h => h.1, fun h => ⟨h, .inr h.1⟩⟩

/-- The port check accepts exactly the graphs whose edges point back and land in each slot as often
as it has ports. -/
theorem checkPorts_eq_ok_iff : g.checkPorts = .ok () ↔ (∀ e ∈ g.edges, g.PointsBack e) ∧
    ∀ n s, (g.ports n s).length = (g.spots n s).length := by
  rw [checkPorts, seq_eq_ok, forM_eq_ok, forM_eq_ok]
  simp only [checkEdge_eq_ok_iff, checkCounts, forM_eq_ok, demand_eq_ok, landings_filter, spots,
    length_filterMap_spot?]
  refine and_congr_right fun hpoints => ⟨fun h n s => ?_, ?_⟩
  · cases hn : g.nodes[n]? with
    | some node =>
      rw [ports_eq hn]
      exact h (node, n) (List.mem_zipIdx_iff_getElem?.2 hn) s s.mem_all
    | none =>
      -- no edge can land at a node that is not there
      have hports : g.ports n s = [] := by rw [ports, hn]
      rw [hports, ← length_filterMap_spot?, List.length_nil, eq_comm, List.length_eq_zero_iff,
        List.filterMap_eq_nil_iff]
      intro e he
      by_contra hspot
      obtain ⟨⟨x, i⟩, hspot⟩ := Option.ne_none_iff_exists'.1 hspot
      have hentry := (hpoints e he).getElem?_ports hspot
      simp [hports] at hentry
  · rintro h ⟨node, n⟩ hn s -
    rw [← ports_eq (List.mem_zipIdx_iff_getElem?.1 hn)]
    exact h n s

/-- The audit finds edges and ports in step. -/
theorem InStep.checkPorts_eq (hg : g.InStep) : g.checkPorts = .ok () := by
  refine checkPorts_eq_ok_iff.2 ⟨fun e he => ?_, fun n s => ?_⟩
  · exact ⟨hg.getElem?_ports he e.spot?_source, hg.getElem?_ports he e.spot?_target⟩
  · rw [(hg n s).length_eq, List.length_zipIdx]

/-- `p` allows for whatever the audit may say about single nodes: every refusal but those about drift,
and what comes of looking up the neighbours in ports and the nodes that others store. -/
structure Allows (g : Graph) (p : Failure → Prop) : Prop where
  refused : ∀ r, (Failure.refused r).isDrift = false → p (.refused r)
  port : ∀ n s, ∀ x ∈ g.ports n s, FailsOnly (fun f => p (.fault f)) (g.node x)
  stored : ∀ n kind, g.kind? n = some kind →
    ∀ x ∈ kind.stored, FailsOnly (fun f => p (.fault f)) (g.node x)

section
variable {p : Failure → Prop} (hp : g.Allows p)
include hp

theorem checkMember_failsOnly {id : NodeId} {b : BlockNode} (hid : g.kind? id = some (.block b))
    {member : NodeId} (hmember : member ∈ b.members) : FailsOnly p (g.checkMember id b member) := by
  unfold checkMember
  refine .bind (failsOnly_orFault (hp.stored id _ hid member hmember)) fun node => ?_
  exact .bind (failsOnly_demand (hp.refused _ rfl)) fun _ => failsOnly_demand (hp.refused _ rfl)

theorem originOf_failsOnly {n ctrl : NodeId} {s : Slot} (hctrl : ctrl ∈ g.ports n s) :
    FailsOnly (fun f => p (.fault f)) (g.originOf ctrl) := by
  refine .andThen (hp.port n s ctrl hctrl) fun node hnode => ?_
  split
  · rename_i i hi
    have hkind : g.kind? ctrl = some (.instr i) :=
      kind?_eq_some.2 ⟨node, lookup_eq_ok.1 hnode, Node.kind_of_instr? hi⟩
    exact .bind (hp.stored ctrl _ hkind _ List.mem_cons_self) fun _ => failsOnly_ok _
  · exact failsOnly_ok _

theorem checkPhi_failsOnly {id : NodeId} {b : BlockNode} (hid : g.kind? id = some (.block b))
    {phi : NodeId} (hphi : phi ∈ b.phis) :
    FailsOnly p (g.checkPhi id (g.ports id .ctrlIn) phi) := by
  unfold checkPhi
  have hmember : phi ∈ b.members := List.mem_append_left _ hphi
  refine .bind (failsOnly_orFault (hp.stored id _ hid phi hmember)) fun node => ?_
  split
  · refine .bind (failsOnly_demand (hp.refused _ rfl)) fun _ => ?_
    refine .bind (failsOnly_demand (hp.refused _ rfl)) fun _ => failsOnly_each fun input hinput => ?_
    refine .bind (failsOnly_orFault (originOf_failsOnly hp (List.of_mem_zip hinput).1)) fun _ => ?_
    exact failsOnly_demand (hp.refused _ rfl)
  · exact failsOnly_ok ()

theorem checkBlock_failsOnly {id : NodeId} {node : Node} {b : BlockNode}
    (hnode : g.nodes[id]? = some node) (hkind : node.kind = .block b) :
    FailsOnly p (g.checkBlock id node b) := by
  have hid : g.kind? id = some (.block b) := kind?_eq_some.2 ⟨node, hnode, hkind⟩
  have hports : node.ports.ctrlIn = g.ports id .ctrlIn := (ports_eq hnode .ctrlIn).symm
  unfold checkBlock
  rw [hports]
  refine .bind (failsOnly_demand (hp.refused _ rfl)) fun _ => ?_
  refine .bind (failsOnly_each fun member hmember => checkMember_failsOnly hp hid hmember) fun _ => ?_
  exact failsOnly_each fun phi hphi => checkPhi_failsOnly hp hid hphi

theorem checkLoop_failsOnly {id : NodeId} {l : LoopNode} (hid : g.kind? id = some (.loop l)) :
    FailsOnly p (g.checkLoop id l) := by
  unfold checkLoop
  split
  · exact failsOnly_error (hp.refused _ rfl)
  · rename_i head _
    refine .andThen (failsOnly_demand (hp.refused _ rfl)) fun _ hhead => ?_
    have hhead : head ∈ l.blocks := demand_eq_ok.1 hhead
    refine .bind (failsOnly_demand (hp.refused _ rfl)) fun _ => ?_
    split
    · exact failsOnly_error (hp.refused _ rfl)
    · refine .bind (failsOnly_demand (hp.refused _ rfl)) fun _ => ?_
      refine .andThen (failsOnly_orFault (hp.stored id _ hid head hhead)) fun node hnode => ?_
      refine .bind (failsOnly_orFault (failsOnly_mapM fun src hsrc => ?_)) fun _ => ?_
      · have hsrc : src ∈ g.ports head .ctrlIn := by
          rw [ports_eq (lookup_eq_ok.1 (orFault_eq_ok.1 hnode))]
          exact hsrc
        exact .bind (hp.port head .ctrlIn src hsrc) fun _ => failsOnly_ok _
      · refine .bind (failsOnly_demand (hp.refused _ rfl)) fun _ => ?_
        exact failsOnly_demand (hp.refused _ rfl)

theorem checkPairs_failsOnly {id : NodeId} {node : Node} (hnode : g.nodes[id]? = some node)
    (kind : AccessKind) : FailsOnly p (g.checkPairs id node kind) := by
  unfold checkPairs
  rw [← ports_eq hnode, ← ports_eq hnode]
  refine .bind (failsOnly_demand (hp.refused _ rfl)) fun _ => failsOnly_each fun access haccess => ?_
  refine .bind (failsOnly_orFault (hp.port id _ access haccess)) fun _ => ?_
  exact failsOnly_demand (hp.refused _ rfl)

theorem checkInstr_failsOnly (id : NodeId) (node : Node) (i : InstrNode) :
    FailsOnly p (checkInstr id node i) := by
  have hbranch : FailsOnly p (checkBranch id node i) := by
    unfold checkBranch
    split
    · exact failsOnly_demand (hp.refused _ rfl)
    · exact failsOnly_ok ()
  unfold checkInstr checkAccess
  split
  · exact .bind (failsOnly_demand (hp.refused _ rfl)) fun _ => hbranch
  · exact hbranch

theorem checkNode_failsOnly {n : Node × NodeId} (hn : g.nodes[n.2]? = some n.1) :
    FailsOnly p (g.checkNode n) := by
  unfold checkNode
  split
  · rename_i b hkind
    exact checkBlock_failsOnly hp hn hkind
  · rename_i l hkind
    exact checkLoop_failsOnly hp (kind?_eq_some.2 ⟨n.1, hn, hkind⟩)
  · exact checkInstr_failsOnly hp _ _ _
  · exact (checkPairs_failsOnly hp hn _).bind fun _ => checkPairs_failsOnly hp hn _
  all_goals exact failsOnly_ok ()

theorem InStep.audit_failsOnly_of_allows (hg : g.InStep) : FailsOnly p g.audit := by
  rw [audit, hg.checkPorts_eq]
  exact failsOnly_each fun n hn => checkNode_failsOnly hp (List.mem_zipIdx_iff_getElem?.1 hn)

end

/-- The audit of a graph that is in step never says that edges and ports have come apart. -/
theorem InStep.audit_failsOnly (hg : g.InStep) : FailsOnly (·.isDrift = false) g.audit :=
  hg.audit_failsOnly_of_allows
    { refused := fun _ h => h
      port := fun _ _ _ _ _ _ => rfl
      stored := fun _ _ _ _ _ _ _ => rfl }

/-! ## Adding an edge -/

/-- The next edge lands behind all other ports. -/
theorem spot?_nextEdge {kind : EdgeKind} {a b n x : NodeId} {s : Slot} {i : Nat}
    (h : (g.nextEdge kind a b).spot? n s = some (x, i)) : i = (g.ports n s).length := by
  rcases Edge.spot?_eq_some.1 h with ⟨⟨rfl, rfl⟩, -, hport⟩ | ⟨⟨rfl, rfl⟩, -, hport⟩
  · exact hport.symm
  · exact hport.symm

theorem InStep.link (hg : g.InStep) {a b : NodeId} (ha : a < g.nodes.length)
    (hb : b < g.nodes.length) (kind : EdgeKind) : (g.link kind a b).InStep := by
  intro n s
  have hspots : (g.link kind a b).spots n s =
      g.spots n s ++ ((g.nextEdge kind a b).spot? n s).toList := by
    simp only [spots, Graph.link, List.filterMap_append]
    cases h : (g.nextEdge kind a b).spot? n s <;> simp [h]
  rw [hspots, ports_link ha hb, List.zipIdx_append]
  refine (hg n s).append ?_
  cases h : (g.nextEdge kind a b).spot? n s with
  | none => exact .refl _
  | some x =>
    obtain ⟨x, i⟩ := x
    simp [spot?_nextEdge h]

/-! ## Removing an edge -/

/-- Positions close up behind a hole. -/
theorem map_shift_eraseIdx (xs : List NodeId) (hole : Nat) :
    (xs.zipIdx.eraseIdx hole).map (fun x => (x.1, shift hole x.2)) = (xs.eraseIdx hole).zipIdx := by
  refine List.ext_getElem? fun i => ?_
  rw [List.getElem?_map, List.getElem?_eraseIdx, List.getElem?_zipIdx (l := xs.eraseIdx hole),
    List.getElem?_eraseIdx]
  by_cases hi : i < hole
  · rw [if_pos hi, if_pos hi, List.getElem?_zipIdx]
    have hshift : shift hole i = i := if_neg (by omega)
    cases xs[i]? <;> simp [hshift]
  · rw [if_neg hi, if_neg hi, List.getElem?_zipIdx]
    have hshift : shift hole (i + 1) = i := if_pos (by omega)
    cases xs[i + 1]? <;> simp [hshift]

theorem InStep.unlinkAt (hg : g.InStep) {gone : Edge} {i : Nat} (hi : g.edges[i]? = some gone) :
    (g.unlinkAt gone i).InStep := by
  intro n s
  obtain ⟨hsrc, hdst⟩ := hg.ends (List.mem_of_getElem? hi)
  have hspots : (g.unlinkAt gone i).spots n s =
      ((g.edges.eraseIdx i).filterMap (·.spot? n s)).map fun x =>
        (x.1, (gone.spot? n s).elim x.2 fun hole => shift hole.2 x.2) := by
    simp only [spots, Graph.unlinkAt, List.filterMap_map, List.map_filterMap]
    exact List.filterMap_congr fun e _ => Edge.spot?_closeUp gone e n s
  have hedges : g.edges.Perm (gone :: g.edges.eraseIdx i) := by
    obtain ⟨hlt, rfl⟩ := List.getElem?_eq_some_iff.1 hi
    exact (List.getElem_cons_eraseIdx_perm hlt).symm
  have hperm : ((gone :: g.edges.eraseIdx i).filterMap (·.spot? n s)).Perm (g.ports n s).zipIdx :=
    (hedges.filterMap _).symm.trans (hg n s)
  rw [hspots, ports_unlinkAt hsrc hdst]
  cases hspot : gone.spot? n s with
  | none =>
    simp only [List.filterMap_cons, hspot] at hperm
    simpa using hperm
  | some hole =>
    -- the removed edge is the one at the hole, so the others are those of the other positions
    simp only [List.filterMap_cons, hspot] at hperm
    have hmem := hperm.subset List.mem_cons_self
    obtain ⟨hlt, hget⟩ := List.getElem?_eq_some_iff.1 (List.mem_zipIdx_iff_getElem?.1 hmem)
    have hlt' : hole.2 < (g.ports n s).zipIdx.length := by simpa using hlt
    have hhole : (g.ports n s).zipIdx[hole.2] = hole := by
      rw [List.getElem_zipIdx]
      exact Prod.ext hget (Nat.zero_add _)
    have hrest := hperm.trans (List.getElem_cons_eraseIdx_perm hlt').symm
    rw [hhole] at hrest
    refine ((List.perm_cons hole).1 hrest).map _ |>.trans ?_
    exact .of_eq (map_shift_eraseIdx (g.ports n s) hole.2)

theorem pickLower_eq_some {best : Option (Edge × Nat)} {x y : Edge × Nat}
    (h : pickLower best x = some y) : y = x ∨ best = some y := by
  unfold pickLower at h
  split at h
  · exact .inl (Option.some.inj h).symm
  · split at h
    · exact .inl (Option.some.inj h).symm
    · exact .inr h

theorem foldl_pickLower_eq_some {xs : List (Edge × Nat)} {best : Option (Edge × Nat)}
    {y : Edge × Nat} (h : xs.foldl pickLower best = some y) : y ∈ xs ∨ best = some y := by
  induction xs generalizing best with
  | nil => exact .inr h
  | cons x xs ih =>
    rcases ih h with hy | hy
    · exact .inl (List.mem_cons_of_mem x hy)
    · rcases pickLower_eq_some hy with rfl | hy
      · exact .inl List.mem_cons_self
      · exact .inr hy

theorem foldl_pickLower_isSome {xs : List (Edge × Nat)} {best : Option (Edge × Nat)}
    (h : xs ≠ [] ∨ best.isSome) : (xs.foldl pickLower best).isSome := by
  induction xs generalizing best with
  | nil => exact h.resolve_left fun h => h rfl
  | cons x xs ih =>
    refine ih (.inr ?_)
    unfold pickLower
    split
    · rfl
    · split <;> rfl

/-- The edge that is found is there and joins the two nodes. -/
theorem findEdge?_eq_some {kind : EdgeKind} {src dst : NodeId} {gone : Edge} {i : Nat}
    (h : g.findEdge? kind src dst = some (gone, i)) :
    g.edges[i]? = some gone ∧ gone.joins kind src dst = true := by
  rcases foldl_pickLower_eq_some h with hmem | hmem
  · obtain ⟨hmem, hjoins⟩ := List.mem_filter.1 hmem
    exact ⟨List.mem_zipIdx_iff_getElem?.1 hmem, hjoins⟩
  · cases hmem

/-- An edge is found if there is one. -/
theorem findEdge?_isSome {kind : EdgeKind} {src dst : NodeId} {e : Edge} (he : e ∈ g.edges)
    (hjoins : e.joins kind src dst = true) : (g.findEdge? kind src dst).isSome := by
  obtain ⟨i, hi⟩ := List.mem_iff_getElem?.1 he
  refine foldl_pickLower_isSome (.inl (List.ne_nil_of_mem (a := (e, i)) ?_))
  exact List.mem_filter.2 ⟨List.mem_zipIdx_iff_getElem?.2 hi, hjoins⟩

theorem findEdge?_eq_none {kind : EdgeKind} {src dst : NodeId}
    (hnone : ∀ e ∈ g.edges, e.joins kind src dst = false) : g.findEdge? kind src dst = none := by
  cases hfound : g.findEdge? kind src dst with
  | none => rfl
  | some found =>
    obtain ⟨hi, hjoins⟩ := findEdge?_eq_some hfound
    rw [hnone _ (List.mem_of_getElem? hi)] at hjoins
    cases hjoins

theorem InStep.length_ports_unlink_le (hg : g.InStep) (kind : EdgeKind) (src dst n : NodeId)
    (s : Slot) : ((g.unlink kind src dst).ports n s).length ≤ (g.ports n s).length := by
  unfold Graph.unlink
  split
  · rename_i gone i hfound
    obtain ⟨hsrc, hdst⟩ := hg.ends (List.mem_of_getElem? (findEdge?_eq_some hfound).1)
    rw [ports_unlinkAt hsrc hdst]
    cases gone.spot? n s with
    | none => exact Nat.le_refl _
    | some hole => exact List.length_eraseIdx_le _ _
  · exact Nat.le_refl _

theorem InStep.unlink (hg : g.InStep) (kind : EdgeKind) (src dst : NodeId) :
    (g.unlink kind src dst).InStep := by
  unfold Graph.unlink
  split
  · exact hg.unlinkAt (findEdge?_eq_some ‹_›).1
  · exact hg

end

end Graph

/-- Finishing hands out the graph if it passes the audit, and leaves the net. -/
theorem Net.finish_run (net : Net) : Net.finish net = match net.audit with
    | .ok _ => .ok net.toGraph net
    | .error e => .error e net := by
  have h : Net.finish net = EStateM.bind (Net.attempt net.audit) (fun _ => pure net.toGraph) net :=
    rfl
  rw [h, EStateM.bind]
  cases net.audit <;> rfl

end Dataflow
