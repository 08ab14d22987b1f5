import Dataflow.Proofs.Net.InStep
import Dataflow.Proofs.Net.Operations

/-!
# Coherent graphs

A graph is coherent (`Graph.Coherent`) if its edges and ports are in step, every edge is one that its
ends can carry, and no access has more than one request or response port. The four ways in which a
graph under construction changes keep this:

* a node is added (`Coherent.addNode`),
* the contents of a node are revised (`Coherent.revise`),
* an edge is added that has no defect (`Coherent.link`),
* an edge is removed (`Coherent.unlink`).

In a coherent graph the ports of an access lead to the unit it is bound to, so releasing the access
from that unit leaves it without memory ports (`Coherent.memReq_unlink`, `Coherent.memResp_unlink`).
-/

namespace Dataflow

/-! ## Edges that their ends can carry -/

/-- The node is an access of a kind, bound to a unit. -/
def NodeKind.BoundTo (kind : NodeKind) (access : AccessKind) (unit : NodeId) : Prop :=
  ∃ i, kind = .instr i ∧ i.op.kind.access? = some access ∧ i.op.memory? = some unit

theorem NodeKind.BoundTo.unique {kind : NodeKind} {k k' : AccessKind} {u u' : NodeId}
    (h : kind.BoundTo k u) (h' : kind.BoundTo k' u') : k = k' ∧ u = u' := by
  obtain ⟨i, rfl, hk, hu⟩ := h
  obtain ⟨_, hi, hk', hu'⟩ := h'
  cases hi
  exact ⟨Option.some.inj (hk.symm.trans hk'), Option.some.inj (hu.symm.trans hu')⟩

theorem NodeKind.BoundTo.accepts {kind : NodeKind} {k : AccessKind} {unit : NodeId}
    (h : kind.BoundTo k unit) {s : Slot} (hs : s = .memReq ∨ s = .memResp) :
    kind.accepts s = true := by
  obtain ⟨i, rfl, hk, -⟩ := h
  exact accepts_memory hk hs

/-- What a kind of edge asks of its ends beyond having ports for it. -/
def EdgeKind.Suits (kind : EdgeKind) (src dst : NodeId) (source target : NodeKind) : Prop :=
  match kind with
  | .mask => source.type = .block
  | .dependency => source.type ≠ .block
  | .memoryRead => source.BoundTo .load dst
  | .memoryWrite => source.BoundTo .store dst
  | .memoryToData => target.BoundTo .load src
  | .memoryToControl => target.BoundTo .store src
  | .data | .control | .dataToControl | .controlToData => True

namespace Graph

/-- Both ends exist and can carry an edge of the kind. -/
structure Carries (g : Graph) (kind : EdgeKind) (src dst : NodeId) (source target : NodeKind) :
    Prop where
  kind_src : g.kind? src = some source
  kind_dst : g.kind? dst = some target
  accepts_src : source.accepts kind.sourceSlot = true
  accepts_dst : target.accepts kind.targetSlot = true
  suits : kind.Suits src dst source target

theorem accessDefect?_eq_none_iff {access : Node} {unit : NodeId} {k : AccessKind} {s : Slot} :
    accessDefect? access unit k s = none ↔
      access.kind.BoundTo k unit ∧ access.ports.get s = [] := by
  unfold accessDefect? NodeKind.BoundTo Node.access? Node.instr?
  cases access.kind with
  | instr i =>
    by_cases hk : i.op.kind.access? = some k <;> by_cases hu : i.op.memory? = some unit <;>
      by_cases hs : access.ports.get s = [] <;> simp [hk, hu, hs]
  | _ => simp

theorem kindDefect?_eq_none_iff {kind : EdgeKind} {src dst : NodeId} {source target : Node} :
    kindDefect? kind src dst source target = none ↔
      kind.Suits src dst source.kind target.kind ∧
        (kind.sourceSlot = .memReq → source.ports.memReq = []) ∧
        (kind.targetSlot = .memResp → target.ports.memResp = []) := by
  cases kind with
  | mask | dependency =>
    by_cases h : source.kind.type = .block <;>
      simp [kindDefect?, EdgeKind.Suits, EdgeKind.sourceSlot, EdgeKind.targetSlot, Node.type, h]
  | _ =>
    simp [kindDefect?, EdgeKind.Suits, EdgeKind.sourceSlot, EdgeKind.targetSlot,
      accessDefect?_eq_none_iff, Ports.get]

/-- Nodes can be joined if they carry the edge and the access is not served yet. -/
theorem edgeDefect?_eq_none_iff {g : Graph} {kind : EdgeKind} {src dst : NodeId} :
    g.edgeDefect? kind src dst = none ↔
      (∃ source target, g.Carries kind src dst source target) ∧
        (kind.sourceSlot = .memReq → g.ports src .memReq = []) ∧
        (kind.targetSlot = .memResp → g.ports dst .memResp = []) := by
  constructor
  · intro h
    unfold edgeDefect? at h
    split at h
    · rename_i source target hsrc hdst
      by_cases haccepts : source.accepts kind.sourceSlot = true
      case neg => simp [haccepts] at h
      by_cases haccepts' : target.accepts kind.targetSlot = true
      case neg => simp [haccepts, haccepts'] at h
      simp only [haccepts, haccepts', Bool.not_true, Bool.false_eq_true, if_false] at h
      obtain ⟨hsuits, hreq, hresp⟩ := kindDefect?_eq_none_iff.1 h
      refine ⟨⟨_, _, kind?_eq_some.2 ⟨_, hsrc, rfl⟩, kind?_eq_some.2 ⟨_, hdst, rfl⟩, haccepts,
        haccepts', hsuits⟩, ?_, ?_⟩
      · rw [ports_eq hsrc]
        exact hreq
      · rw [ports_eq hdst]
        exact hresp
    · cases h
  · rintro ⟨⟨_, _, hcarries⟩, hreq, hresp⟩
    obtain ⟨source, hsrc, rfl⟩ := kind?_eq_some.1 hcarries.kind_src
    obtain ⟨target, hdst, rfl⟩ := kind?_eq_some.1 hcarries.kind_dst
    rw [ports_eq hsrc] at hreq
    rw [ports_eq hdst] at hresp
    have haccepts : source.accepts kind.sourceSlot = true := hcarries.accepts_src
    have haccepts' : target.accepts kind.targetSlot = true := hcarries.accepts_dst
    simp only [edgeDefect?, hsrc, hdst, haccepts, haccepts']
    exact kindDefect?_eq_none_iff.2 ⟨hcarries.suits, hreq, hresp⟩

/-! ## Serving an access -/

section
variable {g : Graph} {access unit : NodeId} {kind : NodeKind} {k : AccessKind} {r : Region}
variable (haccess : g.kind? access = some kind) (hbound : kind.BoundTo k unit)
variable (hunit : g.kind? unit = some (.memory r))
include haccess hbound hunit

/-- An access without a request port can send its request to its unit. -/
theorem edgeDefect?_request (hreq : g.ports access .memReq = []) :
    g.edgeDefect? k.request access unit = none := by
  refine edgeDefect?_eq_none_iff.2
    ⟨⟨kind, .memory r, haccess, hunit, hbound.accepts (.inl ?_), ?_, ?_⟩, fun _ => hreq, ?_⟩
  · cases k <;> rfl
  · cases k <;> rfl
  · cases k <;> exact hbound
  · cases k <;> exact fun h => by cases h

/-- An access without a response port can get its response from its unit. -/
theorem edgeDefect?_response (hresp : g.ports access .memResp = []) :
    g.edgeDefect? k.response unit access = none := by
  refine edgeDefect?_eq_none_iff.2
    ⟨⟨.memory r, kind, hunit, haccess, ?_, hbound.accepts (.inr ?_), ?_⟩, ?_, fun _ => hresp⟩
  · cases k <;> rfl
  · cases k <;> rfl
  · cases k <;> exact hbound
  · cases k <;> exact fun h => by cases h

omit hbound in
/-- A request takes no response port. -/
theorem memResp_link_request : (g.link k.request access unit).ports access .memResp =
    g.ports access .memResp := by
  rw [ports_link (lt_of_kind? haccess) (lt_of_kind? hunit)]
  cases k <;> simp [Edge.spot?, nextEdge, AccessKind.request, EdgeKind.sourceSlot,
    EdgeKind.targetSlot]

end

/-! ## Coherence -/

/-- Edges and ports are in step, every edge suits its ends, and accesses are served at most once. -/
structure Coherent (g : Graph) : Prop where
  inStep : g.InStep
  carries : ∀ e ∈ g.edges, ∃ source target, g.Carries e.kind e.src e.dst source target
  servedOnce : ∀ n s, s = .memReq ∨ s = .memResp → (g.ports n s).length ≤ 1

section
variable {g : Graph}

/-- Every slot in use is one that the node accepts. -/
theorem Coherent.accepts (hg : g.Coherent) {n : NodeId} {s : Slot} (hs : g.ports n s ≠ []) :
    ∃ kind, g.kind? n = some kind ∧ kind.accepts s = true := by
  obtain ⟨x, hx⟩ := List.exists_mem_of_ne_nil _ hs
  obtain ⟨e, he, i, hspot⟩ := hg.inStep.exists_edge hx
  obtain ⟨source, target, hcarries⟩ := hg.carries e he
  rcases Edge.spot?_eq_some.1 hspot with ⟨⟨rfl, rfl⟩, -⟩ | ⟨⟨rfl, rfl⟩, -⟩
  · exact ⟨source, hcarries.kind_src, hcarries.accepts_src⟩
  · exact ⟨target, hcarries.kind_dst, hcarries.accepts_dst⟩

theorem Coherent.source_suits (hg : g.Coherent) {e : Edge} (he : e ∈ g.edges) :
    ∃ node target, g.nodes[e.src]? = some node ∧ e.kind.Suits e.src e.dst node.kind target := by
  obtain ⟨source, target, hcarries⟩ := hg.carries e he
  obtain ⟨node, hnode, rfl⟩ := kind?_eq_some.1 hcarries.kind_src
  exact ⟨node, target, hnode, hcarries.suits⟩

/-! ## Adding a node -/

/-- The graph with one more node. -/
def addNode (g : Graph) (node : Node) : Graph := { g with nodes := g.nodes ++ [node] }

theorem kind?_addNode {node : Node} {n : NodeId} {kind : NodeKind} (h : g.kind? n = some kind) :
    (g.addNode node).kind? n = some kind := by
  obtain ⟨found, hn, rfl⟩ := kind?_eq_some.1 h
  refine kind?_eq_some.2 ⟨found, ?_, rfl⟩
  exact (List.getElem?_append_left (List.getElem?_eq_some_iff.1 hn).1).trans hn

theorem ports_addNode (uid : Uid) (kind : NodeKind) (n : NodeId) (s : Slot) :
    (g.addNode { uid, kind }).ports n s = g.ports n s := by
  simp only [ports, addNode]
  rcases Nat.lt_trichotomy n g.nodes.length with h | rfl | h
  · rw [List.getElem?_append_left h]
  · have hnone : ({} : Ports).get s = [] := by cases s <;> rfl
    simp [hnone]
  · rw [List.getElem?_eq_none (by simp; omega), List.getElem?_eq_none (by omega)]

theorem Coherent.addNode (hg : g.Coherent) (uid : Uid) (kind : NodeKind) :
    (g.addNode { uid, kind }).Coherent := by
  refine ⟨fun n s => ?_, fun e he => ?_, fun n s hs => ?_⟩
  · rw [ports_addNode]
    exact hg.inStep n s
  · obtain ⟨source, target, h⟩ := hg.carries e he
    exact ⟨source, target, kind?_addNode h.kind_src, kind?_addNode h.kind_dst, h.accepts_src,
      h.accepts_dst, h.suits⟩
  · rw [ports_addNode]
    exact hg.servedOnce n s hs

/-! ## Revising a node -/

end

/-- How the contents of a node may be revised. An access that is `served` keeps its unit. -/
inductive Revises (served : Prop) : NodeKind → NodeKind → Prop
  | split (arguments arguments' : List NodeId) : Revises served (.split arguments) (.split arguments')
  | block (b b' : BlockNode) : Revises served (.block b) (.block b')
  | loop (l l' : LoopNode) : Revises served (.loop l) (.loop l')
  | memory (i : InstrNode) (unit : NodeId) (h : ¬ served) :
      Revises served (.instr i) (.instr { i with op := i.op.withMemory unit })

namespace Revises

variable {served : Prop} {kind kind' : NodeKind}

theorem type_eq (h : Revises served kind kind') : kind'.type = kind.type := by
  cases h <;> rfl

theorem accepts_eq (h : Revises served kind kind') (s : Slot) : kind'.accepts s = kind.accepts s := by
  cases h with
  | memory i unit _ => simp [NodeKind.accepts]
  | _ => rfl

theorem boundTo (h : Revises served kind kind') (hserved : served) {k : AccessKind} {unit : NodeId}
    (hbound : kind.BoundTo k unit) : kind'.BoundTo k unit := by
  obtain ⟨i, rfl, -⟩ := hbound
  cases h with
  | memory _ _ hunserved => exact absurd hserved hunserved

end Revises

section
variable {g : Graph}

/-- A node that an access edge touches has a memory port. -/
theorem InStep.ports_ne_nil (hg : g.InStep) {e : Edge} (he : e ∈ g.edges) :
    g.ports e.src e.kind.sourceSlot ≠ [] ∧ g.ports e.dst e.kind.targetSlot ≠ [] :=
  ⟨List.ne_nil_of_mem (List.mem_of_getElem? (hg.getElem?_ports he e.spot?_source)),
    List.ne_nil_of_mem (List.mem_of_getElem? (hg.getElem?_ports he e.spot?_target))⟩

theorem Coherent.revise (hg : g.Coherent) {id : NodeId} {kind kind' : NodeKind}
    (hkind : g.kind? id = some kind)
    (hrev : Revises (g.ports id .memReq ≠ [] ∨ g.ports id .memResp ≠ []) kind kind') :
    (g.modifyKind id fun _ => kind').Coherent := by
  refine ⟨fun n s => ?_, fun e he => ?_, fun n s hs => ?_⟩
  · rw [ports_modifyKind]
    exact hg.inStep n s
  · obtain ⟨source, target, h⟩ := hg.carries e he
    obtain ⟨hout, hin⟩ := hg.inStep.ports_ne_nil he
    -- what either end turns into, and that it can still carry the edge
    have hend : ∀ {n : NodeId} {old : NodeKind}, g.kind? n = some old → ∃ new,
        (g.modifyKind id fun _ => kind').kind? n = some new ∧ new.type = old.type ∧
          (∀ s, new.accepts s = old.accepts s) ∧
          (g.ports n .memReq ≠ [] ∨ g.ports n .memResp ≠ [] →
            ∀ k u, old.BoundTo k u → new.BoundTo k u) := by
      intro n old hold
      rw [kind?_modifyKind]
      by_cases hn : id = n
      · subst hn
        obtain rfl : kind = old := Option.some.inj (hkind.symm.trans hold)
        rw [if_pos rfl, hold]
        exact ⟨kind', rfl, hrev.type_eq, hrev.accepts_eq, fun hs k u => hrev.boundTo hs⟩
      · rw [if_neg hn]
        exact ⟨old, hold, rfl, fun _ => rfl, fun _ _ _ h => h⟩
    obtain ⟨source', hsource', htype, haccepts, hbound⟩ := hend h.kind_src
    obtain ⟨target', htarget', -, haccepts', hbound'⟩ := hend h.kind_dst
    refine ⟨source', target', hsource', htarget', (haccepts _).trans h.accepts_src,
      (haccepts' _).trans h.accepts_dst, ?_⟩
    have hsuits := h.suits
    cases hk : e.kind <;> simp only [hk, EdgeKind.Suits, EdgeKind.sourceSlot, EdgeKind.targetSlot]
      at hsuits hout hin ⊢
    case mask => exact htype.trans hsuits
    case dependency => rwa [htype]
    case memoryRead => exact hbound (.inl hout) _ _ hsuits
    case memoryWrite => exact hbound (.inl hout) _ _ hsuits
    case memoryToData => exact hbound' (.inr hin) _ _ hsuits
    case memoryToControl => exact hbound' (.inr hin) _ _ hsuits
  · rw [ports_modifyKind]
    exact hg.servedOnce n s hs

/-! ## Adding and removing edges -/

theorem Carries.congr {g' : Graph} {kind : EdgeKind} {src dst : NodeId} {source target : NodeKind}
    (h : g.Carries kind src dst source target) (hkind : ∀ n, g'.kind? n = g.kind? n) :
    g'.Carries kind src dst source target :=
  { h with
    kind_src := (hkind src).trans h.kind_src
    kind_dst := (hkind dst).trans h.kind_dst }

theorem Coherent.link (hg : g.Coherent) {kind : EdgeKind} {src dst : NodeId}
    (hdefect : g.edgeDefect? kind src dst = none) : (g.link kind src dst).Coherent := by
  obtain ⟨⟨source, target, hcarries⟩, hreq, hresp⟩ := edgeDefect?_eq_none_iff.1 hdefect
  have hsrc := lt_of_kind? hcarries.kind_src
  have hdst := lt_of_kind? hcarries.kind_dst
  refine ⟨hg.inStep.link hsrc hdst kind, fun e he => ?_, fun n s hs => ?_⟩
  · rcases List.mem_append.1 he with he | he
    · obtain ⟨source, target, h⟩ := hg.carries e he
      exact ⟨source, target, h.congr (kind?_link kind src dst)⟩
    · obtain rfl := List.mem_singleton.1 he
      exact ⟨source, target, hcarries.congr (kind?_link kind src dst)⟩
  · -- a memory port is only added to an access that has none
    rw [ports_link hsrc hdst]
    cases hspot : (g.nextEdge kind src dst).spot? n s with
    | none => simpa using hg.servedOnce n s hs
    | some x =>
      have hnil : g.ports n s = [] := by
        rcases hs with rfl | rfl
        · obtain ⟨⟨rfl, hslot⟩, -⟩ := (Edge.spot?_eq_some_source rfl).1 hspot
          exact hreq hslot
        · obtain ⟨⟨rfl, hslot⟩, -⟩ := (Edge.spot?_eq_some_target rfl).1 hspot
          exact hresp hslot
      simp [hnil]

theorem Coherent.unlink (hg : g.Coherent) (kind : EdgeKind) (src dst : NodeId) :
    (g.unlink kind src dst).Coherent := by
  refine ⟨hg.inStep.unlink kind src dst, fun e he => ?_, fun n s hs => ?_⟩
  · -- the remaining edges join what they did
    obtain ⟨e', he', hsame⟩ : ∃ e' ∈ g.edges, e.kind = e'.kind ∧ e.src = e'.src ∧ e.dst = e'.dst := by
      unfold Graph.unlink at he
      split at he
      · obtain ⟨e', he', rfl⟩ := List.mem_map.1 he
        exact ⟨e', List.mem_of_mem_eraseIdx he', rfl, rfl, rfl⟩
      · exact ⟨e, he, rfl, rfl, rfl⟩
    obtain ⟨hk, hsrc, hdst⟩ := hsame
    obtain ⟨source, target, h⟩ := hg.carries e' he'
    rw [hk, hsrc, hdst]
    exact ⟨source, target, h.congr (kind?_unlink kind src dst)⟩
  · exact Nat.le_trans (hg.inStep.length_ports_unlink_le kind src dst n s) (hg.servedOnce n s hs)

/-! ## Releasing an access -/

/-- Removing an edge leaves the slots it does not land in. -/
theorem Coherent.ports_unlink_of_ne (hg : g.Coherent) {kind : EdgeKind} {src dst n : NodeId}
    {s : Slot} (hsrc : src = n → kind.sourceSlot ≠ s) (hdst : dst = n → kind.targetSlot ≠ s) :
    (g.unlink kind src dst).ports n s = g.ports n s := by
  unfold Graph.unlink
  split
  · rename_i gone i hfound
    obtain ⟨hi, hjoins⟩ := findEdge?_eq_some hfound
    obtain ⟨hlt, hlt'⟩ := hg.inStep.ends (List.mem_of_getElem? hi)
    obtain ⟨rfl, rfl, rfl⟩ := Edge.joins_iff.1 hjoins
    have hspot : gone.spot? n s = none := by
      rw [Edge.spot?, if_neg fun h => hsrc h.1 h.2, if_neg fun h => hdst h.1 h.2]
    rw [ports_unlinkAt hlt hlt', hspot]
    rfl
  · rfl

/-- A slot with at most one port is empty after its one edge is removed. -/
theorem Coherent.ports_unlink_eq_nil (hg : g.Coherent) {kind : EdgeKind} {src dst n : NodeId}
    {s : Slot} (hs : s = .memReq ∨ s = .memResp)
    (hjoins : ∀ e ∈ g.edges, ∀ x i, e.spot? n s = some (x, i) → e.joins kind src dst = true) :
    (g.unlink kind src dst).ports n s = [] := by
  by_cases hnil : g.ports n s = []
  · have hle := hg.inStep.length_ports_unlink_le kind src dst n s
    rw [hnil] at hle
    exact List.eq_nil_of_length_eq_zero (Nat.le_zero.1 hle)
  · obtain ⟨x, hx⟩ := List.exists_mem_of_ne_nil _ hnil
    obtain ⟨e, he, i, hspot⟩ := hg.inStep.exists_edge hx
    have hej := hjoins e he x i hspot
    obtain ⟨⟨gone, j⟩, hfound⟩ := Option.isSome_iff_exists.1 (findEdge?_isSome he hej)
    obtain ⟨hj, hgj⟩ := findEdge?_eq_some hfound
    have hgone := List.mem_of_getElem? hj
    -- the edge found lands where the edge in the slot does
    obtain ⟨y, k, hspot'⟩ : ∃ y k, gone.spot? n s = some (y, k) := by
      obtain ⟨hk, hsrc, hdst⟩ := Edge.joins_iff.1 hej
      obtain ⟨hk', hsrc', hdst'⟩ := Edge.joins_iff.1 hgj
      rcases Edge.spot?_eq_some.1 hspot with ⟨⟨rfl, rfl⟩, -⟩ | ⟨⟨rfl, rfl⟩, -⟩
      · exact ⟨_, _, Edge.spot?_eq_some.2
          (.inl ⟨⟨hsrc'.trans hsrc.symm, by rw [hk', hk]⟩, rfl, rfl⟩)⟩
      · exact ⟨_, _, Edge.spot?_eq_some.2
          (.inr ⟨⟨hdst'.trans hdst.symm, by rw [hk', hk]⟩, rfl, rfl⟩)⟩
    obtain ⟨hlt, hlt'⟩ := hg.inStep.ends hgone
    have hk := hg.inStep.lt_length_ports hgone hspot'
    have hone := hg.servedOnce n s hs
    rw [Graph.unlink, hfound]
    show (g.unlinkAt gone j).ports n s = []
    rw [ports_unlinkAt hlt hlt', hspot']
    refine List.eq_nil_of_length_eq_zero ?_
    show ((g.ports n s).eraseIdx k).length = 0
    rw [List.length_eraseIdx_of_lt hk]
    omega

/-- A request edge of an access goes to its unit. -/
theorem Coherent.joins_request (hg : g.Coherent) {access : NodeId} {i : InstrNode} {k : AccessKind}
    (hi : g.kind? access = some (.instr i)) (hk : i.op.kind.access? = some k) {e : Edge}
    (he : e ∈ g.edges) {x : NodeId} {j : Nat}
    (hspot : e.spot? access .memReq = some (x, j)) :
    ∃ unit, i.op.memory? = some unit ∧ e.joins k.request access unit = true := by
  obtain ⟨source, target, h⟩ := hg.carries e he
  have hsuits := h.suits
  obtain ⟨⟨rfl, hslot⟩, -⟩ := (Edge.spot?_eq_some_source rfl).1 hspot
  obtain rfl : source = .instr i := Option.some.inj (h.kind_src.symm.trans hi)
  cases hkind : e.kind <;> rw [hkind] at hslot hsuits <;> try cases hslot
  all_goals
    obtain ⟨_, hi', hk', hu⟩ := hsuits
    cases hi'
    obtain rfl := Option.some.inj (hk.symm.trans hk')
    exact ⟨e.dst, hu, by simp [Edge.joins, hkind, AccessKind.request]⟩

/-- A response edge of an access comes from its unit. -/
theorem Coherent.joins_response (hg : g.Coherent) {access : NodeId} {i : InstrNode} {k : AccessKind}
    (hi : g.kind? access = some (.instr i)) (hk : i.op.kind.access? = some k) {e : Edge}
    (he : e ∈ g.edges) {x : NodeId} {j : Nat}
    (hspot : e.spot? access .memResp = some (x, j)) :
    ∃ unit, i.op.memory? = some unit ∧ e.joins k.response unit access = true := by
  obtain ⟨source, target, h⟩ := hg.carries e he
  have hsuits := h.suits
  obtain ⟨⟨rfl, hslot⟩, -⟩ := (Edge.spot?_eq_some_target rfl).1 hspot
  obtain rfl : target = .instr i := Option.some.inj (h.kind_dst.symm.trans hi)
  cases hkind : e.kind <;> rw [hkind] at hslot hsuits <;> try cases hslot
  all_goals
    obtain ⟨_, hi', hk', hu⟩ := hsuits
    cases hi'
    obtain rfl := Option.some.inj (hk.symm.trans hk')
    exact ⟨e.src, hu, by simp [Edge.joins, hkind, AccessKind.response]⟩

section
variable (hg : g.Coherent) {access : NodeId} {i : InstrNode} {k : AccessKind}
variable (hi : g.kind? access = some (.instr i)) (hk : i.op.kind.access? = some k)
include hg hi hk

theorem Coherent.memReq_unlink {unit : NodeId} (hu : i.op.memory? = some unit) :
    (g.unlink k.request access unit).ports access .memReq = [] := by
  refine hg.ports_unlink_eq_nil (.inl rfl) fun e he x j hspot => ?_
  obtain ⟨unit', hu', hjoins⟩ := hg.joins_request hi hk he hspot
  rwa [Option.some.inj (hu.symm.trans hu')]

theorem Coherent.memResp_unlink {unit : NodeId} (hu : i.op.memory? = some unit) :
    (g.unlink k.response unit access).ports access .memResp = [] := by
  refine hg.ports_unlink_eq_nil (.inr rfl) fun e he x j hspot => ?_
  obtain ⟨unit', hu', hjoins⟩ := hg.joins_response hi hk he hspot
  rwa [Option.some.inj (hu.symm.trans hu')]

/-- An access that is bound to no unit has no memory ports. -/
theorem Coherent.unserved (hu : i.op.memory? = none) :
    g.ports access .memReq = [] ∧ g.ports access .memResp = [] := by
  constructor
  · refine List.eq_nil_iff_forall_not_mem.2 fun x hx => ?_
    obtain ⟨e, he, j, hspot⟩ := hg.inStep.exists_edge hx
    obtain ⟨unit, hu', -⟩ := hg.joins_request hi hk he hspot
    cases hu.symm.trans hu'
  · refine List.eq_nil_iff_forall_not_mem.2 fun x hx => ?_
    obtain ⟨e, he, j, hspot⟩ := hg.inStep.exists_edge hx
    obtain ⟨unit, hu', -⟩ := hg.joins_response hi hk he hspot
    cases hu.symm.trans hu'

end

end

end Graph

end Dataflow
