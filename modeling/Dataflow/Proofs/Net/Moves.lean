import Dataflow.Proofs.Net.Reached

/-!
# What moves keep

Two facts about nets that every move keeps: the nodes are numbered one after the other, up to where
the supply stands (`Net.Counted`), and the nodes that blocks, instructions and loops refer to exist
(`Graph.Anchored`). So in a net that operations reach no two nodes share a number (`Reached.nodup_uids`),
and stored nodes exist (`Reached.anchored`).

`Net.Builds`: an operation only makes moves, also where it fails halfway. Sequences of such operations
are such operations (`Builds.bind`, `builds_forM`, `builds_mapM`).
-/

namespace Dataflow

open Relation

namespace Graph

variable {g : Graph}

/-! ## Numbers and kinds under changes -/

theorem uids_modifyNode (id : NodeId) {change : Node → Node}
    (hchange : ∀ n : Node, (change n).uid = n.uid) :
    (g.modifyNode id change).nodes.map Node.uid = g.nodes.map Node.uid := by
  refine List.ext_getElem? fun i => ?_
  rw [List.getElem?_map, List.getElem?_map, modifyNode, List.getElem?_modify]
  cases g.nodes[i]? with
  | none => rfl
  | some n =>
    by_cases hi : id = i
    · simp [hi, hchange]
    · simp [hi]

theorem uids_modifyPorts (id : NodeId) (slot : Slot) (change : List NodeId → List NodeId) :
    (g.modifyPorts id slot change).nodes.map Node.uid = g.nodes.map Node.uid :=
  uids_modifyNode id fun _ => rfl

theorem uids_link (kind : EdgeKind) (src dst : NodeId) :
    (g.link kind src dst).nodes.map Node.uid = g.nodes.map Node.uid :=
  (uids_modifyPorts _ _ _).trans (uids_modifyPorts _ _ _)

theorem uids_unlinkAt (gone : Edge) (i : Nat) :
    (g.unlinkAt gone i).nodes.map Node.uid = g.nodes.map Node.uid :=
  (uids_modifyPorts _ _ _).trans (uids_modifyPorts _ _ _)

theorem uids_unlink (kind : EdgeKind) (src dst : NodeId) :
    (g.unlink kind src dst).nodes.map Node.uid = g.nodes.map Node.uid := by
  unfold unlink
  split
  · exact uids_unlinkAt ..
  · rfl

/-- As many numbers, as many nodes. -/
theorem length_eq_of_uids {g' : Graph} (h : g'.nodes.map Node.uid = g.nodes.map Node.uid) :
    g'.nodes.length = g.nodes.length := by
  simpa using congrArg List.length h

theorem kind?_addNode_cases {node : Node} {n : NodeId} {kind : NodeKind}
    (h : (g.addNode node).kind? n = some kind) : g.kind? n = some kind ∨ kind = node.kind := by
  obtain ⟨found, hfound, rfl⟩ := kind?_eq_some.1 h
  have hfound : (g.nodes ++ [node])[n]? = some found := hfound
  rcases List.mem_append.1 (List.mem_of_getElem? hfound) with hmem | hmem
  · by_cases hn : n < g.nodes.length
    · rw [List.getElem?_append_left hn] at hfound
      exact .inl (kind?_eq_some.2 ⟨found, hfound, rfl⟩)
    · rw [List.getElem?_append_right (Nat.not_lt.1 hn)] at hfound
      exact .inr (by rw [List.mem_singleton.1 (List.mem_of_getElem? hfound)])
  · exact .inr (by rw [List.mem_singleton.1 hmem])

/-! ## Stored nodes -/

/-- What blocks, instructions and loops refer to exists. -/
def Anchored (g : Graph) : Prop := ∀ n kind, g.kind? n = some kind → kind.Within g.nodes.length

end Graph

theorem NodeKind.Within.mono {count count' : Nat} {kind : NodeKind} (h : kind.Within count)
    (hle : count ≤ count') : kind.Within count' :=
  fun id hid => Nat.lt_of_lt_of_le (h id hid) hle

namespace Net

/-- The nodes are numbered one after the other from `first`, and the supply stands behind them. -/
structure Counted (first : Uid) (net : Net) : Prop where
  uids_eq : net.nodes.map Node.uid = List.range' first net.nodes.length
  next_eq : net.uids.next = first + net.nodes.length

section
variable {net net' : Net} {first : Uid}

theorem Counted.le_next (hnet : net.Counted first) : first ≤ net.uids.next := by
  rw [hnet.next_eq]
  exact Nat.le_add_right ..

theorem Counted.withGraph (hnet : net.Counted first) {g : Graph}
    (huids : g.nodes.map Node.uid = net.nodes.map Node.uid) : (net.withGraph g).Counted first := by
  have hlength : g.nodes.length = net.nodes.length := Graph.length_eq_of_uids huids
  constructor
  · show g.nodes.map Node.uid = List.range' first g.nodes.length
    rw [huids, hlength, hnet.uids_eq]
  · show net.uids.next = first + g.nodes.length
    rw [hlength, hnet.next_eq]

theorem Move.counted (h : Move net net') (hnet : net.Counted first) : net'.Counted first := by
  cases h with
  | @push kind _ =>
    have hnodes : (net.pushed kind).nodes = net.nodes ++ [{ uid := net.uids.next, kind }] := rfl
    constructor
    · rw [hnodes, List.map_append, List.length_append, List.range'_append_1.symm, hnet.uids_eq,
        hnet.next_eq]
      rfl
    · rw [hnodes, List.length_append, ← Nat.add_assoc, ← hnet.next_eq]
      rfl
  | revise => exact hnet.withGraph (Graph.uids_modifyNode _ fun _ => rfl)
  | link => exact hnet.withGraph (Graph.uids_link _ _ _)
  | unlink => exact hnet.withGraph (Graph.uids_unlink _ _ _)

theorem Move.anchored (h : Move net net') (hnet : net.Anchored) : net'.Anchored := by
  intro n found hfound
  cases h with
  | @push kind hwithin =>
    have hle : net.nodes.length ≤ (net.pushed kind).nodes.length := Nat.le_of_lt (net.lt_length_pushed kind)
    rcases Graph.kind?_addNode_cases hfound with hold | rfl
    · exact (hnet n found hold).mono hle
    · exact hwithin.mono hle
  | @revise id kind kind' hkind _ hwithin =>
    have hlength : (net.withGraph (net.modifyKind id fun _ => kind')).nodes.length =
        net.nodes.length := Graph.length_modifyKind ..
    have hfound : (net.modifyKind id fun _ => kind').kind? n = some found := hfound
    rw [hlength]
    rw [Graph.kind?_modifyKind] at hfound
    by_cases hn : id = n
    · subst hn
      rw [if_pos rfl, hkind] at hfound
      obtain rfl := Option.some.inj hfound
      exact hwithin (hnet id kind hkind)
    · rw [if_neg hn] at hfound
      exact hnet n found hfound
  | @link kind src dst _ =>
    have hlength := Graph.length_eq_of_uids (net.uids_link kind src dst)
    exact hlength ▸ hnet n found ((Graph.kind?_link ..).symm.trans hfound)
  | unlink kind src dst =>
    have hlength := Graph.length_eq_of_uids (net.uids_unlink kind src dst)
    exact hlength ▸ hnet n found ((Graph.kind?_unlink ..).symm.trans hfound)

end

/-! ## New nets and reached nets -/

section
variable {name : String} {uids : Supply} {net : Net}

theorem start_eq_ok : Net.start name uids = .ok net ↔ uids.next < idLimit ∧
    net = ⟨⟨name, [{ uid := uids.next, kind := .split [] }], [], 0⟩, ⟨uids.next + 1⟩⟩ := by
  constructor
  · intro h
    obtain ⟨⟨uid, uids'⟩, htake, h⟩ := bind_eq_ok.1 h
    obtain ⟨hlt, rfl, rfl⟩ := Supply.take_eq_ok.1 htake
    exact ⟨hlt, (pure_eq_ok.1 h).symm⟩
  · rintro ⟨hlt, rfl⟩
    exact bind_eq_ok.2 ⟨_, Supply.take_eq_ok.2 ⟨hlt, rfl, rfl⟩, rfl⟩

theorem start_counted (h : Net.start name uids = .ok net) : net.Counted uids.next := by
  obtain ⟨-, rfl⟩ := start_eq_ok.1 h
  exact ⟨rfl, rfl⟩

theorem start_anchored (h : Net.start name uids = .ok net) : net.Anchored := by
  obtain ⟨-, rfl⟩ := start_eq_ok.1 h
  intro n kind hkind
  obtain ⟨node, hnode, rfl⟩ := Graph.kind?_eq_some.1 hkind
  obtain rfl := List.mem_singleton.1 (List.mem_of_getElem? hnode)
  exact NodeKind.within_of_stored rfl _

/-- A reached net comes from a new one by moves. -/
theorem Reached.moves (h : net.Reached) :
    ∃ name uids first, Net.start name uids = .ok first ∧ ReflTransGen Move first net := by
  induction h with
  | start h => exact ⟨_, _, _, h, .refl⟩
  | step hnet op ih =>
    obtain ⟨name, uids, first, hstart, hmoves⟩ := ih
    exact ⟨name, uids, first, hstart, hmoves.trans (moves_after hnet.coherent op)⟩

theorem counted_of_moves {first : Net} (hstart : Net.start name uids = .ok first)
    (hmoves : ReflTransGen Move first net) : net.Counted uids.next :=
  keep_of_moves Move.counted hmoves (start_counted hstart)

theorem moves_foldl_after (hnet : net.Coherent) (ops : List Op) :
    ReflTransGen Move net (ops.foldl after net) := by
  induction ops generalizing net with
  | nil => exact .refl
  | cons op ops ih =>
    have hstep := moves_after hnet op
    exact hstep.trans (ih (coherent_of_moves hstep hnet))

theorem counted_foldl_after (hstart : Net.start name uids = .ok net) (ops : List Op) :
    (ops.foldl after net).Counted uids.next :=
  counted_of_moves hstart (moves_foldl_after (start_coherent hstart) ops)

theorem Reached.nodup_uids (h : net.Reached) : (net.nodes.map Node.uid).Nodup := by
  obtain ⟨_, uids, first, hstart, hmoves⟩ := h.moves
  rw [(counted_of_moves hstart hmoves).uids_eq]
  exact List.nodup_range'

theorem Reached.anchored (h : net.Reached) : net.Anchored := by
  obtain ⟨_, _, first, hstart, hmoves⟩ := h.moves
  exact keep_of_moves Move.anchored hmoves (start_anchored hstart)

end

/-! ## Operations that only make moves -/

section
variable {α β : Type}

/-- The net an operation leaves, whether it succeeds or fails. -/
def leaves (m : NetM α) (net : Net) : Net :=
  match m net with
  | .ok _ net' | .error _ net' => net'

theorem run_bind_eq_ok {m : NetM α} {k : α → NetM β} {net net'' : Net} {b : β}
    (h : (m >>= k) net = .ok b net'') : ∃ a net', m net = .ok a net' ∧ k a net' = .ok b net'' := by
  cases hcase : m net with
  | error e net' =>
    have hrun : EStateM.bind m k net = .ok b net'' := h
    rw [EStateM.bind, hcase] at hrun
    cases hrun
  | ok a net' => exact ⟨a, net', rfl, (run_bind hcase).symm.trans h⟩

/-- From a coherent net the operation gets by moves to the net it leaves. -/
def Builds (m : NetM α) : Prop := ∀ net : Net, net.Coherent → ReflTransGen Move net (leaves m net)

theorem builds_of_settles {m : NetM α}
    (h : ∀ net : Net, net.Coherent → Settles m net fun _ net' => ReflTransGen Move net net') :
    Builds m := by
  intro net hnet
  unfold leaves
  rcases h net hnet with ⟨e, he⟩ | ⟨a, net', hrun, hmoves⟩
  · rw [he]
  · rw [hrun]
    exact hmoves

theorem builds_of_acts {m : NetM α} {op : Op}
    (h : ∀ net : Net, Settles m net fun _ net' => ReflTransGen (Act op) net net') : Builds m :=
  builds_of_settles fun net hnet => (h net).imp fun _ _ => moves_of_acts hnet

theorem builds_pure (a : α) : Builds (pure a : NetM α) := fun _ _ => .refl

theorem builds_refuse (r : Refusal) : Builds (refuse r : NetM α) := fun _ _ => .refl

theorem builds_attempt (x : Except Failure α) : Builds (attempt x) := by
  intro net _
  cases x <;> exact .refl

theorem Builds.bind {m : NetM α} {k : α → NetM β} (hm : Builds m) (hk : ∀ a, Builds (k a)) :
    Builds (m >>= k) := by
  intro net hnet
  have hmoves := hm net hnet
  unfold leaves at hmoves ⊢
  cases hcase : m net with
  | error e net' =>
    have hrun : (m >>= k) net = .error e net' := by
      show EStateM.bind m k net = _
      rw [EStateM.bind, hcase]
    rw [hcase] at hmoves
    rw [hrun]
    exact hmoves
  | ok a net' =>
    rw [hcase] at hmoves
    rw [run_bind hcase]
    exact hmoves.trans (hk a net' (coherent_of_moves hmoves hnet))

theorem builds_get {k : Net → NetM α} (h : ∀ net, Builds (k net)) : Builds (get >>= k) :=
  fun net hnet => h net net hnet

theorem builds_forM {xs : List α} {step : α → NetM Unit} (h : ∀ x, Builds (step x)) :
    Builds (xs.forM step) := by
  induction xs with
  | nil => exact builds_pure ()
  | cons x xs ih => exact (h x).bind fun _ => ih

theorem builds_mapM {xs : List α} {step : α → NetM β} (h : ∀ x, Builds (step x)) :
    Builds (xs.mapM step) := by
  induction xs with
  | nil => exact builds_pure []
  | cons x xs ih =>
    rw [List.mapM_cons]
    exact (h x).bind fun _ => ih.bind fun _ => builds_pure _

end

end Net

end Dataflow
