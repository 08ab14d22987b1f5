import Dataflow.Proofs.Net.Moves

/-!
# Edges added and removed in another order

Adding an edge puts it behind all others, and removing one moves the ports behind it up. So it makes no
difference whether an edge is added in front of or behind the removal of another one
(`InStep.unlink_link`), and removing an edge that has just been added takes the addition back
(`InStep.unlink_link_self`). What the nodes are has no part in this (`link_modifyKind`,
`unlink_modifyKind`).
-/

namespace Dataflow

namespace Graph

variable {g : Graph}

/-! ## Graphs that look alike -/

/-- Graphs are known by their edges and by the number, the kind and the ports of each node. -/
theorem ext_views {g' : Graph} (hname : g.name = g'.name) (hentry : g.entry = g'.entry)
    (hedges : g.edges = g'.edges) (huids : g.nodes.map Node.uid = g'.nodes.map Node.uid)
    (hkind : ∀ n, g.kind? n = g'.kind? n) (hports : ∀ n s, g.ports n s = g'.ports n s) : g = g' := by
  have hnodes : g.nodes = g'.nodes := by
    refine List.ext_getElem (length_eq_of_uids huids) fun n hn hn' => ?_
    refine Node.ext ?_ ?_ (Ports.ext_get fun s => ?_)
    · simpa [hn, hn'] using congrArg (·[n]?) huids
    · simpa [kind?, node?, hn, hn'] using hkind n
    · have hs := hports n s
      rwa [ports_eq (List.getElem?_eq_getElem hn), ports_eq (List.getElem?_eq_getElem hn')] at hs
  cases g
  cases g'
  simp_all

theorem length_link (kind : EdgeKind) (a b : NodeId) :
    (g.link kind a b).nodes.length = g.nodes.length := length_eq_of_uids (uids_link ..)

theorem length_unlink (kind : EdgeKind) (a b : NodeId) :
    (g.unlink kind a b).nodes.length = g.nodes.length := length_eq_of_uids (uids_unlink ..)

/-! ## Adding and removing different edges -/

section
variable (hg : g.InStep)
include hg

theorem InStep.length_ports_unlinkAt {gone : Edge} {i : Nat} (hi : g.edges[i]? = some gone)
    (n : NodeId) (s : Slot) : ((g.unlinkAt gone i).ports n s).length =
      (gone.spot? n s).elim (g.ports n s).length fun hole => shift hole.2 (g.ports n s).length := by
  have hgone := List.mem_of_getElem? hi
  obtain ⟨hsrc, hdst⟩ := hg.ends hgone
  rw [ports_unlinkAt hsrc hdst]
  cases hspot : gone.spot? n s with
  | none => rfl
  | some hole =>
    have hlt := hg.lt_length_ports hgone hspot
    simp [List.length_eraseIdx_of_lt hlt, shift, hlt]

/-- The next edge closes up to what the next edge is after the removal. -/
theorem InStep.closeUp_nextEdge {gone : Edge} {i : Nat} (hi : g.edges[i]? = some gone)
    (kind : EdgeKind) (a b : NodeId) :
    closeUp gone (g.nextEdge kind a b) = (g.unlinkAt gone i).nextEdge kind a b := by
  have hsource := (Edge.srcPort_closeUp gone (g.nextEdge kind a b)).trans
    (hg.length_ports_unlinkAt hi a kind.sourceSlot).symm
  have htarget := (Edge.dstPort_closeUp gone (g.nextEdge kind a b)).trans
    (hg.length_ports_unlinkAt hi b kind.targetSlot).symm
  exact congrArg₂ (Edge.mk kind a b) hsource htarget

theorem InStep.unlinkAt_link {a b : NodeId} (ha : a < g.nodes.length) (hb : b < g.nodes.length)
    (kind : EdgeKind) {gone : Edge} {i : Nat} (hi : g.edges[i]? = some gone) :
    (g.link kind a b).unlinkAt gone i = (g.unlinkAt gone i).link kind a b := by
  have hlt := (List.getElem?_eq_some_iff.1 hi).1
  have hgone := List.mem_of_getElem? hi
  obtain ⟨hsrc, hdst⟩ := hg.ends hgone
  have hlength : (g.unlinkAt gone i).nodes.length = g.nodes.length :=
    length_eq_of_uids (uids_unlinkAt ..)
  refine ext_views rfl rfl ?_ ?_ (fun n => ?_) fun n s => ?_
  · show ((g.edges ++ [g.nextEdge kind a b]).eraseIdx i).map (closeUp gone) =
      (g.edges.eraseIdx i).map (closeUp gone) ++ [(g.unlinkAt gone i).nextEdge kind a b]
    rw [List.eraseIdx_append_of_lt_length hlt, List.map_append, List.map_singleton,
      hg.closeUp_nextEdge hi]
  · rw [uids_unlinkAt, uids_link, uids_link, uids_unlinkAt]
  · rw [kind?_unlinkAt, kind?_link, kind?_link, kind?_unlinkAt]
  · rw [ports_unlinkAt (by rwa [length_link]) (by rwa [length_link]), ports_link ha hb,
      ports_link (by rwa [hlength]) (by rwa [hlength]), ports_unlinkAt hsrc hdst,
      ← hg.closeUp_nextEdge hi, Edge.spot?_closeUp, Option.map_map]
    cases hspot : gone.spot? n s with
    | none => rfl
    | some hole =>
      exact List.eraseIdx_append_of_lt_length (hg.lt_length_ports hgone hspot) _

omit hg in
/-- A new edge is the last candidate for removal. -/
theorem findEdge?_link (kind kind' : EdgeKind) (a b c d : NodeId) :
    (g.link kind a b).findEdge? kind' c d =
      if (g.nextEdge kind a b).joins kind' c d then
        pickLower (g.findEdge? kind' c d) (g.nextEdge kind a b, g.edges.length)
      else g.findEdge? kind' c d := by
  simp only [findEdge?, link, List.zipIdx_append, List.filter_append, List.foldl_append]
  cases h : (g.nextEdge kind a b).joins kind' c d <;> simp [h]

/-- It makes no difference whether an edge is added in front of or behind the removal of another
one. -/
theorem InStep.unlink_link {a b : NodeId} (ha : a < g.nodes.length) (hb : b < g.nodes.length)
    {kind kind' : EdgeKind} {c d : NodeId} (hne : ¬ (kind = kind' ∧ a = c ∧ b = d)) :
    (g.link kind a b).unlink kind' c d = (g.unlink kind' c d).link kind a b := by
  have hjoins : (g.nextEdge kind a b).joins kind' c d = false := by
    rw [Bool.eq_false_iff]
    exact fun h => hne (Edge.joins_iff.1 h)
  unfold Graph.unlink
  rw [findEdge?_link, hjoins]
  cases hfound : g.findEdge? kind' c d with
  | none => simp
  | some found =>
    simp only [Bool.false_eq_true, if_false]
    exact hg.unlinkAt_link ha hb kind (findEdge?_eq_some hfound).1

/-! ## Removing what was added -/

/-- The other edges stand in front of the next one and do not close up behind it. -/
theorem InStep.closeUp_of_mem {e : Edge} (he : e ∈ g.edges) (kind : EdgeKind) (a b : NodeId) :
    closeUp (g.nextEdge kind a b) e = e := by
  have hstay : ∀ {n x : NodeId} {s : Slot} {i : Nat}, e.spot? n s = some (x, i) →
      ((g.nextEdge kind a b).spot? n s).elim i (fun hole => shift hole.2 i) = i := by
    intro n x s i hspot
    have hlt := hg.lt_length_ports he hspot
    cases hnext : (g.nextEdge kind a b).spot? n s with
    | none => rfl
    | some hole =>
      have hhole : hole.2 = (g.ports n s).length := spot?_nextEdge hnext
      exact if_neg (by omega)
  have hsource := (Edge.srcPort_closeUp (g.nextEdge kind a b) e).trans (hstay e.spot?_source)
  have htarget := (Edge.dstPort_closeUp (g.nextEdge kind a b) e).trans (hstay e.spot?_target)
  exact congrArg₂ (Edge.mk e.kind e.src e.dst) hsource htarget

/-- Removing an edge that was added takes the addition back. -/
theorem InStep.unlink_link_self {a b : NodeId} (ha : a < g.nodes.length) (hb : b < g.nodes.length)
    {kind : EdgeKind} (hnone : ∀ e ∈ g.edges, e.joins kind a b = false) :
    (g.link kind a b).unlink kind a b = g := by
  have hjoins : (g.nextEdge kind a b).joins kind a b = true := Edge.joins_iff.2 ⟨rfl, rfl, rfl⟩
  unfold Graph.unlink
  rw [findEdge?_link, findEdge?_eq_none hnone, hjoins]
  refine ext_views rfl rfl ?_ ?_ (fun n => ?_) fun n s => ?_
  · show ((g.edges ++ [g.nextEdge kind a b]).eraseIdx g.edges.length).map
      (closeUp (g.nextEdge kind a b)) = g.edges
    rw [List.eraseIdx_append_of_length_le (Nat.le_refl _), Nat.sub_self, List.eraseIdx_cons_zero,
      List.append_nil]
    exact (List.map_congr_left fun e he => hg.closeUp_of_mem he kind a b).trans (List.map_id _)
  · exact (uids_unlinkAt ..).trans (uids_link ..)
  · exact (kind?_unlinkAt ..).trans (kind?_link ..)
  · refine (ports_unlinkAt (by rwa [length_link]) (by rwa [length_link]) _ n s).trans ?_
    rw [ports_link ha hb]
    cases hspot : (g.nextEdge kind a b).spot? n s with
    | none => simp
    | some x =>
      obtain ⟨x, i⟩ := x
      rw [spot?_nextEdge hspot]
      exact (List.eraseIdx_append_of_length_le (Nat.le_refl _) _).trans (by simp)

theorem InStep.joins_eq_false {a b : NodeId} {kind : EdgeKind}
    (hnil : g.ports a kind.sourceSlot = [] ∨ g.ports b kind.targetSlot = []) {e : Edge}
    (he : e ∈ g.edges) : e.joins kind a b = false := by
  rw [Bool.eq_false_iff]
  intro hjoins
  obtain ⟨rfl, rfl, rfl⟩ := Edge.joins_iff.1 hjoins
  obtain ⟨hsource, htarget⟩ := hg.ports_ne_nil he
  exact hnil.elim hsource htarget

end

/-! ## Changing what a node is -/

theorem modifyKind_modifyKind (id : NodeId) (f f' : NodeKind → NodeKind) :
    (g.modifyKind id f).modifyKind id f' = g.modifyKind id (f' ∘ f) := by
  simp only [modifyKind, modifyNode, List.modify_modify_eq]
  rfl

theorem modifyKind_comm {id id' : NodeId} (hne : id ≠ id') (f f' : NodeKind → NodeKind) :
    (g.modifyKind id f).modifyKind id' f' = (g.modifyKind id' f').modifyKind id f := by
  simp only [modifyKind, modifyNode]
  rw [List.modify_modify_ne _ _ _ hne]

theorem modifyPorts_modifyKind (id n : NodeId) (f : NodeKind → NodeKind) (s : Slot)
    (change : List NodeId → List NodeId) : (g.modifyKind id f).modifyPorts n s change =
      (g.modifyPorts n s change).modifyKind id f := by
  simp only [modifyKind, modifyPorts, modifyNode]
  by_cases hn : id = n
  · subst hn
    rw [List.modify_modify_eq, List.modify_modify_eq]
    rfl
  · rw [List.modify_modify_ne _ _ _ hn]

theorem link_modifyKind (id a b : NodeId) (f : NodeKind → NodeKind) (kind : EdgeKind) :
    (g.modifyKind id f).link kind a b = (g.link kind a b).modifyKind id f := by
  have hedge : (g.modifyKind id f).nextEdge kind a b = g.nextEdge kind a b := by
    simp only [nextEdge, ports_modifyKind]
  simp only [link, modifyPorts_modifyKind, hedge]
  rfl

theorem unlink_modifyKind (id a b : NodeId) (f : NodeKind → NodeKind) (kind : EdgeKind) :
    (g.modifyKind id f).unlink kind a b = (g.unlink kind a b).modifyKind id f := by
  have hfound : (g.modifyKind id f).findEdge? kind a b = g.findEdge? kind a b := rfl
  unfold unlink
  rw [hfound]
  cases g.findEdge? kind a b with
  | none => rfl
  | some found =>
    simp only [unlinkAt, modifyPorts_modifyKind]
    rfl

theorem InStep.modifyKind (hg : g.InStep) (id : NodeId) (f : NodeKind → NodeKind) :
    (g.modifyKind id f).InStep := by
  intro n s
  rw [ports_modifyKind]
  exact hg n s

end Graph

end Dataflow
