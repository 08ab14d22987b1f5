import Dataflow.Proofs.Net.Rewiring

/-!
# Removing an edge

What `Net.disconnect` does to a reached net (`Net.reached_disconnect`). If some edges join the two
nodes, it removes the one with the lowest target port, of which there is only one
(`Graph.IsLowest`). Every other edge keeps its kind, its ends and its place among the others, in
the list of edges and in every port list (`Graph.Without`). If there is no such edge, adding one
and removing it again comes to nothing.

Only the edges that share a port list with the removed one are renumbered. Positions close up over
the hole without changing their order (`Graph.shift_lt_shift`), as long as no other edge stood at
the hole, which is what being in step gives (`Graph.InStep.position_ne`).
-/

namespace Dataflow

namespace Graph

/-- The edge at position `i` joins the two nodes, at a lower target port than all others that do. -/
structure IsLowest (g : Graph) (kind : EdgeKind) (src dst : NodeId) (i : Nat) (gone : Edge) :
    Prop where
  getElem?_eq : g.edges[i]? = some gone
  joins : gone.joins kind src dst = true
  lowest : ∀ (j : Nat) e, j ≠ i → g.edges[j]? = some e → e.joins kind src dst = true →
    gone.dstPort < e.dstPort

/-- `g'` is `g` without its edge `gone` at position `i`. The other edges follow each other as
before; `moved` says what becomes of them. -/
structure Without (g g' : Graph) (i : Nat) (gone : Edge) (moved : Edge → Edge) : Prop where
  name : g'.name = g.name
  entry : g'.entry = g.entry
  uids : g'.nodes.map Node.uid = g.nodes.map Node.uid
  kinds : ∀ n, g'.kind? n = g.kind? n
  /-- A port list has a hole closed up where the removed edge landed in it. -/
  ports : ∀ n s, g'.ports n s =
    (gone.spot? n s).elim (g.ports n s) fun hole => (g.ports n s).eraseIdx hole.2
  edges : g'.edges = (g.edges.eraseIdx i).map moved
  ends : ∀ e, (moved e).kind = e.kind ∧ (moved e).src = e.src ∧ (moved e).dst = e.dst
  /-- Two edges that land in one port list stand in the same order there as before, and their other
  ends are where they point. -/
  order : ∀ e ∈ g.edges.eraseIdx i, ∀ e' ∈ g.edges.eraseIdx i, ∀ n s x x' k k',
    e.spot? n s = some (x, k) → e'.spot? n s = some (x', k') →
    ∃ l l', (moved e).spot? n s = some (x, l) ∧ (g'.ports n s)[l]? = some x ∧
      (moved e').spot? n s = some (x', l') ∧ (g'.ports n s)[l']? = some x' ∧ (l < l' ↔ k < k')

variable {g : Graph}

/-! ## Positions in a port list -/

/-- Closing up over a hole keeps the order of all other positions. -/
theorem shift_lt_shift {hole a b : Nat} (ha : a ≠ hole) (hb : b ≠ hole) :
    shift hole a < shift hole b ↔ a < b := by
  unfold shift
  split <;> split <;> omega

/-- No two edges stand at one position of a port list. -/
theorem InStep.position_ne (hg : g.InStep) {i j : Nat} {e e' : Edge} (hij : i ≠ j)
    (hi : g.edges[i]? = some e) (hj : g.edges[j]? = some e') {n x x' : NodeId} {s : Slot}
    {k k' : Nat} (hspot : e.spot? n s = some (x, k)) (hspot' : e'.spot? n s = some (x', k')) :
    k ≠ k' := by
  have hnd : ((g.spots n s).map Prod.snd).Nodup := by
    rw [((hg n s).map Prod.snd).nodup_iff, List.zipIdx_map_snd]
    exact List.nodup_range'
  rw [List.Nodup, List.pairwise_map, spots, List.pairwise_filterMap,
    List.pairwise_iff_getElem] at hnd
  obtain ⟨hlt, rfl⟩ := List.getElem?_eq_some_iff.1 hi
  obtain ⟨hlt', rfl⟩ := List.getElem?_eq_some_iff.1 hj
  rcases Nat.lt_or_gt_of_ne hij with hij | hij
  · exact hnd i j hlt hlt' hij _ hspot _ hspot'
  · exact (hnd j i hlt' hlt hij _ hspot' _ hspot).symm

/-! ## Which edge is removed -/

theorem pickLower_le (best : Option (Edge × Nat)) (x : Edge × Nat) :
    ∃ y, pickLower best x = some y ∧ y.1.dstPort ≤ x.1.dstPort ∧
      ∀ b, best = some b → y.1.dstPort ≤ b.1.dstPort := by
  cases best with
  | none => exact ⟨x, rfl, Nat.le_refl _, fun _ h => by cases h⟩
  | some b =>
    unfold pickLower
    by_cases hlt : x.1.dstPort < b.1.dstPort
    · exact ⟨x, if_pos hlt, Nat.le_refl _, fun _ h => Option.some.inj h ▸ Nat.le_of_lt hlt⟩
    · exact ⟨b, if_neg hlt, Nat.not_lt.1 hlt, fun _ h => Option.some.inj h ▸ Nat.le_refl _⟩

theorem foldl_pickLower_le {xs : List (Edge × Nat)} {best : Option (Edge × Nat)} {y : Edge × Nat}
    (h : xs.foldl pickLower best = some y) :
    (∀ x ∈ xs, y.1.dstPort ≤ x.1.dstPort) ∧ ∀ b, best = some b → y.1.dstPort ≤ b.1.dstPort := by
  induction xs generalizing best with
  | nil =>
    exact ⟨fun _ hx => absurd hx List.not_mem_nil,
      fun _ hb => Option.some.inj (h.symm.trans hb) ▸ Nat.le_refl _⟩
  | cons x xs ih =>
    obtain ⟨hxs, hpicked⟩ := ih h
    obtain ⟨z, hz, hzx, hzbest⟩ := pickLower_le best x
    have hyz := hpicked z hz
    exact ⟨List.forall_mem_cons.2 ⟨Nat.le_trans hyz hzx, hxs⟩,
      fun b hb => Nat.le_trans hyz (hzbest b hb)⟩

theorem findEdge?_le {kind : EdgeKind} {src dst : NodeId} {gone : Edge} {i : Nat}
    (h : g.findEdge? kind src dst = some (gone, i)) {e : Edge} (he : e ∈ g.edges)
    (hjoins : e.joins kind src dst = true) : gone.dstPort ≤ e.dstPort := by
  obtain ⟨j, hj⟩ := List.mem_iff_getElem?.1 he
  exact (foldl_pickLower_le h).1 (e, j)
    (List.mem_filter.2 ⟨List.mem_zipIdx_iff_getElem?.2 hj, hjoins⟩)

theorem InStep.isLowest (hg : g.InStep) {kind : EdgeKind} {src dst : NodeId} {gone : Edge}
    {i : Nat} (h : g.findEdge? kind src dst = some (gone, i)) : g.IsLowest kind src dst i gone := by
  obtain ⟨hi, hjoins⟩ := findEdge?_eq_some h
  refine ⟨hi, hjoins, fun j e hj he hejoins => ?_⟩
  refine Nat.lt_of_le_of_ne (findEdge?_le h (List.mem_of_getElem? he) hejoins) ?_
  -- both land in the same slot of the target
  obtain ⟨rfl, -, rfl⟩ := Edge.joins_iff.1 hjoins
  obtain ⟨hkind, -, hdst⟩ := Edge.joins_iff.1 hejoins
  have hspot := e.spot?_target
  rw [hkind, hdst] at hspot
  exact hg.position_ne hj.symm hi he gone.spot?_target hspot

/-! ## What becomes of the others -/

section
variable (hg : g.InStep)
include hg

theorem InStep.spot?_moved {gone e : Edge} {i : Nat} (hi : g.edges[i]? = some gone)
    (he : e ∈ g.edges.eraseIdx i) {n x : NodeId} {s : Slot} {k : Nat}
    (hspot : e.spot? n s = some (x, k)) :
    ∃ l, (closeUp gone e).spot? n s = some (x, l) ∧ ((g.unlinkAt gone i).ports n s)[l]? = some x ∧
      l = (gone.spot? n s).elim k fun hole => shift hole.2 k := by
  have hclosed := Edge.spot?_closeUp gone e n s
  rw [hspot] at hclosed
  exact ⟨_, hclosed, (hg.unlinkAt hi).getElem?_ports (List.mem_map_of_mem he) hclosed, rfl⟩

theorem InStep.without {gone : Edge} {i : Nat} (hi : g.edges[i]? = some gone) :
    Without g (g.unlinkAt gone i) i gone (closeUp gone) where
  name := rfl
  entry := rfl
  uids := uids_unlinkAt ..
  kinds := kind?_unlinkAt gone i
  ports n s := by
    obtain ⟨hsrc, hdst⟩ := hg.ends (List.mem_of_getElem? hi)
    exact ports_unlinkAt hsrc hdst i n s
  edges := rfl
  ends _ := ⟨rfl, rfl, rfl⟩
  order e he e' he' n s x x' k k' hspot hspot' := by
    obtain ⟨l, hmoved, hport, hl⟩ := hg.spot?_moved hi he hspot
    obtain ⟨l', hmoved', hport', hl'⟩ := hg.spot?_moved hi he' hspot'
    refine ⟨l, l', hmoved, hport, hmoved', hport', ?_⟩
    cases hgone : gone.spot? n s with
    | none => rw [hl, hl', hgone]; rfl
    | some hole =>
      obtain ⟨j, hj, hej⟩ := List.mem_eraseIdx_iff_getElem?.1 he
      obtain ⟨j', hj', hej'⟩ := List.mem_eraseIdx_iff_getElem?.1 he'
      rw [hl, hl', hgone]
      exact shift_lt_shift (hg.position_ne hj hej hi hspot hgone)
        (hg.position_ne hj' hej' hi hspot' hgone)

end

theorem hasEdge_eq_true {kind : EdgeKind} {src dst : NodeId} :
    g.hasEdge kind src dst = true ↔ ∃ e ∈ g.edges, e.joins kind src dst = true := List.any_eq_true

theorem hasEdge_eq_false {kind : EdgeKind} {src dst : NodeId} :
    g.hasEdge kind src dst = false ↔ ∀ e ∈ g.edges, e.joins kind src dst = false := by
  simp only [hasEdge, List.any_eq_false, Bool.not_eq_true]

end Graph

namespace Net

/-- **Removing an edge.** In a reached net, `disconnect` removes exactly one edge between two nodes
if there is one, that with the lowest target port, and leaves the others in their order. If there
is none, it changes nothing, and it takes back what `connect` adds. -/
theorem reached_disconnect {net : Net} (h : net.Reached) (kind : EdgeKind) (src dst : NodeId) :
    (net.hasEdge kind src dst = true → ∃ net' i gone moved,
      disconnect kind src dst net = .ok true net' ∧ net'.uids = net.uids ∧
      net.IsLowest kind src dst i gone ∧ Graph.Without net.toGraph net'.toGraph i gone moved) ∧
    (net.hasEdge kind src dst = false →
      disconnect kind src dst net = .ok false net ∧
      ∀ net', connect kind src dst net = .ok () net' →
        disconnect kind src dst net' = .ok true net) := by
  have hstep : net.InStep := h.coherent.inStep
  constructor
  · intro hedge
    obtain ⟨e, he, hjoins⟩ := Graph.hasEdge_eq_true.1 hedge
    obtain ⟨⟨gone, i⟩, hfound⟩ := Option.isSome_iff_exists.1 (Graph.findEdge?_isSome he hjoins)
    have hlowest := hstep.isLowest hfound
    refine ⟨net.withGraph (net.unlinkAt gone i), i, gone, Graph.closeUp gone, ?_, rfl, hlowest,
      hstep.without hlowest.getElem?_eq⟩
    simp only [disconnect, Graph.unlink, hfound, Option.isSome_some]
    rfl
  · intro hedge
    have hnone := Graph.hasEdge_eq_false.1 hedge
    constructor
    · simp only [disconnect, Graph.unlink, Graph.findEdge?_eq_none hnone, Option.isSome_none]
    · intro net' hrun
      obtain ⟨hdefect, rfl⟩ := (connect_settles kind src dst).of_eq_ok hrun
      obtain ⟨⟨source, target, hcarries⟩, -⟩ := Graph.edgeDefect?_eq_none_iff.1 hdefect
      have hfound : ((net.link kind src dst).findEdge? kind src dst).isSome = true :=
        Graph.findEdge?_isSome (List.mem_append_right _ (List.mem_singleton_self _))
          (Edge.joins_iff.2 ⟨rfl, rfl, rfl⟩)
      have hundone := hstep.unlink_link_self (Graph.lt_of_kind? hcarries.kind_src)
        (Graph.lt_of_kind? hcarries.kind_dst) hnone
      show EStateM.Result.ok ((net.link kind src dst).findEdge? kind src dst).isSome
        (net.withGraph ((net.link kind src dst).unlink kind src dst)) = .ok true net
      rw [hfound, hundone]
      rfl

/-- A net in which an addition reads one argument twice and itself in between, beside a constant
that nothing reads. -/
def doubling : Net :=
  [.addBlock 0 .plain, .addInstr 1 (.binary .add) (some 0), .addArgument 0,
    .addConst (.ofWord .w32 1), .connect .data 3 2, .connect .data 2 2,
    .connect .data 3 2].foldl after
    { name := "doubling", nodes := [{ uid := 0, kind := .split [] }], edges := [], entry := 0
      uids := ⟨1⟩ }

theorem reached_disconnect_doubling :
    doubling.ports 2 .dataIn = [3, 2, 3] ∧
    (∃ net' i gone moved, disconnect .data 3 2 doubling = .ok true net' ∧
      doubling.IsLowest .data 3 2 i gone ∧
      Graph.Without doubling.toGraph net'.toGraph i gone moved ∧ net'.ports 2 .dataIn = [2, 3]) ∧
    ∃ net', connect .data 4 2 doubling = .ok () net' ∧ net'.ports 2 .dataIn = [3, 2, 3, 4] ∧
      disconnect .data 4 2 net' = .ok true doubling := by
  have hreached : doubling.Reached := .steps (@Reached.start "doubling" ⟨0⟩ _ rfl) _
  refine ⟨by decide +kernel, ?_, ?_⟩
  · obtain ⟨net', i, gone, moved, hrun, -, hlowest, hwithout⟩ :=
      (reached_disconnect hreached .data 3 2).1 (by decide +kernel)
    refine ⟨net', i, gone, moved, hrun, hlowest, hwithout, ?_⟩
    injection hrun with _ hnet'
    rw [← hnet']
    decide +kernel
  · have hundone := ((reached_disconnect hreached .data 4 2).2 (by decide +kernel)).2
    exact ⟨_, rfl, by decide +kernel, hundone _ rfl⟩

end Net

end Dataflow
