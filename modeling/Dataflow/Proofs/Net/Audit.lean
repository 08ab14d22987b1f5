import Dataflow.Proofs.Net.Drawing
import Dataflow.Proofs.Net.InStep

/-!
# The audit of a drawing

Edges and port lists of a drawing agree, since both come from its wires (`Fits.checkPorts_eq`). So
an audit only has to look at the nodes, one after the other (`Fits.audit_eq`).
-/

namespace Dataflow

namespace Graph

/-- A port list holds the other ends of the edges that land in its slot, in order. -/
structure Agrees (g : Graph) : Prop where
  source : ∀ n s, s.isSourceSide = true →
    g.ports n s = (g.edges.filter fun e => e.src = n ∧ e.kind.sourceSlot = s).map Edge.dst
  target : ∀ n s, s.isSourceSide = false →
    g.ports n s = (g.edges.filter fun e => e.dst = n ∧ e.kind.targetSlot = s).map Edge.src

theorem demand_of_not {c : Prop} [Decidable c] {r : Refusal} (h : ¬ c) :
    demand c r = .error (.refused r) := if_neg h

end Graph

namespace Frame

variable {α : Type} [DecidableEq α] {F : Frame α} {d : Drawing α}

theorem Fits.node_eq (hd : F.Fits d) {l : α} (hl : l ∈ d.labels) :
    (F.net d).node (F.id l) = .ok (F.node d l) := lookup_eq_ok.2 (hd.getElem?_nodes hl)

theorem node_ports (l : α) (s : Slot) :
    (F.node d l).ports.get s = (portsAt d.wires l s).map F.id := Ports.get_ofFn ..

theorem mem_edges {ws : List (Wire α)} {e : Edge} : e ∈ F.edges ws ↔
    ∃ (before after : List (Wire α)) (w : Wire α), ws = before ++ w :: after ∧ e = F.edge before w := by
  simp only [edges, List.mem_mapIdx]
  constructor
  · rintro ⟨i, hi, rfl⟩
    exact ⟨ws.take i, ws.drop (i + 1), ws[i], by simp, rfl⟩
  · rintro ⟨before, after, w, rfl, rfl⟩
    exact ⟨before.length, by simp, by simp⟩

theorem getElem?_portsAt {before after : List (Wire α)} {w : Wire α} {l x : α} {s : Slot}
    (h : w.across l s = some x) :
    (portsAt (before ++ w :: after) l s)[(portsAt before l s).length]? = some x := by
  rw [portsAt_append, List.getElem?_append_right (Nat.le_refl _), Nat.sub_self]
  simp [portsAt, h]

theorem Fits.checkEdge_eq (hd : F.Fits d) {e : Edge} (he : e ∈ F.edges d.wires) :
    (F.net d).checkEdge e = .ok () := by
  obtain ⟨before, after, w, hw, rfl⟩ := mem_edges.1 he
  have hmem : w ∈ d.wires := hw ▸ List.mem_append_right _ List.mem_cons_self
  simp only [Graph.checkEdge, edge, hd.node_eq (hd.src_mem w hmem), hd.node_eq (hd.dst_mem w hmem),
    orFault_ok, ok_bind, Graph.demand_eq_ok, node_ports, List.getElem?_map]
  rw [hw, getElem?_portsAt (across_source w), getElem?_portsAt (across_target w)]
  exact ⟨rfl, rfl⟩

theorem length_portsAt (ws : List (Wire α)) (l : α) (s : Slot) : (portsAt ws l s).length =
    ws.countP (fun w => w.src = l ∧ w.kind.sourceSlot = s) +
      ws.countP (fun w => w.dst = l ∧ w.kind.targetSlot = s) := by
  induction ws with
  | nil => rfl
  | cons w ws ih =>
    have hne := w.kind.sourceSlot_ne_targetSlot w.kind
    have hcons : portsAt (w :: ws) l s = (w.across l s).toList ++ portsAt ws l s := by
      cases h : w.across l s <;> simp [portsAt, h]
    rw [hcons, List.length_append, ih, List.countP_cons, List.countP_cons, Wire.across]
    by_cases h₁ : w.src = l ∧ w.kind.sourceSlot = s
    · have h₂ : ¬ (w.dst = l ∧ w.kind.targetSlot = s) := fun h => hne (h₁.2.trans h.2.symm)
      simp [h₁, h₂]
      omega
    · by_cases h₂ : w.dst = l ∧ w.kind.targetSlot = s
      · simp [h₁, h₂]
        omega
      · simp [h₁, h₂]

theorem countP_edges {ws : List (Wire α)} {p : Edge → Bool} {q : Wire α → Bool}
    (h : ∀ w ∈ ws, ∀ before, p (F.edge before w) = q w) : (F.edges ws).countP p = ws.countP q := by
  rw [edges, List.mapIdx_eq_zipIdx_map, List.countP_map]
  conv_rhs => rw [← List.zipIdx_map_fst 0 ws, List.countP_map]
  refine List.countP_congr fun w hw => ?_
  simp only [Function.comp_apply, h w.1 (List.fst_mem_of_mem_zipIdx hw)]

/-- Edges join what wires join. -/
theorem Fits.hasEdge_iff (hd : F.Fits d) {kind : EdgeKind} {l l' : α} (hl : l ∈ d.labels)
    (hl' : l' ∈ d.labels) : (F.net d).hasEdge kind (F.id l) (F.id l') = true ↔
      ⟨kind, l, l'⟩ ∈ d.wires := by
  simp only [Graph.hasEdge, List.any_eq_true, Edge.joins, Bool.and_eq_true, decide_eq_true_eq]
  constructor
  · rintro ⟨e, he, ⟨hkind, hsrc⟩, hdst⟩
    obtain ⟨before, after, w, hw, rfl⟩ := mem_edges.1 he
    have hmem : w ∈ d.wires := hw ▸ List.mem_append_right _ List.mem_cons_self
    have hsrc := (hd.id_inj (hd.src_mem w hmem) hl).1 hsrc
    have hdst := (hd.id_inj (hd.dst_mem w hmem) hl').1 hdst
    rw [← show w.kind = kind from hkind, ← hsrc, ← hdst]
    exact hmem
  · intro hmem
    obtain ⟨before, after, hw⟩ := List.append_of_mem hmem
    exact ⟨_, mem_edges.2 ⟨before, after, _, hw, rfl⟩, ⟨rfl, rfl⟩, rfl⟩

/-- The edges with a property are those of the wires with a property. -/
theorem map_filter_edges {β : Type} {ws : List (Wire α)} {p : Edge → Bool} {q : Wire α → Bool}
    {k : Edge → β} {k' : Wire α → β}
    (h : ∀ w ∈ ws, ∀ before, p (F.edge before w) = q w ∧ k (F.edge before w) = k' w) :
    ((F.edges ws).filter p).map k = (ws.filter q).map k' := by
  rw [edges, List.mapIdx_eq_zipIdx_map, List.filter_map, List.map_map]
  conv_rhs => rw [← List.zipIdx_map_fst 0 ws, List.filter_map, List.map_map]
  have hfst : ∀ w ∈ ws.zipIdx, w.1 ∈ ws := fun w hw => List.fst_mem_of_mem_zipIdx hw
  refine (congrArg _ (List.filter_congr fun w hw => (h w.1 (hfst w hw) _).1)).trans ?_
  exact List.map_congr_left fun w hw => (h w.1 (hfst w (List.mem_of_mem_filter hw)) _).2

theorem portsAt_source (ws : List (Wire α)) (l : α) {s : Slot} (hs : s.isSourceSide = true) :
    portsAt ws l s = (ws.filter fun w => w.src = l ∧ w.kind.sourceSlot = s).map Wire.dst := by
  induction ws with
  | nil => rfl
  | cons w ws ih =>
    have hne : w.kind.targetSlot ≠ s := by
      rintro rfl
      rw [EdgeKind.isSourceSide_targetSlot] at hs
      cases hs
    by_cases h : w.src = l ∧ w.kind.sourceSlot = s <;> simp_all [portsAt, Wire.across]

theorem portsAt_target (ws : List (Wire α)) (l : α) {s : Slot} (hs : s.isSourceSide = false) :
    portsAt ws l s = (ws.filter fun w => w.dst = l ∧ w.kind.targetSlot = s).map Wire.src := by
  induction ws with
  | nil => rfl
  | cons w ws ih =>
    have hne : w.kind.sourceSlot ≠ s := by
      rintro rfl
      rw [EdgeKind.isSourceSide_sourceSlot] at hs
      cases hs
    by_cases h : w.dst = l ∧ w.kind.targetSlot = s <;> simp_all [portsAt, Wire.across]

/-- A node that is not drawn has no ports. -/
theorem ports_eq_nil {n : NodeId} (hn : d.labels.length ≤ n) (s : Slot) :
    (F.net d).ports n s = [] := by
  rw [Graph.ports, net, List.getElem?_eq_none (by simpa using hn)]

omit [DecidableEq α] in
theorem Fits.exists_label (hd : F.Fits d) {n : NodeId} (hn : n < d.labels.length) :
    ∃ l ∈ d.labels, F.id l = n :=
  ⟨_, List.getElem_mem hn, hd.id_eq (List.getElem?_eq_getElem hn)⟩

omit [DecidableEq α] in
theorem Fits.id_lt (hd : F.Fits d) {l : α} (hl : l ∈ d.labels) : F.id l < d.labels.length :=
  (List.getElem?_eq_some_iff.1 (hd.getElem?_id hl)).1

theorem Fits.agrees (hd : F.Fits d) : (F.net d).Agrees where
  source n s hs := by
    rcases Nat.lt_or_ge n d.labels.length with hn | hn
    · obtain ⟨l, hl, rfl⟩ := hd.exists_label hn
      rw [hd.ports_eq hl, portsAt_source _ _ hs, List.map_map]
      refine (map_filter_edges fun w hw before => ⟨?_, rfl⟩).symm
      simp only [edge, hd.id_inj (hd.src_mem w hw) hl]
    · rw [ports_eq_nil hn, List.filter_eq_nil_iff.2, List.map_nil]
      intro e he
      obtain ⟨before, after, w, hw, rfl⟩ := mem_edges.1 he
      have hlt := hd.id_lt (hd.src_mem w (hw ▸ List.mem_append_right _ List.mem_cons_self))
      simp [edge, Nat.ne_of_lt (Nat.lt_of_lt_of_le hlt hn)]
  target n s hs := by
    rcases Nat.lt_or_ge n d.labels.length with hn | hn
    · obtain ⟨l, hl, rfl⟩ := hd.exists_label hn
      rw [hd.ports_eq hl, portsAt_target _ _ hs, List.map_map]
      refine (map_filter_edges fun w hw before => ⟨?_, rfl⟩).symm
      simp only [edge, hd.id_inj (hd.dst_mem w hw) hl]
    · rw [ports_eq_nil hn, List.filter_eq_nil_iff.2, List.map_nil]
      intro e he
      obtain ⟨before, after, w, hw, rfl⟩ := mem_edges.1 he
      have hlt := hd.id_lt (hd.dst_mem w (hw ▸ List.mem_append_right _ List.mem_cons_self))
      simp [edge, Nat.ne_of_lt (Nat.lt_of_lt_of_le hlt hn)]

theorem Fits.checkCounts_eq (hd : F.Fits d) {l : α} (hl : l ∈ d.labels) :
    (F.net d).checkCounts (F.node d l, F.id l) = .ok () := by
  refine forM_eq_ok.2 fun s _ => ?_
  rw [Graph.demand_eq_ok, node_ports, List.length_map, length_portsAt, Graph.landings,
    List.countP_filter, List.countP_filter]
  congr 1
  · refine (countP_edges fun w hw before => ?_).symm
    simp only [edge, hd.id_inj (hd.src_mem w hw) hl, hd.id_inj (hd.dst_mem w hw) hl]
    by_cases h : w.src = l <;> simp [h]
  · refine (countP_edges fun w hw before => ?_).symm
    simp only [edge, hd.id_inj (hd.src_mem w hw) hl, hd.id_inj (hd.dst_mem w hw) hl]
    by_cases h : w.dst = l <;> simp [h]

theorem Fits.zipIdx_nodes (hd : F.Fits d) :
    (F.net d).nodes.zipIdx = d.labels.map fun l => (F.node d l, F.id l) := by
  refine List.ext_getElem? fun i => ?_
  rw [List.getElem?_zipIdx, net, List.getElem?_map, List.getElem?_map, Option.map_map]
  cases h : d.labels[i]? with
  | none => rfl
  | some l => simp [hd.id_eq h]

theorem Fits.checkPorts_eq (hd : F.Fits d) : (F.net d).checkPorts = .ok () := by
  rw [Graph.checkPorts, seq_eq_ok, forM_eq_ok, forM_eq_ok, hd.zipIdx_nodes]
  refine ⟨fun e he => hd.checkEdge_eq he, fun n hn => ?_⟩
  obtain ⟨l, hl, rfl⟩ := List.mem_map.1 hn
  exact hd.checkCounts_eq hl

/-- Checks a label as a node of the graph. -/
def checkLabel (F : Frame α) (d : Drawing α) (l : α) : Except Failure Unit :=
  (F.net d).checkNode (F.node d l, F.id l)

theorem forM_map {β γ : Type} (f : β → γ) (xs : List β) (step : γ → Except Failure Unit) :
    (xs.map f).forM step = xs.forM fun x => step (f x) := by
  induction xs with
  | nil => rfl
  | cons x xs ih => rw [List.map_cons, forM_cons, forM_cons, ih]

theorem Fits.audit_eq (hd : F.Fits d) :
    (F.net d).audit = d.labels.forM (F.checkLabel d) := by
  rw [Graph.audit, hd.checkPorts_eq, ok_bind, hd.zipIdx_nodes, forM_map]
  rfl

end Frame

end Dataflow
