import Dataflow.Net.Audit
import Dataflow.Proofs.Outcome
import Mathlib.Logic.Function.Basic
import Mathlib.Data.List.Nodup

/-!
# Drawings

A `Drawing` is a graph under construction, seen through labels: the labels of its nodes in the order
in which they were added, what each of them is, and the wires between them in the order in which
they were connected. The port lists and the numbers of the edges follow from the wires, so
`Frame.net` can rebuild the whole net from a drawing. A `Frame` fixes the name, the first number,
and which position each label will have.

`Frame.Draws` says that an operation leads from one drawing to another one, unless it runs out of
numbers on the way. Operations on nets become operations on drawings this way: a node is added at the
end (`draws_push`), a node changes its kind (`draws_setKind`), a wire is added at the end
(`draws_connect`).
-/

namespace Dataflow

namespace Ports

/-- The ports with given lists. -/
def ofFn (lists : Slot → List NodeId) : Ports where
  dataIn := lists .dataIn
  dataOut := lists .dataOut
  ctrlIn := lists .ctrlIn
  ctrlOut := lists .ctrlOut
  depIn := lists .depIn
  depOut := lists .depOut
  memReq := lists .memReq
  memResp := lists .memResp
  readReq := lists .readReq
  readResp := lists .readResp
  writeReq := lists .writeReq
  writeResp := lists .writeResp

@[simp] theorem get_ofFn (lists : Slot → List NodeId) (s : Slot) : (ofFn lists).get s = lists s := by
  cases s <;> rfl

theorem get_modify (p : Ports) (s t : Slot) (change : List NodeId → List NodeId) :
    (p.modify s change).get t = if s = t then change (p.get t) else p.get t := by
  split
  · rename_i h
    rw [h, get_modify_self]
  · rename_i h
    exact get_modify_of_ne p change h

end Ports

/-! ## Wires -/

/-- An edge between two labels. -/
structure Wire (α : Type) where
  kind : EdgeKind
  src : α
  dst : α
deriving DecidableEq

section
variable {α : Type} [DecidableEq α]

/-- What a wire leads to, seen from a slot of a label. -/
def Wire.across (w : Wire α) (l : α) (s : Slot) : Option α :=
  if w.src = l ∧ w.kind.sourceSlot = s then some w.dst
  else if w.dst = l ∧ w.kind.targetSlot = s then some w.src
  else none

/-- The labels in a slot of a label. -/
def portsAt (ws : List (Wire α)) (l : α) (s : Slot) : List α := ws.filterMap (·.across l s)

theorem portsAt_append (ws ws' : List (Wire α)) (l : α) (s : Slot) :
    portsAt (ws ++ ws') l s = portsAt ws l s ++ portsAt ws' l s := List.filterMap_append

theorem portsAt_concat (ws : List (Wire α)) (w : Wire α) (l : α) (s : Slot) :
    portsAt (ws ++ [w]) l s = portsAt ws l s ++ (w.across l s).toList := by
  rw [portsAt_append]
  cases h : w.across l s <;> simp [portsAt, h]

theorem across_source (w : Wire α) : w.across w.src w.kind.sourceSlot = some w.dst :=
  if_pos ⟨rfl, rfl⟩

theorem across_target (w : Wire α) : w.across w.dst w.kind.targetSlot = some w.src := by
  rw [Wire.across, if_neg fun h => w.kind.sourceSlot_ne_targetSlot w.kind h.2, if_pos ⟨rfl, rfl⟩]

theorem across_eq_some {w : Wire α} {l x : α} {s : Slot} : w.across l s = some x ↔
    w.src = l ∧ w.kind.sourceSlot = s ∧ w.dst = x ∨ w.dst = l ∧ w.kind.targetSlot = s ∧ w.src = x := by
  unfold Wire.across
  split
  · rename_i h
    obtain ⟨rfl, rfl⟩ := h
    simp [Ne.symm (w.kind.sourceSlot_ne_targetSlot w.kind)]
  · rename_i h
    split
    · rename_i h'
      obtain ⟨rfl, rfl⟩ := h'
      simp [w.kind.sourceSlot_ne_targetSlot w.kind]
    · rename_i h'
      simp only [not_and] at h h'
      simp
      grind

theorem mem_portsAt {ws : List (Wire α)} {l x : α} {s : Slot} : x ∈ portsAt ws l s ↔
    ∃ w ∈ ws, w.src = l ∧ w.kind.sourceSlot = s ∧ w.dst = x ∨
      w.dst = l ∧ w.kind.targetSlot = s ∧ w.src = x := by
  simp only [portsAt, List.mem_filterMap, across_eq_some]

theorem mem_portsAt_target {ws : List (Wire α)} {l x : α} {s : Slot} (hs : s.isSourceSide = false) :
    x ∈ portsAt ws l s ↔ ∃ w ∈ ws, w.dst = l ∧ w.kind.targetSlot = s ∧ w.src = x := by
  rw [mem_portsAt]
  refine exists_congr fun w => and_congr_right fun _ => or_iff_right ?_
  rintro ⟨-, rfl, -⟩
  rw [EdgeKind.isSourceSide_sourceSlot] at hs
  cases hs

/-- Wires of kinds that do not land in a slot add nothing to it. -/
theorem portsAt_eq_nil {ws : List (Wire α)} {l : α} {s : Slot}
    (h : ∀ w ∈ ws, (w.src = l → w.kind.sourceSlot ≠ s) ∧ (w.dst = l → w.kind.targetSlot ≠ s)) :
    portsAt ws l s = [] := by
  refine List.eq_nil_iff_forall_not_mem.2 fun x hx => ?_
  obtain ⟨w, hw, ⟨hl, hs, -⟩ | ⟨hl, hs, -⟩⟩ := mem_portsAt.1 hx
  · exact (h w hw).1 hl hs
  · exact (h w hw).2 hl hs

end

theorem Node.ext {m n : Node} (hu : m.uid = n.uid) (hk : m.kind = n.kind)
    (hp : m.ports = n.ports) : m = n := by
  cases m
  cases n
  simp_all

/-! ## Drawings -/

/-- A graph under construction, by labels. -/
structure Drawing (α : Type) where
  labels : List α
  kind : α → NodeKind
  wires : List (Wire α)

namespace Drawing

variable {α : Type}

/-- The drawing with another node. -/
def add (d : Drawing α) (l : α) : Drawing α := { d with labels := d.labels ++ [l] }

/-- The drawing with another wire. -/
def wire (d : Drawing α) (kind : EdgeKind) (a b : α) : Drawing α :=
  { d with wires := d.wires ++ [⟨kind, a, b⟩] }

/-- The drawing with a node turned into something else. -/
def set [DecidableEq α] (d : Drawing α) (l : α) (kind : NodeKind) : Drawing α :=
  { d with kind := Function.update d.kind l kind }

@[simp] theorem add_labels (d : Drawing α) (l : α) : (d.add l).labels = d.labels ++ [l] := rfl

@[simp] theorem add_kind (d : Drawing α) (l : α) : (d.add l).kind = d.kind := rfl

@[simp] theorem add_wires (d : Drawing α) (l : α) : (d.add l).wires = d.wires := rfl

@[simp] theorem wire_labels (d : Drawing α) (kind : EdgeKind) (a b : α) :
    (d.wire kind a b).labels = d.labels := rfl

@[simp] theorem wire_kind (d : Drawing α) (kind : EdgeKind) (a b : α) :
    (d.wire kind a b).kind = d.kind := rfl

@[simp] theorem wire_wires (d : Drawing α) (kind : EdgeKind) (a b : α) :
    (d.wire kind a b).wires = d.wires ++ [⟨kind, a, b⟩] := rfl

@[simp] theorem set_labels [DecidableEq α] (d : Drawing α) (l : α) (kind : NodeKind) :
    (d.set l kind).labels = d.labels := rfl

@[simp] theorem set_kind [DecidableEq α] (d : Drawing α) (l : α) (kind : NodeKind) :
    (d.set l kind).kind = Function.update d.kind l kind := rfl

@[simp] theorem set_wires [DecidableEq α] (d : Drawing α) (l : α) (kind : NodeKind) :
    (d.set l kind).wires = d.wires := rfl

end Drawing

/-- What stays fixed while a graph is drawn. -/
structure Frame (α : Type) where
  name : String
  start : Uid
  /-- The position of a label in the finished graph. -/
  id : α → NodeId

namespace Frame

variable {α : Type} [DecidableEq α] (F : Frame α)

/-- The edge that a wire becomes behind others. -/
def edge (before : List (Wire α)) (w : Wire α) : Edge where
  kind := w.kind
  src := F.id w.src
  dst := F.id w.dst
  srcPort := (portsAt before w.src w.kind.sourceSlot).length
  dstPort := (portsAt before w.dst w.kind.targetSlot).length

def edges (ws : List (Wire α)) : List Edge := ws.mapIdx fun i w => F.edge (ws.take i) w

def node (d : Drawing α) (l : α) : Node where
  uid := F.start + F.id l
  kind := d.kind l
  ports := .ofFn fun s => (portsAt d.wires l s).map F.id

/-- The net of a drawing. -/
def net (d : Drawing α) : Net where
  name := F.name
  nodes := d.labels.map (F.node d)
  edges := F.edges d.wires
  entry := 0
  uids := ⟨F.start + d.labels.length⟩

/-- Labels stand where they will be found, and wires join labels that are there. -/
structure Fits (d : Drawing α) : Prop where
  id_eq : ∀ {i : Nat} {l : α}, d.labels[i]? = some l → F.id l = i
  src_mem : ∀ w ∈ d.wires, w.src ∈ d.labels
  dst_mem : ∀ w ∈ d.wires, w.dst ∈ d.labels

variable {F} {d : Drawing α}

omit [DecidableEq α] in
theorem Fits.getElem?_id (hd : F.Fits d) {l : α} (hl : l ∈ d.labels) :
    d.labels[F.id l]? = some l := by
  obtain ⟨i, hi⟩ := List.mem_iff_getElem?.1 hl
  rwa [hd.id_eq hi]

omit [DecidableEq α] in
theorem Fits.id_inj (hd : F.Fits d) {a b : α} (ha : a ∈ d.labels) (hb : b ∈ d.labels) :
    F.id a = F.id b ↔ a = b := by
  refine ⟨fun h => ?_, congrArg F.id⟩
  have h' := hd.getElem?_id ha
  rw [h, hd.getElem?_id hb, Option.some.injEq] at h'
  exact h'.symm

omit [DecidableEq α] in
theorem Fits.nodup (hd : F.Fits d) : d.labels.Nodup := by
  refine List.nodup_iff_injective_getElem.2 fun i j hij => Fin.ext ?_
  rw [← hd.id_eq (List.getElem?_eq_getElem i.2), ← hd.id_eq (List.getElem?_eq_getElem j.2)]
  exact congrArg F.id hij

theorem Fits.getElem?_nodes (hd : F.Fits d) {l : α} (hl : l ∈ d.labels) :
    (F.net d).nodes[F.id l]? = some (F.node d l) := by
  rw [net, List.getElem?_map, hd.getElem?_id hl, Option.map_some]

theorem Fits.modify_map (hd : F.Fits d) {l : α} (hl : l ∈ d.labels) (node : α → Node)
    (change : Node → Node) : (d.labels.map node).modify (F.id l) change =
      d.labels.map fun x => if x = l then change (node x) else node x := by
  refine List.ext_getElem? fun i => ?_
  rw [List.getElem?_modify, List.getElem?_map, List.getElem?_map]
  cases hx : d.labels[i]? with
  | none => simp
  | some x =>
    have hi := hd.id_eq hx
    have hx := List.mem_of_getElem? hx
    by_cases hxl : x = l
    · subst hxl
      simp [hi]
    · have : ¬ F.id l = i := fun h => hxl ((hd.id_inj hx hl).1 (hi.trans h.symm))
      simp [this, hxl]

theorem Fits.ports_eq (hd : F.Fits d) {l : α} (hl : l ∈ d.labels) (s : Slot) :
    (F.net d).ports (F.id l) s = (portsAt d.wires l s).map F.id := by
  rw [Graph.ports, hd.getElem?_nodes hl]
  simp [node]

/-- A net only depends on what its labels are. -/
theorem net_congr {d' : Drawing α} (hl : d.labels = d'.labels) (hw : d.wires = d'.wires)
    (hk : ∀ l ∈ d.labels, d.kind l = d'.kind l) : F.net d = F.net d' := by
  unfold net
  rw [← hl, ← hw]
  congr 1
  refine congrArg₂ (fun nodes edges => Graph.mk F.name nodes edges 0) ?_ rfl
  refine List.map_congr_left fun l hl => ?_
  simp only [node, hk l hl, hw]

/-! ## Changing a drawing -/

omit [DecidableEq α] in
theorem Fits.add (hd : F.Fits d) {l : α} (hl : F.id l = d.labels.length) : F.Fits (d.add l) where
  id_eq := by
    intro i x hx
    rw [Drawing.add_labels, List.getElem?_append] at hx
    split at hx
    · exact hd.id_eq hx
    · rw [List.getElem?_singleton] at hx
      split at hx
      · cases hx
        exact hl.trans (show d.labels.length = i by omega)
      · cases hx
  src_mem w hw := List.mem_append_left _ (hd.src_mem w hw)
  dst_mem w hw := List.mem_append_left _ (hd.dst_mem w hw)

omit [DecidableEq α] in
theorem Fits.wire (hd : F.Fits d) {kind : EdgeKind} {a b : α} (ha : a ∈ d.labels)
    (hb : b ∈ d.labels) : F.Fits (d.wire kind a b) where
  id_eq := hd.id_eq
  src_mem := by
    intro w hw
    rcases List.mem_append.1 hw with hw | hw
    · exact hd.src_mem w hw
    · rwa [List.mem_singleton.1 hw]
  dst_mem := by
    intro w hw
    rcases List.mem_append.1 hw with hw | hw
    · exact hd.dst_mem w hw
    · rwa [List.mem_singleton.1 hw]

theorem Fits.set (hd : F.Fits d) (l : α) (kind : NodeKind) : F.Fits (d.set l kind) :=
  ⟨hd.id_eq, hd.src_mem, hd.dst_mem⟩

omit [DecidableEq α] in
theorem Fits.not_mem (hd : F.Fits d) {l : α} (hl : F.id l = d.labels.length) : l ∉ d.labels := by
  intro h
  have := (List.getElem?_eq_some_iff.1 (hd.getElem?_id h)).1
  exact Nat.lt_irrefl _ (hl ▸ this)

/-- A new label has no ports yet. -/
theorem Fits.portsAt_eq_nil (hd : F.Fits d) {l : α} (hl : l ∉ d.labels) (s : Slot) :
    portsAt d.wires l s = [] := by
  rw [List.eq_nil_iff_forall_not_mem]
  intro x hx
  obtain ⟨w, hw, ⟨rfl, -⟩ | ⟨rfl, -⟩⟩ := mem_portsAt.1 hx
  · exact hl (hd.src_mem w hw)
  · exact hl (hd.dst_mem w hw)

theorem Fits.net_add (hd : F.Fits d) {l : α} (hl : F.id l = d.labels.length) :
    F.net (d.add l) =
      { F.net d with
        nodes := (F.net d).nodes ++ [{ uid := (F.net d).uids.next, kind := d.kind l }]
        uids := ⟨(F.net d).uids.next + 1⟩ } := by
  have hports : Ports.ofFn (fun s => (portsAt d.wires l s).map F.id) = {} := by
    refine Ports.ext_get fun s => ?_
    rw [Ports.get_ofFn, hd.portsAt_eq_nil (hd.not_mem hl), List.map_nil]
    cases s <;> rfl
  have hnode : F.node d l = { uid := F.start + d.labels.length, kind := d.kind l } := by
    rw [node, hports, hl]
  have hold : F.node (d.add l) = F.node d := rfl
  simp only [net, hold, Drawing.add_labels, Drawing.add_wires, List.map_append, List.map_cons,
    List.map_nil, hnode, List.length_append, List.length_singleton, ← Nat.add_assoc]

theorem edges_append (ws : List (Wire α)) (w : Wire α) :
    F.edges (ws ++ [w]) = F.edges ws ++ [F.edge ws w] := by
  unfold edges
  rw [List.mapIdx_concat, List.take_left]
  refine congrArg (· ++ _) (List.ext_getElem? fun i => ?_)
  simp only [List.getElem?_mapIdx]
  cases hi : ws[i]? with
  | none => rfl
  | some x =>
    rw [List.take_append_of_le_length (Nat.le_of_lt (List.getElem?_eq_some_iff.1 hi).1)]

theorem Fits.net_wire (hd : F.Fits d) {kind : EdgeKind} {a b : α} (ha : a ∈ d.labels)
    (hb : b ∈ d.labels) : F.net (d.wire kind a b) =
      { F.net d with toGraph := (F.net d).link kind (F.id a) (F.id b) } := by
  have hnodes : d.labels.map (F.node (d.wire kind a b)) =
      ((d.labels.map (F.node d)).modify (F.id a) fun n =>
        { n with ports := n.ports.modify kind.sourceSlot (· ++ [F.id b]) }).modify (F.id b) fun n =>
          { n with ports := n.ports.modify kind.targetSlot (· ++ [F.id a]) } := by
    rw [hd.modify_map ha, hd.modify_map hb]
    refine List.map_congr_left fun x _ => ?_
    have hports : ∀ s, (F.node (d.wire kind a b) x).ports.get s = (F.node d x).ports.get s ++
        (((⟨kind, a, b⟩ : Wire α).across x s).map F.id).toList := by
      intro s
      simp only [node, Ports.get_ofFn, Drawing.wire_wires, portsAt_concat, List.map_append]
      cases (⟨kind, a, b⟩ : Wire α).across x s <;> rfl
    have hne := kind.sourceSlot_ne_targetSlot kind
    refine Node.ext ?_ ?_ (Ports.ext_get fun s => ?_)
    · split <;> split <;> rfl
    · split <;> split <;> rfl
    · rw [hports, Wire.across]
      -- the two ends may be one node, but never one slot
      have hslot : kind.sourceSlot = s ∧ kind.targetSlot ≠ s ∨
          kind.sourceSlot ≠ s ∧ kind.targetSlot = s ∨
          kind.sourceSlot ≠ s ∧ kind.targetSlot ≠ s := by grind
      rcases eq_or_ne x a with rfl | hxa <;> rcases eq_or_ne x b with rfl | hxb <;>
        rcases hslot with ⟨hs, ht⟩ | ⟨hs, ht⟩ | ⟨hs, ht⟩ <;>
        simp [*, Ports.get_modify, Ne.symm]
  have hedge : (F.net d).nextEdge kind (F.id a) (F.id b) = F.edge d.wires ⟨kind, a, b⟩ := by
    simp only [Graph.nextEdge, edge, hd.ports_eq ha, hd.ports_eq hb, List.length_map]
  simp only [Graph.link, Graph.modifyPorts, Graph.modifyNode, hedge]
  simp only [net, Drawing.wire_labels, Drawing.wire_wires, edges_append, hnodes]

theorem Fits.net_set (hd : F.Fits d) {l : α} (hl : l ∈ d.labels) (change : NodeKind → NodeKind) :
    F.net (d.set l (change (d.kind l))) =
      { F.net d with toGraph := (F.net d).modifyKind (F.id l) change } := by
  have hnodes : d.labels.map (F.node (d.set l (change (d.kind l)))) =
      (d.labels.map (F.node d)).modify (F.id l) fun n => { n with kind := change n.kind } := by
    rw [hd.modify_map hl]
    refine List.map_congr_left fun x _ => ?_
    by_cases hx : x = l
    · subst hx
      simp [node]
    · simp [node, hx]
  simp only [Graph.modifyKind, Graph.modifyNode]
  simp only [net, Drawing.set_labels, Drawing.set_wires, hnodes]

/-! ## Operations on drawings -/

section
variable {β γ : Type} {d d' d'' : Drawing α}

variable (F) in
/-- The operation answers `b` and turns one drawing into another, unless the numbers do not suffice
for the latter. -/
structure Draws (m : NetM β) (d : Drawing α) (b : β) (d' : Drawing α) : Prop where
  fits : F.Fits d'
  grows : d.labels.length ≤ d'.labels.length
  run : m (F.net d) = .ok b (F.net d') ∨ idLimit < F.start + d'.labels.length ∧
    ∃ net, m (F.net d) = .error (.fault .idsExhausted) net

variable (F) in
/-- The operation is refused, unless the numbers do not suffice for so many nodes. -/
def Refuses (m : NetM β) (d : Drawing α) (count : Nat) (r : Refusal) : Prop :=
  (∃ net, m (F.net d) = .error (.refused r) net) ∨ idLimit < F.start + count ∧
    ∃ net, m (F.net d) = .error (.fault .idsExhausted) net

theorem Draws.pure (hd : F.Fits d) (b : β) : F.Draws (pure b) d b d :=
  ⟨hd, Nat.le_refl _, .inl rfl⟩

theorem Draws.bind {m : NetM β} {k : β → NetM γ} {b : β} {c : γ} (hm : F.Draws m d b d')
    (hk : F.Draws (k b) d' c d'') : F.Draws (m >>= k) d c d'' := by
  refine ⟨hk.fits, Nat.le_trans hm.grows hk.grows, ?_⟩
  have hbind : (m >>= k) (F.net d) = EStateM.bind m k (F.net d) := rfl
  rw [hbind]
  unfold EStateM.bind
  rcases hm.run with h | ⟨hlt, net, h⟩
  · rw [h]
    exact hk.run
  · rw [h]
    exact .inr ⟨Nat.lt_of_lt_of_le hlt (Nat.add_le_add_left hk.grows _), net, rfl⟩

theorem Draws.refuses {m : NetM β} {k : β → NetM γ} {b : β} {r : Refusal} {count : Nat}
    (hm : F.Draws m d b d') (hcount : d'.labels.length ≤ count)
    (hk : F.Refuses (k b) d' count r) : F.Refuses (m >>= k) d count r := by
  have hbind : (m >>= k) (F.net d) = EStateM.bind m k (F.net d) := rfl
  unfold Refuses
  rw [hbind]
  unfold EStateM.bind
  rcases hm.run with h | ⟨hlt, net, h⟩
  · rw [h]
    exact hk
  · rw [h]
    exact .inr ⟨Nat.lt_of_lt_of_le hlt (Nat.add_le_add_left hcount _), net, rfl⟩

theorem Refuses.bind {m : NetM β} {k : β → NetM γ} {r : Refusal} {count : Nat}
    (hm : F.Refuses m d count r) : F.Refuses (m >>= k) d count r := by
  have hbind : (m >>= k) (F.net d) = EStateM.bind m k (F.net d) := rfl
  unfold Refuses
  rw [hbind]
  unfold EStateM.bind
  rcases hm with ⟨net, h⟩ | ⟨hlt, net, h⟩
  · rw [h]
    exact .inl ⟨net, rfl⟩
  · rw [h]
    exact .inr ⟨hlt, net, rfl⟩

/-- An operation that looks at the net first. -/
theorem Draws.get {k : Net → NetM β} {b : β} (hk : F.Draws (k (F.net d)) d b d') :
    F.Draws (get >>= k) d b d' := ⟨hk.fits, hk.grows, hk.run⟩

/-- What an operation leaves is known by labels, kinds of labels and wires. -/
theorem Draws.congr {m : NetM β} {b : β} (h : F.Draws m d b d') (hl : d'.labels = d''.labels)
    (hw : d'.wires = d''.wires) (hk : ∀ l ∈ d'.labels, d'.kind l = d''.kind l) :
    F.Draws m d b d'' := by
  have hnet : F.net d' = F.net d'' := net_congr hl hw hk
  refine ⟨⟨fun h' => h.fits.id_eq (hl ▸ h'), ?_, ?_⟩, hl ▸ h.grows, ?_⟩
  · rw [← hw, ← hl]
    exact h.fits.src_mem
  · rw [← hw, ← hl]
    exact h.fits.dst_mem
  · rw [← hnet, ← hl]
    exact h.run

theorem Draws.congr_left {m : NetM β} {b : β} (h : F.Draws m d b d') (hl : d.labels = d''.labels)
    (hw : d.wires = d''.wires) (hk : ∀ l ∈ d.labels, d.kind l = d''.kind l) :
    F.Draws m d'' b d' := by
  have hnet : F.net d = F.net d'' := net_congr hl hw hk
  exact ⟨h.fits, hl ▸ h.grows, hnet ▸ h.run⟩

variable (F) in
/-- The operation turns one drawing into another one under a condition, and is refused as
unsupported without it. -/
structure Tries (good : Prop) (count : Nat) (m : NetM β) (d : Drawing α) (b : β) (d' : Drawing α) :
    Prop where
  draws : good → F.Draws m d b d'
  refuses : ¬ good → ∃ u, F.Refuses m d count (.unsupported u)

theorem Draws.tries {m : NetM β} {b : β} {count : Nat} (h : F.Draws m d b d') :
    F.Tries True count m d b d' := ⟨fun _ => h, fun hn => (hn trivial).elim⟩

theorem Tries.iff {m : NetM β} {b : β} {count : Nat} {p q : Prop} (h : F.Tries p count m d b d')
    (hpq : p ↔ q) : F.Tries q count m d b d' :=
  ⟨fun hq => h.draws (hpq.2 hq), fun hq => h.refuses fun hp => hq (hpq.1 hp)⟩

theorem Tries.bind {m : NetM β} {k : β → NetM γ} {b : β} {c : γ} {count : Nat} {p q : Prop}
    (hm : F.Tries p count m d b d') (hcount : d'.labels.length ≤ count)
    (hk : p → F.Tries q count (k b) d' c d'') : F.Tries (p ∧ q) count (m >>= k) d c d'' := by
  refine ⟨fun h => (hm.draws h.1).bind ((hk h.1).draws h.2), fun h => ?_⟩
  by_cases hp : p
  · obtain ⟨u, hu⟩ := (hk hp).refuses fun hq => h ⟨hp, hq⟩
    exact ⟨u, (hm.draws hp).refuses hcount hu⟩
  · obtain ⟨u, hu⟩ := hm.refuses hp
    exact ⟨u, hu.bind⟩

theorem Tries.get {k : Net → NetM β} {b : β} {count : Nat} {p : Prop}
    (hk : F.Tries p count (k (F.net d)) d b d') : F.Tries p count (get >>= k) d b d' :=
  ⟨fun h => (hk.draws h).get, hk.refuses⟩

theorem draws_forM {xs : List γ} {step : γ → NetM Unit} (D : List γ → Drawing α)
    (h₀ : F.Fits (D [])) (hstep : ∀ pre x post, xs = pre ++ x :: post → F.Fits (D pre) →
      F.Draws (step x) (D pre) () (D (pre ++ [x]))) :
    F.Draws (xs.forM step) (D []) () (D xs) := by
  have key : ∀ post pre, xs = pre ++ post → F.Fits (D pre) →
      F.Draws (post.forM step) (D pre) () (D xs) := by
    intro post
    induction post with
    | nil =>
      intro pre hpre hfits
      rw [List.append_nil] at hpre
      subst hpre
      exact .pure hfits ()
    | cons x post ih =>
      intro pre hpre hfits
      have hx := hstep pre x post hpre hfits
      rw [forM_cons]
      exact hx.bind (ih (pre ++ [x]) (by simpa using hpre) hx.fits)
  exact key xs [] rfl h₀

theorem draws_mapM {xs : List γ} {step : γ → NetM β} (D : List γ → Drawing α) (answer : γ → β)
    (h₀ : F.Fits (D [])) (hstep : ∀ pre x post, xs = pre ++ x :: post → F.Fits (D pre) →
      F.Draws (step x) (D pre) (answer x) (D (pre ++ [x]))) :
    F.Draws (xs.mapM step) (D []) (xs.map answer) (D xs) := by
  have key : ∀ post pre, xs = pre ++ post → F.Fits (D pre) →
      F.Draws (post.mapM step) (D pre) (post.map answer) (D xs) := by
    intro post
    induction post with
    | nil =>
      intro pre hpre hfits
      rw [List.append_nil] at hpre
      subst hpre
      exact .pure hfits []
    | cons x post ih =>
      intro pre hpre hfits
      have hx := hstep pre x post hpre hfits
      rw [List.mapM_cons]
      exact hx.bind ((ih (pre ++ [x]) (by simpa using hpre) hx.fits).bind
        (.pure (ih (pre ++ [x]) (by simpa using hpre) hx.fits).fits _))
  exact key xs [] rfl h₀

end

end Frame

end Dataflow
