import Dataflow.Proofs.Lower.Translation

/-!
# One node for each value

Every operand that a reachable block reads becomes a data input of its graph. `Function.Shares` says
that these inputs refer to the same node just if the operands are the same value
(`Session.lower_shares`): the node says which value it produces (`Graph.product?`), no two nodes
produce the same one, and globals and constants have a node only if they are read.

Where a value is read is a `Use`. What a phi takes from a predecessor arrives at the port at which
control comes from it.
-/

namespace Dataflow

/-- A place where a value is read. -/
inductive Use
  /-- An operand of the instruction at a position of a block that is not a phi. -/
  | operand (b : BlockId) (position index : Nat)
  /-- What the phi at a position of a block takes from a predecessor. -/
  | arrival (b : BlockId) (position : Nat) (pred : BlockId)
  | exit (b : BlockId) (index : Nat)
deriving DecidableEq

/-- A block that control can get to reads the value at the use. -/
inductive Function.ReadsAt (f : Function) : Use → Value → Prop
  | operand {b : Block} {k j : Nat} {i : Instr} {v : Value} (hb : f.LiveBlock b)
      (hi : b.body[k]? = some i) (hphi : i.isPhi = false) (hv : i.operands[j]? = some v) :
      ReadsAt f (.operand b.id k j) v
  | arrival {b : Block} {k : Nat} {dest : InstId} {ty : Ty} {incoming : List (BlockId × Value)}
      {u : BlockId} {v : Value} (hb : f.LiveBlock b)
      (hi : b.body[k]? = some (.phi dest ty incoming)) (hu : f.Reachable u)
      (hv : (u, v) ∈ incoming) : ReadsAt f (.arrival b.id k u) v
  | exit {b : Block} {j : Nat} {v : Value} (hb : f.LiveBlock b)
      (hv : b.exit.operands[j]? = some v) : ReadsAt f (.exit b.id j) v

/-- The node and its data port that a use becomes. -/
def Placement.input (place : Placement) (g : Graph) : Use → NodeId × Nat
  | .operand b k j => (place.instr b k, j)
  | .arrival b k u => (place.instr b k, (g.ports (place.block b) .ctrlIn).idxOf (place.exit u))
  | .exit b j => (place.exit b, j)

/-- The node that the data input of a use refers to. -/
def Placement.source? (place : Placement) (g : Graph) (use : Use) : Option NodeId :=
  (g.ports (place.input g use).1 .dataIn)[(place.input g use).2]?

/-- The value that a node of this kind produces, in a graph with this entry. -/
def NodeKind.product? (entry : NodeId) : NodeKind → Option Value
  | .instr i => i.source.map .inst
  | .arg j owner => if owner = entry then some (.arg j) else none
  | .global i _ => some (.global i)
  | .const c => some (.const c)
  | _ => none

/-- The value that a node produces. -/
def Graph.product? (g : Graph) (n : NodeId) : Option Value := (g.kind? n).bind (·.product? g.entry)

/-- Whether a value needs no instruction and no argument. -/
def Value.isLeaf : Value → Bool
  | .global _ | .const _ => true
  | _ => false

/-- The inputs of a graph share their nodes as the operands of a function share their values. -/
structure Function.Shares (f : Function) (g : Graph) (place : Placement) : Prop where
  found : ∀ use v, f.ReadsAt use v → ∃ n, place.source? g use = some n ∧ g.product? n = some v
  shared : ∀ use v use' v', f.ReadsAt use v → f.ReadsAt use' v' →
    (place.source? g use = place.source? g use' ↔ v = v')
  unique : ∀ n n' v, g.product? n = some v → g.product? n' = some v → n = n'
  consumed : ∀ n v, g.product? n = some v → v.isLeaf = true →
    ∃ use, f.ReadsAt use v ∧ place.source? g use = some n

/-! ## From uses to inputs -/

namespace Function

variable {f : Function} {g : Graph} {place : Placement}

theorem wants_iff {v : Value} : f.Wants v ↔ ∃ use, f.ReadsAt use v := by
  constructor
  · rintro ⟨b, hb, ⟨i, hi, hv⟩ | hv⟩
    · obtain ⟨k, hk⟩ := List.mem_iff_getElem?.1 hi
      cases i with
      | phi dest ty incoming =>
        obtain ⟨u, hu, hv⟩ := hv
        exact ⟨_, .arrival hb hk hu hv⟩
      | _ =>
        obtain ⟨j, hj⟩ := List.mem_iff_getElem?.1 hv
        exact ⟨_, .operand hb hk rfl hj⟩
    · obtain ⟨j, hj⟩ := List.mem_iff_getElem?.1 hv
      exact ⟨_, .exit hb hj⟩
  · rintro ⟨use, h⟩
    cases h with
    | @operand b k j i _ hb hi hphi hv =>
      refine ⟨b, hb, .inl ⟨i, List.mem_of_getElem? hi, ?_⟩⟩
      cases i with
      | phi => cases hphi
      | _ => exact List.mem_of_getElem? hv
    | @arrival b _ _ _ _ u _ hb hi hu hv =>
      exact ⟨b, hb, .inl ⟨_, List.mem_of_getElem? hi, u, hu, hv⟩⟩
    | @exit b _ _ hb hv => exact ⟨b, hb, .inr (List.mem_of_getElem? hv)⟩

/-- A value that is read is produced by the node where it is found. -/
theorem LaidOut.product?_eq (h : f.LaidOut g place) {v : Value} (hv : f.Wants v) :
    g.product? (place.value v) = some v := by
  have hfound := h.values v hv
  rw [Graph.product?]
  cases v with
  | inst id =>
    obtain ⟨b, k, i, hb, hi, hid, hvalue⟩ := hfound
    obtain ⟨op, hkind, -⟩ := h.instrs b k i hb hi
    rw [hvalue, hkind, hid]
    rfl
  | arg j =>
    rw [show g.kind? _ = _ from hfound]
    exact if_pos rfl
  | global i =>
    obtain ⟨decl, -, hkind⟩ := hfound
    rw [hkind]
    rfl
  | const c =>
    rw [show g.kind? _ = _ from hfound]
    rfl

/-- A phi's entry for a predecessor arrives at the port at which control comes from it. -/
theorem WiredUp.source?_arrival (hf : f.WellFormed) (h : f.WiredUp g place) {b : Block} {k : Nat}
    {dest : InstId} {ty : Ty} {incoming : List (BlockId × Value)} {u : BlockId} {v : Value}
    (hb : f.LiveBlock b) (hi : b.body[k]? = some (.phi dest ty incoming)) (hu : f.Reachable u)
    (hv : (u, v) ∈ incoming) :
    place.source? g (.arrival b.id k u) = some (place.value v) := by
  obtain ⟨hnodup, hentries⟩ :=
    hf.entries b (List.mem_of_getElem? hb.1) (List.mem_of_getElem? hi)
  have hedge : f.Edge u b.id := (hentries u).1 (List.mem_map_of_mem hv)
  obtain ⟨us, harrivals, hctrl⟩ := h.arrivals b.id hb.2
  have hexit : place.exit u ∈ g.ports (place.block b.id) .ctrlIn := by
    rw [hctrl]
    exact List.mem_append_right _ (List.mem_map_of_mem ((harrivals.mem_iff u).2 ⟨hu, hedge⟩))
  obtain ⟨v', hv', hinput⟩ := h.phi_inputs b k dest ty incoming hb hi _ u hu
    (List.getElem?_idxOf hexit)
  have hsame : (u, v) = (u, v') := List.inj_on_of_nodup_map hnodup hv hv' rfl
  rw [(Prod.mk.inj hsame).2]
  exact hinput

theorem WiredUp.source?_eq (hf : f.WellFormed) (h : f.WiredUp g place) {use : Use} {v : Value}
    (hv : f.ReadsAt use v) : place.source? g use = some (place.value v) := by
  cases hv with
  | operand hb hi hphi hv =>
    rw [Placement.source?, Placement.input, h.operands _ _ _ hb hi hphi, List.getElem?_map, hv]
    rfl
  | arrival hb hi hu hv => exact h.source?_arrival hf hb hi hu hv
  | exit hb hv =>
    rw [Placement.source?, Placement.input, h.exit_operands _ hb, List.getElem?_map, hv]
    rfl

theorem Translates.found (hf : f.WellFormed) (h : f.Translates g place) {use : Use} {v : Value}
    (hv : f.ReadsAt use v) :
    place.source? g use = some (place.value v) ∧ g.product? (place.value v) = some v :=
  ⟨h.wiredUp.source?_eq hf hv, h.laidOut.product?_eq (wants_iff.2 ⟨use, hv⟩)⟩

theorem Translates.source?_eq_source?_iff (hf : f.WellFormed) (h : f.Translates g place)
    {use use' : Use} {v v' : Value} (hv : f.ReadsAt use v) (hv' : f.ReadsAt use' v') :
    place.source? g use = place.source? g use' ↔ v = v' := by
  obtain ⟨hsource, hproduct⟩ := h.found hf hv
  obtain ⟨hsource', hproduct'⟩ := h.found hf hv'
  rw [hsource, hsource', Option.some.injEq]
  refine ⟨fun hnode => ?_, congrArg _⟩
  rw [hnode, hproduct'] at hproduct
  exact (Option.some.inj hproduct).symm

end Function

namespace Plan

variable {p : Plan} {o : Options} {F : Frame Label} {xs : List (Access × Option Region)}
  {ordered : List (Access × Access)}

/-! ## From nodes to labels -/

theorem Sound.eq_labelOf_of_produces (hp : p.Sound) {id : InstId} {l : Label}
    (hl : l ∈ p.baseLabels) (h : p.produces id l = true) : l = p.labelOf (.inst id) := by
  have hknown : p.Known (.inst id) := List.find?_isSome.2 ⟨l, hl, h⟩
  exact hp.produces_unique h (labelOf_produces hknown).2

section
variable (hs : p.Scope F (p.wires o xs ordered))
include hs

/-- The split call of a call is not the entry. -/
theorem Scope.id_split_ne {b : BlockId} {k j : Nat}
    (hl : .splitArg b k j ∈ p.fullLabels (p.wires o xs ordered)) :
    F.id (.split b k) ≠ F.id .entry := by
  have hbase := mem_baseLabels_of_mem hl rfl fun _ h => by cases h
  obtain ⟨hr, dest, callee, args, hcall, -⟩ := hs.sound.mem_baseLabels.1 hbase
  have hsplit : .split b k ∈ p.baseLabels :=
    hs.sound.mem_baseLabels.2 ⟨hr, dest, callee, args, hcall⟩
  have hentry : .entry ∈ p.baseLabels := hs.sound.mem_baseLabels.2 trivial
  intro h
  cases (hs.fits_whole.id_inj (mem_fullLabels hsplit) (mem_fullLabels hentry)).1 h

/-- What produces a value has the label of the value. -/
theorem Scope.eq_labelOf {l : Label} (hl : l ∈ p.fullLabels (p.wires o xs ordered)) {v : Value}
    (hv : (p.kindOf o F.id (p.fullLabels (p.wires o xs ordered)) (p.wires o xs ordered) l).product?
      (F.id .entry) = some v) : l = p.labelOf v := by
  cases l with
  | instr b k =>
    have hbase := mem_baseLabels_of_mem hl rfl fun _ h => by cases h
    obtain ⟨-, i, hi⟩ := hs.sound.mem_baseLabels.1 hbase
    rw [kindOf_instr hi] at hv
    obtain ⟨id, hid, rfl⟩ := Option.map_eq_some_iff.1 hv
    exact hs.sound.eq_labelOf_of_produces hbase (produces_iff.2 ⟨b, k, i, rfl, hi, hid⟩)
  | param j =>
    rw [kindOf, NodeKind.product?, if_pos rfl] at hv
    cases hv
    rfl
  | splitArg b k j =>
    rw [kindOf, NodeKind.product?, if_neg (hs.id_split_ne hl)] at hv
    cases hv
  | leaf u => cases u <;> cases hv <;> rfl
  | _ => cases hv

theorem Scope.label_of_product? {n : NodeId} {v : Value}
    (hn : (F.net (p.whole o F xs ordered)).product? n = some v) :
    p.labelOf v ∈ p.fullLabels (p.wires o xs ordered) ∧ n = F.id (p.labelOf v) := by
  obtain ⟨kind, hkind, hv⟩ := Option.bind_eq_some_iff.1 hn
  obtain ⟨l, hl, rfl, rfl⟩ := hs.exists_label_of_kind? hkind
  rw [show (F.net (p.whole o F xs ordered)).entry = F.id .entry from hs.id_entry.symm] at hv
  obtain rfl := hs.eq_labelOf hl hv
  exact ⟨hl, rfl⟩

/-! ## Why a leaf is there -/

omit hs in
theorem labelOf_of_isLeaf {v : Value} (h : v.isLeaf = true) : p.labelOf v = .leaf v := by
  cases v with
  | global _ | const _ => rfl
  | _ => cases h

omit hs in
theorem eq_of_labelOf {v v' : Value} (h : p.labelOf v = .leaf v') : v = v' := by
  cases v with
  | inst id =>
    rw [labelOf] at h
    cases hfound : p.definition? id with
    | none =>
      rw [hfound] at h
      cases h
    | some l =>
      rw [hfound, Option.getD_some] at h
      have hproduces := List.find?_some (p := p.produces id) hfound
      rw [h] at hproduces
      cases hproduces
  | arg j => cases h
  | global _ | const _ => exact Label.leaf.inj h

/-- Only a value wire leads from a leaf, and none leads to it. -/
theorem Scope.exists_valueWire {v : Value} (hl : .leaf v ∈ p.fullLabels (p.wires o xs ordered)) :
    ∃ w ∈ p.valueWires, w.src = .leaf v := by
  have hbase : .leaf v ∉ p.baseLabels := fun h => (hs.sound.mem_baseLabels.1 h).elim
  have hextra : .leaf v ∈ extras (p.wires o xs ordered) := by
    rcases List.mem_append.1 hl with hl | hl
    · exact (List.mem_append.1 hl).resolve_left hbase
    · obtain ⟨loop, -, h⟩ := List.mem_map.1 hl
      cases h
  obtain ⟨-, w, hw, hend⟩ := mem_extras.1 hextra
  rcases List.mem_append.1 hw with hw | hw
  · rcases List.mem_append.1 hw with hw | hw
    · have hends := hs.sound.controlWires_mem hw
      rcases hend with h | h
      · exact absurd (h ▸ hends.1) hbase
      · exact absurd (h ▸ hends.2) hbase
    · rcases hend with h | h
      · exact ⟨w, hw, h.symm⟩
      · exact absurd (h ▸ (hs.sound.valueWires_mem hw).2) hbase
  · obtain ⟨x, -, r, -, hw⟩ | ⟨q, -, rfl⟩ := mem_memoryWires.1 hw
    · simp only [serviceWires, List.mem_cons, List.not_mem_nil, or_false] at hw
      rcases hw with rfl | rfl <;> rcases hend with h | h <;> cases h
    · rcases hend with h | h <;> cases h

/-- A global or constant is there because it is read. -/
theorem Scope.wants_of_leaf {v : Value} (hleaf : v.isLeaf = true)
    (hl : p.labelOf v ∈ p.fullLabels (p.wires o xs ordered)) : p.function.Wants v := by
  have hp := hs.sound
  rw [labelOf_of_isLeaf hleaf] at hl
  obtain ⟨w, hw, hsrc⟩ := hs.exists_valueWire hl
  obtain ⟨b, hb, u, hu, rfl⟩ | ⟨b, hb, m, hm, -, rfl⟩ | ⟨b, hb, i, k, hi, u, hu, rfl⟩ |
    ⟨b, hb, u, hu, rfl⟩ := mem_valueWires.1 hw
  · -- the source of a mask is the condition of a branch
    obtain rfl := eq_of_labelOf hsrc
    obtain ⟨c, hc, hmem, -⟩ := hp.mem_exit_of_maskRead? hu
    exact ⟨c, hp.mem_blocks.1 hc, .inr hmem⟩
  · cases hsrc
  · obtain rfl := eq_of_labelOf hsrc
    have hmem := List.mem_of_getElem? hi
    exact ⟨b, hp.mem_blocks.1 hb, .inl ⟨i, hmem, (hp.mem_reads hb hmem).1 hu⟩⟩
  · obtain rfl := eq_of_labelOf hsrc
    exact ⟨b, hp.mem_blocks.1 hb, .inr hu⟩

theorem Scope.shares (hsup : p.Supported) (hcomplete : p.Complete) :
    p.function.Shares (F.net (p.whole o F xs ordered)).toGraph (p.placement F) where
  found _ v hv := ⟨_, (hs.translates hsup hcomplete).found hs.sound.wellFormed hv⟩
  shared _ _ _ _ hv hv' :=
    (hs.translates hsup hcomplete).source?_eq_source?_iff hs.sound.wellFormed hv hv'
  unique _ _ _ hn hn' := (hs.label_of_product? hn).2.trans (hs.label_of_product? hn').2.symm
  consumed n v hn hleaf := by
    obtain ⟨hl, rfl⟩ := hs.label_of_product? hn
    obtain ⟨use, huse⟩ := Function.wants_iff.1 (hs.wants_of_leaf hleaf hl)
    exact ⟨use, huse, ((hs.translates hsup hcomplete).found hs.sound.wellFormed huse).1⟩

end

end Plan

/-- **Nodes are shared as values are.** If a function that passes the check is lowered, two operands
in its reachable blocks become inputs from the same node just if they are the same value. The node
is the only one for the value, and globals and constants that nothing reads have none. -/
theorem Session.lower_shares {σ : Type} {s : Session} {f : Function} {d : Disambiguator σ}
    {oracle : σ} {g : Graph} (hf : f.check = .ok ())
    (hg : (s.lower f d oracle).result = .ok g) :
    ∃ f' place, f.withPreheaders = .ok f' ∧ f'.Translates g place ∧ f'.Shares g place := by
  obtain ⟨p, cs, hp, hpre, -, hcs, -, hsup, hcomplete, rfl⟩ :=
    lower_eq_ok (Function.check_eq_ok_iff.1 hf) hg
  have hscope : p.Scope _ (p.lowered d oracle s.options cs) :=
    hp.scope_lowered hcs s.options s.uids.next
  exact ⟨p.function, p.placement _, hpre, hscope.translates hsup hcomplete,
    hscope.shares hsup hcomplete⟩

/-- A loop entered from two blocks, which gets a preheader, and from one that is not reachable. Its
constants are read by phis, instructions and exits. -/
def Function.pouring : Function where
  name := "pouring"
  params := [⟨"again", .int .w1⟩, ⟨"p", .ptr⟩]
  globals := [⟨"cell", .ptr⟩, ⟨"spare", .ptr⟩]
  blocks := [
    ⟨0, "entry", [], .branch (.arg 0) 1 2⟩,
    ⟨1, "left", [], .jump 3⟩,
    ⟨2, "right", [.store (.global 0) (.const (.ofWord .w32 0))], .jump 3⟩,
    ⟨3, "head", [.phi 0 (.int .w32) [(1, .const (.ofWord .w32 0)), (2, .const (.ofWord .w32 1)),
      (4, .inst 1), (6, .const (.ofWord .w32 2))]], .branch (.arg 0) 4 5⟩,
    ⟨4, "body", [.binary 1 .add (.inst 0) (.const (.ofWord .w32 1))], .jump 3⟩,
    ⟨5, "done", [.store (.global 0) (.inst 0)], .ret (some (.const (.ofWord .w64 0)))⟩,
    ⟨6, "lost", [.store (.global 1) (.const (.ofWord .w32 3))], .jump 3⟩]

theorem Session.lower_shares_pouring : Function.pouring.check = .ok () ∧
    ∃ g f' place, (({} : Session).lower Function.pouring .single ()).result = .ok g ∧
      Function.pouring.withPreheaders = .ok f' ∧ f'.Translates g place ∧ f'.Shares g place ∧
      ((List.range g.nodes.length).filterMap g.product?).filter Value.isLeaf =
        [.global 0, .const (.ofWord .w32 0), .const (.ofWord .w32 1), .const (.ofWord .w64 0)] := by
  have hleaves : (({} : Session).lower Function.pouring .single ()).result.toOption.map
      (fun g => ((List.range g.nodes.length).filterMap g.product?).filter Value.isLeaf) =
        some [.global 0, .const (.ofWord .w32 0), .const (.ofWord .w32 1),
          .const (.ofWord .w64 0)] := by
    decide +kernel
  cases hg : (({} : Session).lower Function.pouring .single ()).result with
  | error e =>
    rw [hg] at hleaves
    cases hleaves
  | ok g =>
    rw [hg] at hleaves
    obtain ⟨f', place, hpre, htranslates, hshares⟩ := lower_shares (by decide +kernel) hg
    exact ⟨by decide +kernel, g, f', place, rfl, hpre, htranslates, hshares,
      Option.some.inj hleaves⟩

end Dataflow
