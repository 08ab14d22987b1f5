import Dataflow.Proofs.Lower.Dependency
import Dataflow.Proofs.Lower.Strict
import Mathlib.Data.Prod.Lex

/-!
# Lowered functions do not deadlock

Within one activation a node waits for the nodes that its data, control, mask and dependency edges
come from (`Graph.Enables`). Only two kinds of edges lead to the next activation of a loop: control
from a latch to the head (`Graph.IsLatch`), and what a phi of the head is given from a latch
(`Graph.IsCarried`). `Session.lower_acyclic`: if definitions come before their uses, no node of a
lowered function waits for itself.

The proof gives every label a rank, the place of its block in the order of the blocks and its
position in the block, and shows that every edge raises it.
-/

namespace Dataflow

open Relation

/-! ## The specification -/

namespace Graph

/-- Control goes from the branch of a latch back to the head of the loop. -/
def IsLatch (g : Graph) (e : Edge) : Prop :=
  e.kind = .control ∧ ∃ n l i succs, g.kind? n = some (.loop l) ∧ l.head = some e.dst ∧
    g.kind? e.src = some (.instr i) ∧ i.op = .branch succs ∧ i.block ∈ l.latches

/-- A phi of the head of a loop is given a value at the position of a latch. -/
def IsCarried (g : Graph) (e : Edge) : Prop :=
  e.kind = .data ∧ ∃ n l i mask us latch bn, g.kind? n = some (.loop l) ∧
    g.kind? e.dst = some (.instr i) ∧ i.op = .phi mask us ∧ l.head = some i.block ∧
    latch ∈ l.latches ∧ g.kind? latch = some (.block bn) ∧ us[e.dstPort]? = some bn.block

/-- Node `m` waits for node `n` within one activation. -/
def Enables (g : Graph) (n m : NodeId) : Prop :=
  ∃ e ∈ g.edges, e.kind ∈ [.data, .control, .mask, .dependency] ∧ ¬ g.IsLatch e ∧
    ¬ g.IsCarried e ∧ e.src = n ∧ e.dst = m

end Graph

namespace Plan

variable {p : Plan} {o : Options} {F : Frame Label} {xs : List (Access × Option Region)}
  {ordered : List (Access × Access)}

/-! ## Ranks -/

/-- The place of a block, from one on. Zero is for what belongs to no block. -/
def stage (p : Plan) (b : BlockId) : Nat := p.flow.order.idxOf b + 1

/-- The place of the block of a label, and its position in the block. -/
def rank (p : Plan) : Label → Nat ×ₗ Nat
  | .block b => toLex (p.stage b, 0)
  | .instr b k => toLex (p.stage b, 2 * k + 1)
  | .split b k => toLex (p.stage b, 2 * k + 2)
  | .exit b => toLex (p.stage b, 2 * (p.function.blocks[b]?.elim 0 fun c => c.body.length) + 1)
  | _ => toLex (0, 0)

theorem rank_exit {b : Block} (hb : p.function.blocks[b.id]? = some b) :
    p.rank (.exit b.id) = toLex (p.stage b.id, 2 * b.body.length + 1) := by
  rw [rank, hb, Option.elim_some]

theorem lt_of_stage_lt {b c : BlockId} (h : p.flow.order.idxOf c < p.flow.order.idxOf b)
    (j k : Nat) : toLex (p.stage c, j) < toLex (p.stage b, k) :=
  Prod.Lex.toLex_lt_toLex.2 (.inl (Nat.succ_lt_succ h))

theorem lt_of_position_lt (b : BlockId) {j k : Nat} (h : j < k) :
    toLex (p.stage b, j) < toLex (p.stage b, k) := Prod.Lex.toLex_lt_toLex.2 (.inr ⟨rfl, h⟩)

section
variable (hp : p.Sound)
include hp

/-- A result has the label of its definition. -/
theorem Sound.labelOf_inst {id : InstId} {b : BlockId} {k : Nat} (hb : p.function.Reachable b)
    (hdef : p.function.DefinesAt id b k) : p.labelOf (.inst id) = .instr b k := by
  obtain ⟨c, i, hc, hi, hid⟩ := hdef
  have hlive : p.function.Live id :=
    ⟨b, c, hc, hb, List.mem_filterMap.2 ⟨i, List.mem_of_getElem? hi, hid⟩⟩
  obtain ⟨-, hprod⟩ := labelOf_produces (hp.known_inst.2 hlive)
  obtain ⟨b', k', i', hl, hi', hid'⟩ := produces_iff.1 hprod
  obtain ⟨c', hc', hi'⟩ := Option.bind_eq_some_iff.1 hi'
  obtain ⟨rfl, rfl⟩ := hp.wellFormed.position_unique hc hi hid hc' hi' hid'
  exact hl

/-- The label of a value comes before what its definition comes before. -/
theorem Sound.rank_labelOf_lt {v : Value} {b : BlockId} {n : Nat}
    (h : ∀ id, v = .inst id → ∃ c j, p.function.Reachable c ∧ p.function.DefinesAt id c j ∧
      toLex (p.stage c, 2 * j + 1) < toLex (p.stage b, n)) :
    p.rank (p.labelOf v) < toLex (p.stage b, n) := by
  cases v with
  | inst id =>
    obtain ⟨c, j, hc, hdef, hlt⟩ := h id rfl
    rw [hp.labelOf_inst hc hdef]
    exact hlt
  | _ => exact Prod.Lex.toLex_lt_toLex.2 (.inl (Nat.succ_pos _))

theorem Sound.rank_lt_of_available {v : Value} {b : BlockId} {k : Nat}
    (hb : p.function.Reachable b) (h : ∀ id, v = .inst id → p.function.Available id b k) :
    p.rank (p.labelOf v) < toLex (p.stage b, 2 * k + 1) := by
  refine hp.rank_labelOf_lt fun id hid => ?_
  obtain ⟨c, j, hdef, ⟨rfl, hlt⟩ | ⟨hne, hd⟩⟩ := h id hid
  · exact ⟨c, j, hb, hdef, lt_of_position_lt c (by omega)⟩
  · exact ⟨c, j, hd.reaches_left, hdef, lt_of_stage_lt (hp.describes.idxOf_lt hd hne) ..⟩

theorem Sound.rank_lt_of_availableAfter {v : Value} {u b : BlockId} (n : Nat)
    (hlt : p.flow.order.idxOf u < p.flow.order.idxOf b)
    (h : ∀ id, v = .inst id → p.function.AvailableAfter id u) :
    p.rank (p.labelOf v) < toLex (p.stage b, n) := by
  refine hp.rank_labelOf_lt fun id hid => ?_
  obtain ⟨c, j, hdef, hd⟩ := h id hid
  have hle := hp.describes.idxOf_le hd
  exact ⟨c, j, hd.reaches_left, hdef, lt_of_stage_lt (Nat.lt_of_le_of_lt hle hlt) ..⟩

/-! ## Wires -/

theorem Sound.rank_lt_of_member {b : Block} (hb : b ∈ p.blocks) {m : Label}
    (hm : m ∈ p.members b.id) : p.rank (.block b.id) < p.rank m := by
  have hget := (hp.mem_blocks.1 hb).1
  rw [members, hget, Option.elim_some, List.mem_append, List.mem_map, List.mem_singleton] at hm
  obtain ⟨k, -, rfl⟩ | rfl := hm
  · exact lt_of_position_lt b.id (Nat.succ_pos _)
  · rw [rank_exit hget]
    exact lt_of_position_lt b.id (Nat.succ_pos _)

theorem Sound.rank_lt_of_mask (hstrict : p.function.Strict) {b : Block} {v : Value}
    (hv : p.maskRead? b.id = some v) : p.rank (p.labelOf v) < p.rank (.block b.id) := by
  obtain ⟨c, hc, hmem, hidom⟩ := hp.mem_exit_of_maskRead? hv
  obtain ⟨hget, hr⟩ := hp.mem_blocks.1 hc
  refine hp.rank_lt_of_availableAfter 0 (hp.describes.tree.order_lt hidom) fun id hid => ?_
  exact (hstrict.exits c.id c hget hr id (hid ▸ hmem)).after hr

theorem Sound.rank_lt_of_use (hstrict : p.function.Strict) {b : Block} (hb : b ∈ p.blocks) {k : Nat}
    {i : Instr} (hi : b.body[k]? = some i) (hphi : i.isPhi = false) {v : Value}
    (hv : v ∈ p.reads b.id i) : p.rank (p.labelOf v) < p.rank (.instr b.id k) := by
  obtain ⟨hget, hr⟩ := hp.mem_blocks.1 hb
  refine hp.rank_lt_of_available hr fun id hid => ?_
  exact hstrict.uses b.id b hget hr k i hi hphi id (hid ▸ mem_operands_of_mem_reads hv)

theorem Sound.rank_lt_of_exit (hstrict : p.function.Strict) {b : Block} (hb : b ∈ p.blocks)
    {v : Value} (hv : v ∈ b.exit.operands) : p.rank (p.labelOf v) < p.rank (.exit b.id) := by
  obtain ⟨hget, hr⟩ := hp.mem_blocks.1 hb
  rw [rank_exit hget]
  exact hp.rank_lt_of_available hr fun id hid => hstrict.exits b.id b hget hr id (hid ▸ hv)

variable (hsup : p.Supported)
include hsup

theorem Sound.forward_lt {u v : BlockId} (hu : p.function.Reachable u)
    (h : TransGen (Flow.IsForward p.function.Edge Function.entry) u v) :
    p.flow.order.idxOf u < p.flow.order.idxOf v := by
  have hf := hp.wellFormed.toNumbered
  exact (hp.describes.idxOf_lt_of_transGen hf ((hp.describes.reducible_iff hf).2 hsup.reducible)
    hu h).2

/-- An edge that does not come from a latch goes forward. -/
theorem Sound.lt_of_not_latch {u v : BlockId} (hu : p.function.Reachable u)
    (he : p.function.Edge u v) (hlatch : u ∉ p.flow.latches v) :
    p.flow.order.idxOf u < p.flow.order.idxOf v := by
  refine hp.forward_lt hsup hu (.single ⟨he, fun hd => hlatch ?_⟩)
  exact (hp.describes.mem_latches hp.wellFormed.toNumbered).2 ⟨he, hd⟩

/-- Control goes on to a higher rank, or from a latch back to the head. -/
theorem Sound.rank_lt_of_control {w : Wire Label} (hw : w ∈ p.controlWires) :
    p.rank w.src < p.rank w.dst ∨ ∃ u v, u ∈ p.flow.latches v ∧ w = ⟨.control, .exit u, .block v⟩ := by
  obtain rfl | ⟨b, hb, s, hs, rfl⟩ | ⟨b, hb, m, hm, rfl⟩ | ⟨l, -, hcall⟩ := mem_controlWires.1 hw
  · exact .inl (Prod.Lex.toLex_lt_toLex.2 (.inl (Nat.succ_pos _)))
  · by_cases hlatch : b.id ∈ p.flow.latches s
    · exact .inr ⟨b.id, s, hlatch, rfl⟩
    · obtain ⟨hget, hr⟩ := hp.mem_blocks.1 hb
      have hlt := hp.lt_of_not_latch hsup hr (hp.describes.mem_succs.1 hs) hlatch
      rw [rank_exit hget]
      exact .inl (lt_of_stage_lt hlt ..)
  · exact .inl (hp.rank_lt_of_member hb hm)
  · obtain ⟨b, k, dest, callee, args, -, -, rfl⟩ := mem_callWire?.1 hcall
    exact .inl (lt_of_position_lt b (Nat.lt_succ_self _))

omit hsup in
/-- What a phi reads at a position is what it is given from the predecessor there. -/
theorem Sound.entry_of_reads {b : Block} (hb : b ∈ p.blocks) {dest : InstId} {ty : Ty}
    {incoming : List (BlockId × Value)} (hi : .phi dest ty incoming ∈ b.body) {j : Nat} {l : Label}
    (h : ((p.reads b.id (.phi dest ty incoming)).map p.labelOf)[j]? = some l) :
    ∃ u v, (p.flow.preds b.id)[j]? = some u ∧ (u, v) ∈ incoming ∧ p.labelOf v = l := by
  rw [List.getElem?_map, reads, getElem?_filterMap_of_isSome (hp.isSome_incoming hb hi)] at h
  obtain ⟨v, hv, rfl⟩ := Option.map_eq_some_iff.1 h
  obtain ⟨u, hu, hv⟩ := Option.bind_eq_some_iff.1 hv
  obtain ⟨entry, hentry, rfl⟩ := Option.map_eq_some_iff.1 hv
  exact ⟨u, entry.2, hu, mem_of_find?_fst hentry, rfl⟩

/-- A phi comes after what it is given from a predecessor that is no latch. -/
theorem Sound.rank_lt_of_entry (hstrict : p.function.Strict) {b : Block} (hb : b ∈ p.blocks)
    {dest : InstId} {ty : Ty} {incoming : List (BlockId × Value)} {k : Nat}
    (hi : b.body[k]? = some (.phi dest ty incoming)) {u : BlockId} {v : Value}
    (hu : u ∈ p.flow.preds b.id) (huv : (u, v) ∈ incoming) (hlatch : u ∉ p.flow.latches b.id) :
    p.rank (p.labelOf v) < p.rank (.instr b.id k) := by
  obtain ⟨hget, hr⟩ := hp.mem_blocks.1 hb
  obtain ⟨hur, he⟩ := (hp.describes.mem_preds hp.wellFormed.toNumbered).1 hu
  refine hp.rank_lt_of_availableAfter _ (hp.lt_of_not_latch hsup hur he hlatch) fun id hid => ?_
  exact hstrict.entries b.id b hget hr dest ty incoming (List.mem_of_getElem? hi) u id (hid ▸ huv) hur

theorem Sound.rank_lt_of_order {a b : Access} (ha : a ∈ p.accessList)
    (h : Precedes p.function a b) : p.rank a.label < p.rank b.label := by
  have hr := (hp.mem_baseLabels.1 (hp.places_frame ha 0 []).laid).1
  unfold Precedes at h
  split at h
  · rename_i hblock
    show toLex (p.stage a.block, 2 * a.index + 1) < toLex (p.stage b.block, 2 * b.index + 1)
    rw [hblock]
    exact lt_of_position_lt b.block (by omega)
  · exact lt_of_stage_lt (hp.forward_lt hsup hr h) ..

end

/-- A mask goes from a block to one of its members. -/
theorem exists_member_of_mask {w : Wire Label} (hw : w ∈ p.wires o xs ordered)
    (hkind : w.kind = .mask) :
    ∃ b ∈ p.blocks, ∃ m ∈ p.members b.id, w = ⟨.mask, .block b.id, m⟩ := by
  have hmem := mem_wires_of_kind hw
  rw [hkind] at hmem
  obtain ⟨b, -, v, -, rfl⟩ | ⟨b, hb, m, hm, -, rfl⟩ | ⟨b, -, i, k, -, v, -, rfl⟩ | ⟨b, -, v, -, rfl⟩ :=
    mem_valueWires.1 hmem
  · cases hkind
  · exact ⟨b, hb, m, hm, rfl⟩
  · cases hkind
  · cases hkind

/-! ## Edges -/

section
variable (hs : p.Scope F (p.wires o xs ordered))
include hs

/-- There is a loop node for the head of every latch. -/
theorem Scope.kind?_loop {u b : BlockId} (hu : u ∈ p.flow.latches b) :
    (F.net (p.whole o F xs ordered)).kind? (F.id (.loop b)) = some (.loop (p.loopNodeAt o F.id b)) := by
  have hd := ((hs.sound.describes.mem_latches hs.sound.wellFormed.toNumbered).1 hu).2
  have hloop : p.flow.loopAt b ∈ p.loops := by
    rw [hs.sound.loops_eq]
    exact FlowGraph.mem_loops.2
      ⟨b, hs.sound.describes.mem_order.2 hd.reaches_left, List.ne_nil_of_mem hu, rfl⟩
  exact hs.kind?_eq (List.mem_append_right _ (List.mem_map_of_mem hloop))

theorem Scope.isLatch {u b : BlockId} (hu : u ∈ p.flow.latches b) {e : Edge}
    (hkind : e.kind = .control) (hsrc : e.src = F.id (.exit u)) (hdst : e.dst = F.id (.block b)) :
    (F.net (p.whole o F xs ordered)).IsLatch e := by
  obtain ⟨⟨c, hc, htarget⟩, hd⟩ :=
    (hs.sound.describes.mem_latches hs.sound.wellFormed.toNumbered).1 hu
  obtain rfl := hs.sound.wellFormed.id_eq hc
  have hexit : ∀ v, c.exit ≠ .ret v := fun v hv => by
    rw [hv] at htarget
    cases htarget
  have hlaid := hs.sound.laid_exit (hs.sound.mem_blocks.2 ⟨hc, hd.reaches⟩)
  refine ⟨hkind, _, _, _, _, hs.kind?_loop hu, congrArg some hdst.symm,
    hsrc ▸ hs.kind?_eq (mem_fullLabels hlaid), exitOp_eq_branch hc hexit, ?_⟩
  exact List.mem_map_of_mem hu

theorem Scope.isCarried {b : Block} (hb : b ∈ p.blocks) {k : Nat} {dest : InstId} {ty : Ty}
    {incoming : List (BlockId × Value)} (hi : b.body[k]? = some (.phi dest ty incoming)) {e : Edge}
    (hkind : e.kind = .data) (hdst : e.dst = F.id (.instr b.id k)) {u : BlockId}
    (hu : u ∈ p.flow.latches b.id) (hport : (p.flow.preds b.id)[e.dstPort]? = some u) :
    (F.net (p.whole o F xs ordered)).IsCarried e := by
  have hd := ((hs.sound.describes.mem_latches hs.sound.wellFormed.toNumbered).1 hu).2
  have hblock : .block u ∈ p.baseLabels := hs.sound.mem_baseLabels.2 hd.reaches
  have hphi : (F.net (p.whole o F xs ordered)).kind? e.dst = some (.instr
      ⟨.phi (F.id (.block b.id)) (p.flow.preds b.id), F.id (.block b.id), some dest⟩) := by
    rw [hdst, hs.kind?_eq (mem_fullLabels (hs.sound.laid_instr hb hi)),
      kindOf_instr ((hs.sound.instr?_eq hb k).trans hi), opcodeAt_of_not_access rfl]
    rfl
  exact ⟨hkind, _, _, _, _, _, _, _, hs.kind?_loop hu, hphi, rfl, rfl, List.mem_map_of_mem hu,
    hs.kind?_eq (mem_fullLabels hblock), hport⟩

variable (hsup : p.Supported) (hstrict : p.function.Strict)
include hsup hstrict

theorem Scope.rank_lt_of_data {e : Edge} {w : Wire Label} (hw : w ∈ p.valueWires)
    (hkind : w.kind = .data) (hek : e.kind = w.kind) (hdst : e.dst = F.id w.dst)
    (hport : (portsAt (p.wires o xs ordered) w.dst w.kind.targetSlot)[e.dstPort]? = some w.src)
    (hcarried : ¬ (F.net (p.whole o F xs ordered)).IsCarried e) : p.rank w.src < p.rank w.dst := by
  have hp := hs.sound
  obtain ⟨b, -, v, hv, rfl⟩ | ⟨b, -, m, -, -, rfl⟩ | ⟨b, hb, i, k, hi, v, hv, rfl⟩ |
    ⟨b, hb, v, hv, rfl⟩ := mem_valueWires.1 hw
  · exact hp.rank_lt_of_mask hstrict hv
  · cases hkind
  · cases i with
    | phi dest ty incoming =>
      have hreads : ((p.reads b.id (.phi dest ty incoming)).map p.labelOf)[e.dstPort]? =
          some (p.labelOf v) := by
        rw [← hp.dataIn_instr hb hi, ← portsAt_wires_data (.inl rfl)]
        exact hport
      obtain ⟨u, v, hu, huv, heq⟩ := hp.entry_of_reads hb (List.mem_of_getElem? hi) hreads
      have hlatch : u ∉ p.flow.latches b.id := fun hmem =>
        hcarried (hs.isCarried hb hi hek hdst hmem hu)
      rw [← heq]
      exact hp.rank_lt_of_entry hsup hstrict hb hi (List.mem_of_getElem? hu) huv hlatch
    | _ => exact hp.rank_lt_of_use hstrict hb hi rfl hv
  · exact hp.rank_lt_of_exit hstrict hb hv

variable (hordered : ∀ q ∈ ordered, q.1 ∈ p.accessList ∧ Precedes p.function q.1 q.2)
include hordered

/-- Every edge within an activation raises the rank. -/
theorem Scope.rank_lt_of_enables {n m : NodeId}
    (h : (F.net (p.whole o F xs ordered)).Enables n m) :
    ∃ l ∈ p.fullLabels (p.wires o xs ordered), ∃ l' ∈ p.fullLabels (p.wires o xs ordered),
      F.id l = n ∧ F.id l' = m ∧ p.rank l < p.rank l' := by
  have hp := hs.sound
  obtain ⟨e, he, hkind, hlatch, hcarried, rfl, rfl⟩ := h
  obtain ⟨w, hw, hk, hsrc, hdst, hport⟩ := exists_wire he
  refine ⟨w.src, hs.fits_whole.src_mem w hw, w.dst, hs.fits_whole.dst_mem w hw, hsrc.symm,
    hdst.symm, ?_⟩
  simp only [List.mem_cons, List.not_mem_nil, or_false, hk] at hkind
  rcases hkind with hdata | hcontrol | hmask | hdependency
  · exact hs.rank_lt_of_data hsup hstrict (mem_valueWires_of_data hw hdata) hdata hk hdst hport
      hcarried
  · rcases hp.rank_lt_of_control hsup (mem_controlWires_of_control hw hcontrol) with
      hlt | ⟨u, v, hu, rfl⟩
    · exact hlt
    · exact absurd (hs.isLatch hu hk hsrc hdst) hlatch
  · obtain ⟨b, hb, m, hm, heq⟩ := exists_member_of_mask hw hmask
    subst heq
    exact hp.rank_lt_of_member hb hm
  · obtain ⟨kind, l, l'⟩ := w
    subst hdependency
    obtain ⟨q, hq, rfl, rfl⟩ := mem_wires_dependency.1 hw
    exact hp.rank_lt_of_order hsup (hordered q hq).1 (hordered q hq).2

/-- So does every way along such edges. -/
theorem Scope.rank_lt_of_transGen {n m : NodeId}
    (h : TransGen (F.net (p.whole o F xs ordered)).Enables n m) :
    ∃ l ∈ p.fullLabels (p.wires o xs ordered), ∃ l' ∈ p.fullLabels (p.wires o xs ordered),
      F.id l = n ∧ F.id l' = m ∧ p.rank l < p.rank l' := by
  induction h with
  | single h => exact hs.rank_lt_of_enables hsup hstrict hordered h
  | tail _ h ih =>
    obtain ⟨l, hl, x, hx, hid, rfl, hlt⟩ := ih
    obtain ⟨x', hx', l', hl', hxx', hid', hlt'⟩ := hs.rank_lt_of_enables hsup hstrict hordered h
    obtain rfl := (hs.fits_whole.id_inj hx' hx).1 hxx'
    exact ⟨l, hl, l', hl', hid, hid', hlt.trans hlt'⟩

theorem Scope.not_transGen_enables (n : NodeId) :
    ¬ TransGen (F.net (p.whole o F xs ordered)).Enables n n := by
  intro h
  obtain ⟨l, hl, l', hl', rfl, hid, hlt⟩ := hs.rank_lt_of_transGen hsup hstrict hordered h
  obtain rfl := (hs.fits_whole.id_inj hl' hl).1 hid
  exact lt_irrefl _ hlt

end

end Plan

/-- **No deadlock within an activation.** If a function that passes the check and defines results
before it uses them is lowered, no node of the graph waits for itself. -/
theorem Session.lower_acyclic {σ : Type} {s : Session} {f : Function} {d : Disambiguator σ}
    {oracle : σ} {g : Graph} (hf : f.check = .ok ()) (hstrict : f.Strict)
    (hg : (s.lower f d oracle).result = .ok g) (n : NodeId) : ¬ TransGen g.Enables n n := by
  obtain ⟨p, cs, hp, -, hrounds, hcs, hmem, hsup, -, rfl⟩ :=
    lower_eq_ok (Function.check_eq_ok_iff.1 hf) hg
  have hscope : p.Scope _ (p.lowered d oracle s.options cs) :=
    hp.scope_lowered hcs s.options s.uids.next
  refine hscope.not_transGen_enables hsup (Function.strict_of_rounds hrounds hstrict) ?_ n
  intro q hq
  have hconflict := (hmem q).1 ((d.aliasing_sublist cs _).subset hq)
  exact ⟨(Plan.mem_accessList_of_mem_orders hcs hq).1, hconflict.2.2⟩

/-- A loop that walks along a list and writes into its cells. -/
def Function.listWalk : Function where
  name := "walk"
  params := [⟨"more", .int .w1⟩, ⟨"list", .ptr⟩]
  globals := []
  blocks := [
    ⟨0, "entry", [], .jump 1⟩,
    ⟨1, "head", [.phi 0 .ptr [(0, .arg 1), (2, .inst 1)]], .branch (.arg 0) 2 3⟩,
    ⟨2, "body", [.load 1 .ptr (.inst 0), .store (.inst 1) (.inst 0)], .jump 1⟩,
    ⟨3, "done", [.store (.inst 0) (.arg 1)], .ret (some (.inst 0))⟩]

theorem Function.strict_listWalk : Function.listWalk.Strict := by
  have hreach : listWalk.Reachable 1 := .single ⟨_, rfl, by decide⟩
  -- the head is the only way into the body and out of the loop
  have hdom : ∀ b, b = 2 ∨ b = 3 → listWalk.Dominates 1 b := by
    intro b hb
    refine .of_preds (hreach.tail ⟨_, rfl, ?_⟩) ?_ fun u _ ⟨c, hc, hv⟩ => ?_
    · rcases hb with rfl | rfl <;> decide
    · rcases hb with rfl | rfl <;> decide
    · have hu : u = 1 := by
        rcases hb with rfl | rfl <;> rcases u with _ | _ | _ | _ | u <;> cases hc <;>
          revert hv <;> decide
      rw [hu]
      exact .refl hreach
  have hphi : ∀ b k, b = 2 ∨ b = 3 → listWalk.Available 0 b k := fun b k hb =>
    ⟨1, 0, ⟨_, _, rfl, rfl, rfl⟩, .inr ⟨by rcases hb with rfl | rfl <;> decide, hdom b hb⟩⟩
  have hload : listWalk.DefinesAt 1 2 0 := ⟨_, _, rfl, rfl, rfl⟩
  refine ⟨?_, ?_, ?_⟩
  · intro b c hc hr k i hi hplain id hid
    rcases b with _ | _ | _ | _ | b <;> cases hc
    · cases hi
    · rcases k with _ | k <;> cases hi
      cases hplain
    · rcases k with _ | _ | k <;> cases hi
      · cases List.mem_singleton.1 hid
        exact hphi 2 0 (.inl rfl)
      · obtain hid | hid := List.mem_pair.1 hid <;> cases hid
        · exact ⟨2, 0, hload, .inl ⟨rfl, Nat.zero_lt_one⟩⟩
        · exact hphi 2 1 (.inl rfl)
    · rcases k with _ | k <;> cases hi
      obtain hid | hid := List.mem_pair.1 hid <;> cases hid
      exact hphi 3 0 (.inr rfl)
  · intro b c hc hr id hid
    rcases b with _ | _ | _ | _ | b <;> cases hc
    · cases hid
    · cases List.mem_singleton.1 hid
    · cases hid
    · cases List.mem_singleton.1 hid
      exact hphi 3 1 (.inr rfl)
  · intro b c hc hr dest ty incoming hi u id hu hru
    rcases b with _ | _ | _ | _ | b <;> cases hc
    · cases hi
    · cases List.mem_singleton.1 hi
      obtain hu | hu := List.mem_pair.1 hu <;> cases hu
      exact ⟨2, 0, hload, .refl hru⟩
    · obtain hi | hi := List.mem_pair.1 hi <;> cases hi
    · cases List.mem_singleton.1 hi

theorem Session.lower_acyclic_listWalk : Function.listWalk.check = .ok () ∧
    Function.listWalk.Strict ∧
    ∃ g, (({} : Session).lower Function.listWalk .single ()).result = .ok g ∧
      ∀ n, ¬ TransGen g.Enables n n := by
  have hok : (({} : Session).lower Function.listWalk .single ()).result.isOk = true := by
    decide +kernel
  cases hg : (({} : Session).lower Function.listWalk .single ()).result with
  | error e =>
    rw [hg] at hok
    cases hok
  | ok g =>
    exact ⟨by decide, Function.strict_listWalk, g, rfl,
      lower_acyclic (by decide) Function.strict_listWalk hg⟩

end Dataflow
