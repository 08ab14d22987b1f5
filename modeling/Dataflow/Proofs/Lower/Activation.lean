import Dataflow.Proofs.Lower.Regions

/-!
# Everything is activated

A node is activated by a token from another one along a control edge, but not from a latch to the head
of its loop (`Graph.Activates`): such a token is there only once the loop has run. `Graph.Activated` says
that every block, every instruction and every split call is activated from the entry in this way, and
that a block takes as its activation a control input that is no latch. `Session.lower_activated`: lowered
functions are.

A block is activated along a way through the function without back edges (`Flow.reaches_forward`).
-/

namespace Dataflow

open Relation

namespace Graph

/-! ## The specification -/

/-- A token goes from one node to another without going around a loop. -/
def Activates (g : Graph) (n m : NodeId) : Prop :=
  ∃ e ∈ g.edges, e.kind = .control ∧ ¬ g.IsLatch e ∧ e.src = n ∧ e.dst = m

/-- Everything that waits for a token gets one from the entry, before any loop goes around. -/
structure Activated (g : Graph) : Prop where
  blocks : ∀ n bn, g.kind? n = some (.block bn) → ReflTransGen g.Activates g.entry n
  instrs : ∀ n i, g.kind? n = some (.instr i) → ReflTransGen g.Activates g.entry n
  splits : ∀ n i callee split, g.kind? n = some (.instr i) → i.op = .call callee split →
    ReflTransGen g.Activates g.entry split
  inputs : ∀ n bn, g.kind? n = some (.block bn) → ∃ a, bn.activate = some a ∧
    a ∈ g.ports n .ctrlIn ∧ ∀ m l i, g.kind? m = some (.loop l) → l.head = some n →
      g.kind? a = some (.instr i) → i.block ∉ l.latches

end Graph

namespace Plan

variable {p : Plan} {o : Options} {F : Frame Label} {xs : List (Access × Option Region)}
  {ordered : List (Access × Access)}

section
variable (hs : p.Scope F (p.wires o xs ordered))
include hs

/-- The latches of a loop node are those of the block that it has as its head. -/
theorem Scope.mem_latches_of_head {u b : BlockId} (hu : p.function.Reachable u)
    (hb : p.function.Reachable b) {m : NodeId} {l : LoopNode}
    (hl : (F.net (p.whole o F xs ordered)).kind? m = some (.loop l))
    (hhead : l.head = some (F.id (.block b))) (hlatch : F.id (.block u) ∈ l.latches) :
    u ∈ p.flow.latches b := by
  obtain ⟨h, hh, -, rfl⟩ := hs.kind?_loop_iff.1 hl
  obtain rfl := hs.id_block_inj hh.reaches hb (Option.some.inj hhead)
  obtain ⟨v, hv, heq⟩ := List.mem_map.1 hlatch
  obtain rfl := hs.id_block_inj (hs.sound.mem_latches.1 hv).2.reaches hu heq
  exact hv

theorem Scope.kind?_exit {u : BlockId} (hu : p.function.Reachable u) :
    ∃ op, (F.net (p.whole o F xs ordered)).kind? (F.id (.exit u)) =
      some (.instr ⟨op, F.id (.block u), none⟩) :=
  ⟨_, hs.kind?_eq (l := .exit u) (mem_fullLabels (hs.sound.mem_baseLabels.2 hu))⟩

theorem Scope.kind?_entry : ∃ args, (F.net (p.whole o F xs ordered)).kind? (F.id .entry) =
    some (.split args) :=
  ⟨_, hs.kind?_eq (l := .entry) (mem_fullLabels (hs.sound.mem_baseLabels.2 trivial))⟩

omit hs in
/-- A wire for control carries activation unless it comes from a latch. -/
theorem activates_of_wire {l l' : Label} (hw : ⟨.control, l, l'⟩ ∈ p.controlWires)
    (hlatch : ∀ e : Edge, e.src = F.id l → e.dst = F.id l' →
      ¬ (F.net (p.whole o F xs ordered)).IsLatch e) :
    (F.net (p.whole o F xs ordered)).Activates (F.id l) (F.id l') := by
  have hmem : ⟨.control, l, l'⟩ ∈ p.wires o xs ordered :=
    List.mem_append_left _ (List.mem_append_left _ hw)
  obtain ⟨before, after, hsplit⟩ := List.append_of_mem hmem
  exact ⟨_, Frame.mem_edges.2 ⟨before, after, _, hsplit, rfl⟩, rfl, hlatch _ rfl rfl, rfl, rfl⟩

omit hs in
/-- What is no branch is no latch. -/
theorem activates_of_kind {l l' : Label} (hw : ⟨.control, l, l'⟩ ∈ p.controlWires)
    {kind : NodeKind} (hkind : (F.net (p.whole o F xs ordered)).kind? (F.id l) = some kind)
    (hbranch : ∀ i succs, kind = .instr i → i.op ≠ .branch succs) :
    (F.net (p.whole o F xs ordered)).Activates (F.id l) (F.id l') := by
  refine activates_of_wire hw fun e hsrc _ => ?_
  rintro ⟨-, _, _, i, succs, -, -, hi, hop, -⟩
  rw [hsrc, hkind] at hi
  exact hbranch i succs (Option.some.inj hi) hop

/-! ## Ways through the graph -/

theorem Scope.activates_member {b : Block} (hb : b ∈ p.blocks) {m : Label} (hm : m ∈ p.members b.id) :
    (F.net (p.whole o F xs ordered)).Activates (F.id (.block b.id)) (F.id m) :=
  activates_of_kind (mem_controlWires.2 (.inr (.inr (.inl ⟨b, hb, m, hm, rfl⟩))))
    (hs.kind?_eq (mem_fullLabels (hs.sound.laid_block hb))) fun _ _ h => by cases h

theorem Scope.activates_succ {u v : BlockId} (hu : p.function.Reachable u)
    (he : Flow.IsForward p.function.Edge Function.entry u v) :
    (F.net (p.whole o F xs ordered)).Activates (F.id (.exit u)) (F.id (.block v)) := by
  have hp := hs.sound
  obtain ⟨b, hb, rfl⟩ := hp.exists_block hu
  refine activates_of_wire (mem_controlWires.2 (.inr (.inl
    ⟨b, hb, v, hp.describes.mem_succs.2 he.1, rfl⟩))) fun e hsrc hdst => ?_
  rintro ⟨-, m, l, i, _, hl, hhead, hi, -, hlatch⟩
  obtain ⟨op, hop⟩ := hs.kind?_exit hu
  rw [hsrc, hop] at hi
  cases hi
  rw [hdst] at hhead
  exact he.2 (hp.mem_latches.1 (hs.mem_latches_of_head hu (hu.tail he.1) hl hhead hlatch)).2

/-- A block is activated along a way without back edges. -/
theorem Scope.activated_block {b : BlockId} (hb : p.function.Reachable b) :
    ReflTransGen (F.net (p.whole o F xs ordered)).Activates (F.net (p.whole o F xs ordered)).entry
      (F.id (.block b)) := by
  have hentry : (F.net (p.whole o F xs ordered)).entry = F.id .entry := hs.id_entry.symm
  rw [hentry]
  have hway := Flow.reaches_forward hb
  clear hb
  induction hway with
  | refl =>
    obtain ⟨args, hargs⟩ := hs.kind?_entry
    exact .single (activates_of_kind (mem_controlWires.2 (.inl rfl)) hargs fun _ _ h => by cases h)
  | @tail u v hway he ih =>
    have hu : p.function.Reachable u := ReflTransGen.mono (fun _ _ h => h.1) _ _ hway
    obtain ⟨c, hc, rfl⟩ := hs.sound.exists_block hu
    exact (ih.tail (hs.activates_member hc (by simp [hs.sound.members_eq hc]))).tail (hs.activates_succ hu he)

theorem Scope.activated_member {b : Block} (hb : b ∈ p.blocks) {m : Label} (hm : m ∈ p.members b.id) :
    ReflTransGen (F.net (p.whole o F xs ordered)).Activates (F.net (p.whole o F xs ordered)).entry
      (F.id m) :=
  (hs.activated_block (hs.sound.mem_blocks.1 hb).2).tail (hs.activates_member hb hm)

/-- An instruction is a member of a block. -/
theorem Scope.exists_member (hcomplete : p.Complete) {n : NodeId} {i : InstrNode}
    (hn : (F.net (p.whole o F xs ordered)).kind? n = some (.instr i)) :
    ∃ b ∈ p.blocks, ∃ m ∈ p.members b.id, F.id m = n := by
  obtain ⟨bn, hbn, hmem⟩ := (hs.laidOut hcomplete).owned n i hn
  obtain ⟨c, hc, -, rfl⟩ := hs.kind?_block_iff.1 hbn
  obtain ⟨b, hb, rfl⟩ := hs.sound.exists_block hc
  rw [hs.members_blockNodeAt hb] at hmem
  exact ⟨b, hb, List.mem_map.1 hmem⟩

/-- A call activates its split call. -/
theorem Scope.activates_split {b : Block} (hb : b ∈ p.blocks) {m : Label} (hm : m ∈ p.members b.id)
    {i : InstrNode} {callee : String} {split : NodeId}
    (hn : (F.net (p.whole o F xs ordered)).kind? (F.id m) = some (.instr i))
    (hcall : i.op = .call callee split) :
    (F.net (p.whole o F xs ordered)).Activates (F.id m) split := by
  have hp := hs.sound
  have hlaid := hp.laid_member hb hm
  have hkind := hs.kind?_eq (mem_fullLabels hlaid)
  rw [hp.members_eq hb, List.mem_append, List.mem_singleton, List.mem_map] at hm
  rcases hm with ⟨k, hk, rfl⟩ | rfl
  · obtain ⟨j, hj⟩ : ∃ j, b.body[k]? = some j :=
      ⟨_, List.getElem?_eq_getElem (List.mem_range.1 hk)⟩
    have hinstr := (hp.instr?_eq hb k).trans hj
    rw [kindOf_instr hinstr, hn] at hkind
    obtain rfl := NodeKind.instr.inj (Option.some.inj hkind)
    have hperforms : Performs j (p.opcodeAt F.id (p.wires o xs ordered) b.id k j) :=
      performs_opcodeAt b.id k j
    have hop : p.opcodeAt F.id (p.wires o xs ordered) b.id k j = .call callee split := hcall
    rw [hop] at hperforms
    cases hperforms with
    | @call dest _ args _ =>
      rw [opcodeAt_of_not_access rfl] at hop
      obtain rfl : F.id (.split b.id k) = split := (Opcode.call.inj hop).2
      refine activates_of_kind (mem_controlWires.2 (.inr (.inr (.inr ⟨_, hlaid,
        mem_callWire?.2 ⟨b.id, k, dest, callee, args, hinstr, rfl, rfl⟩⟩)))) hn ?_
      rintro _ succs ⟨⟩ hbranch
      exact Opcode.noConfusion (hcall.symm.trans hbranch)
  · rw [hn] at hkind
    obtain rfl := NodeKind.instr.inj (Option.some.inj hkind)
    have hop : p.exitOp F.id b.id = .call callee split := hcall
    unfold exitOp at hop
    split at hop <;> cases hop

/-- What a block takes as its activation is the entry or a predecessor that is no latch. -/
theorem Scope.activate_eq {b : Block} (hb : b ∈ p.blocks) :
    ∃ l ∈ portsAt p.controlWires (.block b.id) .ctrlIn, p.fires b.id l = true ∧
      (p.blockNodeAt F.id (p.fullLabels (p.wires o xs ordered)) (p.wires o xs ordered) b.id).activate =
        some (F.id l) := by
  have hany := hs.activated hb
  cases hactivate : (p.blockNodeAt F.id (p.fullLabels (p.wires o xs ordered)) (p.wires o xs ordered)
      b.id).activate with
  | none =>
    rw [hactivate] at hany
    cases hany
  | some a =>
    obtain ⟨l, hl, rfl⟩ := Option.map_eq_some_iff.1 hactivate
    have hmem := List.mem_of_getLast? hl
    rw [portsAt_wires_ctrl (.inl rfl), List.mem_filter] at hmem
    exact ⟨l, hmem.1, hmem.2, rfl⟩

theorem Scope.activatedGraph (hcomplete : p.Complete) :
    (F.net (p.whole o F xs ordered)).Activated where
  blocks n bn hn := by
    obtain ⟨b, hb, rfl, -⟩ := hs.kind?_block_iff.1 hn
    exact hs.activated_block hb
  instrs n i hn := by
    obtain ⟨b, hb, m, hm, rfl⟩ := hs.exists_member hcomplete hn
    exact hs.activated_member hb hm
  splits n i callee split hn hcall := by
    obtain ⟨b, hb, m, hm, rfl⟩ := hs.exists_member hcomplete hn
    exact (hs.activated_member hb hm).tail (hs.activates_split hb hm hn hcall)
  inputs n bn hn := by
    have hp := hs.sound
    obtain ⟨b, hr, rfl, rfl⟩ := hs.kind?_block_iff.1 hn
    obtain ⟨b, hb, rfl⟩ := hp.exists_block hr
    obtain ⟨l, hl, hfires, hactivate⟩ := hs.activate_eq hb
    refine ⟨F.id l, hactivate, ?_, fun m loop i hloop hhead hi hlatch => ?_⟩
    · rw [hs.ctrl_eq (hp.laid_block hb) (.inl rfl)]
      exact List.mem_map_of_mem hl
    · rw [hp.ctrlIn_block hr, List.mem_append, List.mem_map] at hl
      rcases hl with hl | ⟨u, hu, rfl⟩
      · split at hl
        · obtain rfl := List.mem_singleton.1 hl
          obtain ⟨args, hargs⟩ := hs.kind?_entry
          rw [hargs] at hi
          cases hi
        · cases hl
      · have hur := ((hp.describes.mem_preds hp.wellFormed.toNumbered).1 hu).1
        obtain ⟨op, hop⟩ := hs.kind?_exit hur
        rw [hop] at hi
        cases hi
        -- the edge that fires a block is no back edge
        have hback := (List.mem_filter.1 (hs.mem_latches_of_head hur hr hloop hhead hlatch)).2
        have hforward := List.find?_some (of_decide_eq_true hfires)
        simp [hback] at hforward

end

end Plan

/-- **Everything is activated from the entry.** If a function that passes the check is lowered, every
block, instruction and split call of the graph gets a token before any loop goes around. -/
theorem Session.lower_activated {σ : Type} {s : Session} {f : Function} {d : Disambiguator σ}
    {oracle : σ} {g : Graph} (hf : f.check = .ok ()) (hg : (s.lower f d oracle).result = .ok g) :
    g.Activated := by
  obtain ⟨p, cs, hp, -, -, hcs, -, -, hcomplete, rfl⟩ :=
    lower_eq_ok (Function.check_eq_ok_iff.1 hf) hg
  have hscope : p.Scope _ (p.lowered d oracle s.options cs) :=
    hp.scope_lowered hcs s.options s.uids.next
  exact hscope.activatedGraph hcomplete

/-- Two nested loops, and a call in the inner one. -/
def Function.callingLoop : Function where
  name := "calling"
  params := [⟨"again", .int .w1⟩, ⟨"p", .ptr⟩]
  globals := []
  blocks := [
    ⟨0, "entry", [], .jump 1⟩,
    ⟨1, "outer", [.phi 0 .ptr [(0, .arg 1), (3, .inst 1)]], .jump 2⟩,
    ⟨2, "inner", [.call (some 1) "next" [.inst 0]], .branch (.arg 0) 2 3⟩,
    ⟨3, "again", [], .branch (.arg 0) 1 4⟩,
    ⟨4, "exit", [], .ret (some (.inst 1))⟩]

theorem Session.lower_activated_callingLoop : Function.callingLoop.check = .ok () ∧
    ∃ g, (({} : Session).lower Function.callingLoop .single ()).result = .ok g ∧ g.Activated := by
  have hok : (({} : Session).lower Function.callingLoop .single ()).result.isOk = true := by
    decide +kernel
  cases hg : (({} : Session).lower Function.callingLoop .single ()).result with
  | error e =>
    rw [hg] at hok
    cases hok
  | ok g => exact ⟨by decide, g, rfl, lower_activated (by decide) hg⟩

end Dataflow
