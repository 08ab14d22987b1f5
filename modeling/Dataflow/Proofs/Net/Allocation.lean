import Dataflow.Proofs.Net.Rebinding

/-!
# What binding allocates

An access that is bound to a unit is meant to have its pair of ports there: one for requests and one for
responses (`Graph.Allocated`). `Net.bind` allocates the pair, except that it leaves an access alone that is
bound to the unit already, and does not look whether the pair is there. It may be missing: an edge of the
pair can be removed on its own, and an instruction can be added that names a unit from the start.

As long as no operation does one of these (`Op.keepsPairs`), every bound access has its pair
(`Graph.Allotted`), so that every successful `Net.bind` leaves the pair in place (`Net.bind_allocates`).
-/

namespace Dataflow

namespace Graph

/-- The access is bound to the unit. -/
def IsBound (g : Graph) (access unit : NodeId) : Prop :=
  ∃ i, g.kind? access = some (.instr i) ∧ i.op.memory? = some unit

/-- The access has one request port and one response port, both on the unit. -/
def Allocated (g : Graph) (access unit : NodeId) : Prop :=
  g.ports access .memReq = [unit] ∧ g.ports access .memResp = [unit]

instance (g : Graph) (access unit : NodeId) : Decidable (g.Allocated access unit) :=
  inferInstanceAs (Decidable (_ ∧ _))

/-- Every bound access has its pair of ports on its unit. -/
def Allotted (g : Graph) : Prop :=
  ∀ access unit, g.IsBound access unit → g.Allocated access unit

section
variable {g g' : Graph}

theorem IsBound.unique {access unit unit' : NodeId} (h : g.IsBound access unit)
    (h' : g.IsBound access unit') : unit = unit' := by
  obtain ⟨i, hi, hunit⟩ := h
  obtain ⟨i', hi', hunit'⟩ := h'
  obtain rfl := NodeKind.instr.inj (Option.some.inj (hi.symm.trans hi'))
  exact Option.some.inj (hunit.symm.trans hunit')

theorem Allocated.congr {access unit : NodeId} (h : g.Allocated access unit)
    (hports : ∀ s, s = .memReq ∨ s = .memResp → g'.ports access s = g.ports access s) :
    g'.Allocated access unit :=
  ⟨(hports _ (.inl rfl)).trans h.1, (hports _ (.inr rfl)).trans h.2⟩

/-! ## Rebinding -/

/-- An access without memory ports that is served by a unit gets its pair there. -/
theorem allocated_serve {access unit : NodeId} {k : AccessKind} (ha : access < g.nodes.length)
    (hu : unit < g.nodes.length) (hreq : g.ports access .memReq = [])
    (hresp : g.ports access .memResp = []) : (g.serve k access unit).Allocated access unit := by
  constructor
  · rw [ports_serve_memory ha hu (.inl rfl), hreq, if_pos rfl, List.nil_append]
  · rw [ports_serve_memory ha hu (.inr rfl), hresp, if_pos rfl, List.nil_append]

/-- Parting an access from a unit leaves the memory ports of other nodes. -/
theorem Coherent.ports_unserve_of_ne (hg : g.Coherent) {access unit n : NodeId} (hne : access ≠ n)
    (k : AccessKind) {s : Slot} (hs : s = .memReq ∨ s = .memResp) :
    (g.unserve k access unit).ports n s = g.ports n s := by
  have hslots : k.request.targetSlot ≠ s ∧ k.response.sourceSlot ≠ s := by
    rcases hs with rfl | rfl <;> cases k <;> decide
  rw [unserve, (hg.unlink k.request access unit).ports_unlink_of_ne (fun _ => hslots.2)
    fun h => absurd h hne, hg.ports_unlink_of_ne (fun h => absurd h hne) fun _ => hslots.1]

section
variable {access unit : NodeId} {i : InstrNode} {k : AccessKind}
variable (hi : g.kind? access = some (.instr i))
include hi

theorem isBound_rebind (hk : i.op.kind.access? = some k) :
    (g.rebind k access i.op.memory? unit).IsBound access unit := by
  unfold rebind
  split
  · rename_i hsame
    exact ⟨i, hi, hsame⟩
  · refine ⟨{ i with op := i.op.withMemory unit }, ?_, Opcode.memory?_withMemory hk unit⟩
    rw [kind?_serve, if_pos rfl, kind?_parted, hi]
    rfl

variable (hg : g.Coherent) {r : Region} (hunit : g.kind? unit = some (.memory r))
include hg hunit

/-- An access that moves to a unit gets its pair of ports there. -/
theorem Coherent.allocated_rebind (hk : i.op.kind.access? = some k) (hmoves : i.op.memory? ≠ some unit) :
    (g.rebind k access i.op.memory? unit).Allocated access unit := by
  have hfree : (i.op.memory?.elim g (g.unserve k access)).ports access .memReq = [] ∧
      (i.op.memory?.elim g (g.unserve k access)).ports access .memResp = [] := by
    cases hold : i.op.memory? with
    | none => exact hg.unserved hi hk hold
    | some old => exact hg.ports_unserve hi hk hold
  rw [rebind, if_neg hmoves]
  refine allocated_serve ?_ ?_ hfree.1 hfree.2
  · rw [length_parted]
    exact lt_of_kind? hi
  · rw [length_parted]
    exact lt_of_kind? hunit

/-- Rebinding an access leaves the others as they are. -/
theorem Coherent.rebind_of_ne {n : NodeId} (hne : access ≠ n) :
    (g.rebind k access i.op.memory? unit).kind? n = g.kind? n ∧
      ∀ s, s = .memReq ∨ s = .memResp →
        (g.rebind k access i.op.memory? unit).ports n s = g.ports n s := by
  unfold rebind
  split
  · exact ⟨rfl, fun _ _ => rfl⟩
  · refine ⟨?_, fun s hs => ?_⟩
    · rw [kind?_serve, if_neg hne, kind?_parted]
    · rw [ports_serve_memory, if_neg hne, List.append_nil]
      · cases i.op.memory? with
        | none => rfl
        | some old => exact hg.ports_unserve_of_ne hne k hs
      · rw [length_parted]
        exact lt_of_kind? hi
      · rw [length_parted]
        exact lt_of_kind? hunit
      · exact hs

theorem Allotted.rebind (hk : i.op.kind.access? = some k) (h : g.Allotted) :
    (g.rebind k access i.op.memory? unit).Allotted := by
  intro n unit' hbound
  by_cases hne : access = n
  · subst hne
    obtain rfl := (isBound_rebind hi hk).unique hbound
    by_cases hmoves : i.op.memory? = some unit
    · rw [Graph.rebind, if_pos hmoves]
      exact h access unit ⟨i, hi, hmoves⟩
    · exact hg.allocated_rebind hi hunit hk hmoves
  · obtain ⟨hkind, hports⟩ := hg.rebind_of_ne (k := k) hi hunit hne
    obtain ⟨j, hj, hunit'⟩ := hbound
    exact (h n unit' ⟨j, hkind.symm.trans hj, hunit'⟩).congr hports

end

/-! ## Other acts -/

theorem Allotted.addNode (h : g.Allotted) (uid : Uid) {kind : NodeKind}
    (hkind : ∀ i, kind = .instr i → i.op.memory? = none) : (g.addNode { uid, kind }).Allotted := by
  rintro access unit ⟨i, hi, hunit⟩
  rcases kind?_addNode_cases hi with hold | hnew
  · exact (h access unit ⟨i, hold, hunit⟩).congr fun s _ => ports_addNode ..
  · cases (hkind i hnew.symm).symm.trans hunit

theorem Allotted.modifyKind (h : g.Allotted) (id : NodeId) {kind' : NodeKind}
    (hkind' : kind'.type ≠ .instr) : (g.modifyKind id fun _ => kind').Allotted := by
  rintro access unit ⟨i, hi, hunit⟩
  rw [kind?_modifyKind] at hi
  split at hi
  · obtain ⟨_, -, rfl⟩ := Option.map_eq_some_iff.1 hi
    exact absurd rfl hkind'
  · exact (h access unit ⟨i, hi, hunit⟩).congr fun s _ => ports_modifyKind ..

/-- An edge that can be added does not land in the memory ports of an access that has its pair. -/
theorem Allotted.link (h : g.Allotted) {kind : EdgeKind} {src dst : NodeId}
    (hdefect : g.edgeDefect? kind src dst = none) : (g.link kind src dst).Allotted := by
  obtain ⟨⟨source, target, hcarries⟩, hreq, hresp⟩ := edgeDefect?_eq_none_iff.1 hdefect
  rintro access unit ⟨i, hi, hunit⟩
  rw [kind?_link] at hi
  have hpair := h access unit ⟨i, hi, hunit⟩
  refine hpair.congr fun s hs => ?_
  have hspot : (g.nextEdge kind src dst).spot? access s = none := by
    rw [Edge.spot?, if_neg, if_neg]
    · rintro ⟨rfl, hslot⟩
      rcases hs with rfl | rfl
      · cases kind <;> cases hslot
      · cases (hresp hslot).symm.trans hpair.2
    · rintro ⟨rfl, hslot⟩
      rcases hs with rfl | rfl
      · cases (hreq hslot).symm.trans hpair.1
      · cases kind <;> cases hslot
  rw [ports_link (lt_of_kind? hcarries.kind_src) (lt_of_kind? hcarries.kind_dst), hspot]
  exact List.append_nil _

theorem Allotted.unlink (h : g.Allotted) (hg : g.Coherent) {kind : EdgeKind} (src dst : NodeId)
    (hreq : kind.sourceSlot ≠ .memReq) (hresp : kind.targetSlot ≠ .memResp) :
    (g.unlink kind src dst).Allotted := by
  rintro access unit ⟨i, hi, hunit⟩
  rw [kind?_unlink] at hi
  refine (h access unit ⟨i, hi, hunit⟩).congr fun s hs => ?_
  refine hg.ports_unlink_of_ne (fun _ hslot => ?_) fun _ hslot => ?_
  · rcases hs with rfl | rfl
    · exact hreq hslot
    · cases kind <;> cases hslot
  · rcases hs with rfl | rfl
    · cases kind <;> cases hslot
    · exact hresp hslot

end

end Graph

/-! ## Operations -/

/-- The operation adds no access that names a unit already, and removes no edge between an access and a
unit. -/
def Op.keepsPairs : Op → Bool
  | .addInstr _ code _ => code.memory?.isNone
  | .disconnect kind _ _ => kind.sourceSlot ≠ .memReq ∧ kind.targetSlot ≠ .memResp
  | _ => true

namespace Net

theorem Act.allotted {op : Op} (hop : op.keepsPairs = true) {net net' : Net} (hnet : net.Coherent)
    (hact : Act op net net') (h : net.Allotted) : net'.Allotted := by
  cases hact with
  | push htype => exact h.addNode _ fun i hi => absurd (congrArg NodeKind.type hi) htype
  | enroll hopcode =>
    subst hopcode
    refine Graph.Allotted.modifyKind (h.addNode _ ?_) _ NodeType.noConfusion
    rintro i ⟨⟩
    exact Option.isNone_iff_eq_none.1 hop
  | retouch _ hretouch =>
    refine h.modifyKind _ ?_
    cases hretouch <;> exact NodeType.noConfusion
  | link hdefect => exact h.link hdefect
  | unlink hopcode =>
    subst hopcode
    obtain ⟨hreq, hresp⟩ := of_decide_eq_true hop
    exact h.unlink hnet _ _ hreq hresp
  | bind _ hbinds =>
    cases hbinds with
    | intro hi hk hunit => exact h.rebind hi hnet hunit hk

/-- Operations that keep pairs leave every bound access with its pair. -/
theorem allotted_foldl_after {net : Net} (hnet : net.Coherent) (h : net.Allotted) {ops : List Op}
    (hops : ∀ op ∈ ops, op.keepsPairs = true) : (ops.foldl after net).Allotted := by
  induction ops generalizing net with
  | nil => exact h
  | cons op ops ih =>
    obtain ⟨hop, hops⟩ := List.forall_mem_cons.1 hops
    exact ih (coherent_of_moves (moves_after hnet op) hnet) (keep_after (Act.allotted hop) hnet h) hops

theorem start_allotted {name : String} {uids : Supply} {net : Net}
    (h : Net.start name uids = .ok net) : net.Allotted := by
  obtain ⟨-, rfl⟩ := start_eq_ok.1 h
  rintro access unit ⟨i, hi, -⟩
  cases access with
  | zero => cases hi
  | succ access => cases hi

/-- What a successful binding leaves behind, after any operations on a new net. The access is bound to the
unit. If it was bound to the unit before, nothing has changed; otherwise it has its pair of ports there.
If all operations kept pairs, it has its pair in both cases. -/
theorem bind_allocates {name : String} {uids : Supply} {first net net' : Net}
    (hstart : Net.start name uids = .ok first) {ops : List Op} (hops : ops.foldl after first = net)
    {access unit : NodeId} {reply : Op.Reply}
    (hrun : perform (.bind access unit) net = .ok reply net') :
    net'.IsBound access unit ∧
      (net.IsBound access unit → net' = net) ∧
      (¬ net.IsBound access unit → net'.Allocated access unit) ∧
      ((∀ op ∈ ops, op.keepsPairs = true) → net'.Allocated access unit) := by
  subst hops
  have hnet := (Reached.start hstart).steps ops |>.coherent
  obtain ⟨_, mid, hbind, hreply⟩ := run_bind_eq_ok hrun
  cases hreply
  rcases bind_settles hnet access unit with ⟨e, he⟩ | ⟨_, mid', hok, hbinds, -⟩
  · cases hbind.symm.trans he
  cases hbind.symm.trans hok
  cases hbinds with
  | @intro i k r hi hk hunit =>
    have hbound : Graph.IsBound _ access unit ↔ i.op.memory? = some unit :=
      ⟨fun ⟨j, hj, hunit⟩ => NodeKind.instr.inj (Option.some.inj (hi.symm.trans hj)) ▸ hunit,
        fun h => ⟨i, hi, h⟩⟩
    refine ⟨Graph.isBound_rebind hi hk, fun h => ?_, fun h => ?_, fun h => ?_⟩
    · rw [Graph.rebind, if_pos (hbound.1 h)]
      rfl
    · exact hnet.allocated_rebind hi hunit hk fun hsame => h (hbound.2 hsame)
    · exact (allotted_foldl_after (start_coherent hstart) (start_allotted hstart) h).rebind hi hnet hunit
        hk access unit (Graph.isBound_rebind hi hk)

/-- A new net. -/
def blank : Net :=
  { name := "blank", nodes := [{ uid := 0, kind := .split [] }], edges := [], entry := 0, uids := ⟨1⟩ }

/-- A load that is bound to a unit. -/
def binding : List Op :=
  [.addBlock 0 .plain, .addInstr 1 (.load .ptr none) (some 0), .addMemory 0, .bind 2 3]

/-- A load that is bound to a unit and then parted from it on one side. -/
def parting : List Op := binding ++ [.disconnect .memoryRead 2 3]

/-- Binding a load twice leaves its pair in place. If it loses its request in between, the second binding
succeeds as well, but the request is not made again. -/
theorem bind_allocates_parting :
    (perform (.bind 2 3) (binding.foldl after blank) = .ok .done (binding.foldl after blank) ∧
      (binding.foldl after blank).Allocated 2 3) ∧
    ∃ net', perform (.bind 2 3) (parting.foldl after blank) = .ok .done net' ∧
      net'.IsBound 2 3 ∧ net' = parting.foldl after blank ∧ ¬ net'.Allocated 2 3 ∧
      net'.ports 2 .memReq = [] := by
  have hstart : Net.start "blank" ⟨0⟩ = .ok blank := rfl
  have hrun : perform (.bind 2 3) (binding.foldl after blank) =
      .ok .done (binding.foldl after blank) := rfl
  have hrun' : perform (.bind 2 3) (parting.foldl after blank) =
      .ok .done (parting.foldl after blank) := rfl
  obtain ⟨-, -, -, hpair⟩ := bind_allocates hstart rfl hrun
  obtain ⟨hbound, -⟩ := bind_allocates hstart rfl hrun'
  exact ⟨⟨hrun, hpair (by decide)⟩, _, hrun', hbound, rfl, by decide +kernel, by decide +kernel⟩

end Net

end Dataflow
