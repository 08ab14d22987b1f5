import Dataflow.Proofs.Net.Membership
import Dataflow.Proofs.Net.Printing

/-!
# How control arrives

What a finished graph says about the control inputs of its blocks.

A phi selects the data input that has the position at which control arrived. The audit asks for one data
input for each predecessor and for control inputs from the predecessors in the same order, but it does not
count the control inputs: a block may have more of them than its phi has predecessors, and a token that
arrives at one of these selects nothing (`Net.finish_selects`).

A loop declares its latches, the blocks that control goes back to the head from. The audit counts: one
control input of the head comes from outside of the loop, and as many come from inside as there are latches.
Which blocks these are it does not compare. The latches are the blocks of the back edges if one of two
inclusions holds, and need not be in general (`Net.finish_backEdges`).
-/

namespace Dataflow

namespace Graph

section
variable (g : Graph)

/-- Control input `i` of a block comes from a member of a block that stands for `origin`. -/
def ArrivesFrom (block : NodeId) (i : Nat) (origin : BlockId) : Prop :=
  ∃ ctrl home b, (g.ports block .ctrlIn)[i]? = some ctrl ∧ g.kind? home = some (.block b) ∧
    b.block = origin ∧ ctrl ∈ b.members

/-- Control that arrives at a block, from wherever, selects an input of the phi: the one for the
predecessor that it comes from. -/
def Selects (block phi : NodeId) (predecessors : List BlockId) : Prop :=
  (g.ports phi .dataIn).length = (g.ports block .ctrlIn).length ∧
    ∀ i < (g.ports block .ctrlIn).length, ∃ origin, predecessors[i]? = some origin ∧
      g.ArrivesFrom block i origin

/-- A member of the block is a control input of the target. -/
def Feeds (block target : NodeId) : Prop :=
  ∃ b, g.kind? block = some (.block b) ∧ ∃ src ∈ b.members, src ∈ g.ports target .ctrlIn

/-- The block that a node belongs to. -/
def home? (n : NodeId) : Option NodeId :=
  match g.kind? n with
  | some (.instr i) => some i.block
  | _ => none

/-- The blocks of a loop that control goes back to the head from, one for each such control input. -/
def backBlocks (l : LoopNode) (head : NodeId) : List NodeId :=
  (g.ports head .ctrlIn).filterMap fun src => (g.home? src).filter (· ∈ l.blocks)

end

section
variable {g : Graph}

theorem home?_eq_some {n block : NodeId} :
    g.home? n = some block ↔ ∃ i, g.kind? n = some (.instr i) ∧ i.block = block := by
  unfold home?
  split
  · rename_i i hi
    simp [hi]
  · rename_i hkind
    constructor
    · exact fun h => nomatch h
    · rintro ⟨i, hi, -⟩
      exact absurd hi (hkind i)

/-- Control goes back from the blocks of the loop that feed the head. -/
theorem mem_backBlocks (hg : Enrolled g.role?) {l : LoopNode} {head block : NodeId} :
    block ∈ g.backBlocks l head ↔ block ∈ l.blocks ∧ g.Feeds block head := by
  simp only [backBlocks, List.mem_filterMap, Option.filter_eq_some_iff, decide_eq_true_eq, Feeds]
  constructor
  · rintro ⟨src, hsrc, hhome, hblock⟩
    obtain ⟨i, hi, rfl⟩ := home?_eq_some.1 hhome
    obtain ⟨b, hb, hmember⟩ := hg.exists_block hi
    exact ⟨hblock, b, hb, src, hmember, hsrc⟩
  · rintro ⟨hblock, b, hb, src, hmember, hsrc⟩
    exact ⟨src, hsrc, home?_eq_some.2 ((hg.mem_members hb).1 hmember), hblock⟩

/-! ## What the audit asks of a phi -/

theorem originOf_eq_some {ctrl : NodeId} {origin : BlockId} (h : g.originOf ctrl = .ok (some origin)) :
    ∃ i b, g.kind? ctrl = some (.instr i) ∧ g.kind? i.block = some (.block b) ∧ b.block = origin := by
  obtain ⟨node, hnode, h⟩ := bind_eq_ok.1 h
  split at h
  · rename_i i hi
    obtain ⟨home, hhome, h⟩ := bind_eq_ok.1 h
    obtain ⟨b, hb, horigin⟩ := Option.map_eq_some_iff.1 (pure_eq_ok.1 h)
    exact ⟨i, b, kind?_eq_some.2 ⟨node, lookup_eq_ok.1 hnode, Node.kind_of_instr? hi⟩,
      kind?_eq_some.2 ⟨home, lookup_eq_ok.1 hhome, Node.kind_of_block? hb⟩, horigin⟩
  · cases pure_eq_ok.1 h

theorem phi_of_audit (haudit : g.audit = .ok ()) {block phi : NodeId} {b : BlockNode}
    (hb : g.kind? block = some (.block b)) (hphi : phi ∈ b.phis) {predecessors : List BlockId}
    {source : Option InstId}
    (hkind : g.kind? phi = some (.instr ⟨.phi block predecessors, block, source⟩)) :
    (g.ports phi .dataIn).length = predecessors.length ∧
      predecessors.length ≤ (g.ports block .ctrlIn).length ∧
      ∀ input ∈ (g.ports block .ctrlIn).zip predecessors, g.originOf input.1 = .ok (some input.2) := by
  obtain ⟨node, hnode, hblock⟩ := kind?_eq_some.1 hb
  obtain ⟨phiNode, hphiNode, hphiKind⟩ := kind?_eq_some.1 hkind
  have hcheck := checkNode_of_audit haudit hnode
  simp only [checkNode, hblock, checkBlock] at hcheck
  obtain ⟨-, hcheck⟩ := seq_eq_ok.1 hcheck
  obtain ⟨-, hcheck⟩ := seq_eq_ok.1 hcheck
  have hcheck := forM_eq_ok.1 hcheck phi hphi
  have hlookup : g.node phi = .ok phiNode := lookup_eq_ok.2 hphiNode
  have hop : phiNode.instr?.map InstrNode.op = some (.phi block predecessors) := by
    rw [Node.instr?, hphiKind]
    rfl
  rw [checkPhi, hlookup, orFault_ok, ok_bind, hop] at hcheck
  obtain ⟨hdata, hcheck⟩ := seq_eq_ok.1 hcheck
  obtain ⟨hcontrol, hcheck⟩ := seq_eq_ok.1 hcheck
  rw [ports_eq hphiNode, ports_eq hnode]
  refine ⟨demand_eq_ok.1 hdata, demand_eq_ok.1 hcontrol, fun input hinput => ?_⟩
  obtain ⟨origin, horigin, hsame⟩ := bind_eq_ok.1 (forM_eq_ok.1 hcheck input hinput)
  rw [orFault_eq_ok.1 horigin, demand_eq_ok.1 hsame]

/-- The control inputs that a phi has predecessors for come from these. -/
theorem arrivesFrom_of_audit (hg : Enrolled g.role?) (haudit : g.audit = .ok ()) {block phi : NodeId}
    {b : BlockNode} (hb : g.kind? block = some (.block b)) (hphi : phi ∈ b.phis)
    {predecessors : List BlockId} {source : Option InstId}
    (hkind : g.kind? phi = some (.instr ⟨.phi block predecessors, block, source⟩)) {i : Nat}
    {origin : BlockId} (hi : predecessors[i]? = some origin) : g.ArrivesFrom block i origin := by
  obtain ⟨-, hle, horigins⟩ := phi_of_audit haudit hb hphi hkind
  have hlt : i < (g.ports block .ctrlIn).length :=
    Nat.lt_of_lt_of_le (List.getElem?_eq_some_iff.1 hi).1 hle
  obtain ⟨ctrl, hctrl⟩ : ∃ ctrl, (g.ports block .ctrlIn)[i]? = some ctrl :=
    ⟨_, List.getElem?_eq_getElem hlt⟩
  have hzip : (ctrl, origin) ∈ (g.ports block .ctrlIn).zip predecessors :=
    List.mem_of_getElem? (List.getElem?_zip_eq_some.2 ⟨hctrl, hi⟩)
  obtain ⟨instr, home, hinstr, hhome, horigin⟩ := originOf_eq_some (horigins _ hzip)
  exact ⟨ctrl, instr.block, home, hctrl, hhome, horigin, (hg.mem_members hhome).2 ⟨instr, hinstr, rfl⟩⟩

/-! ## What the audit counts of a loop -/

theorem isInside_eq_ok {l : LoopNode} {src : NodeId} {inside : Bool} (h : g.isInside l src = .ok inside) :
    inside = ((g.home? src).filter (· ∈ l.blocks)).isSome := by
  obtain ⟨node, hnode, h⟩ := bind_eq_ok.1 h
  have hkind : g.kind? src = some node.kind := kind?_eq_some.2 ⟨node, lookup_eq_ok.1 hnode, rfl⟩
  rw [← pure_eq_ok.1 h, home?, hkind, Node.instr?]
  cases node.kind with
  | instr i => by_cases hi : i.block ∈ l.blocks <;> simp [Option.filter, hi]
  | _ => rfl

/-- As many control inputs of the head come from inside of the loop as there are latches. -/
theorem Resolved.length_backBlocks {l : LoopNode} {head : NodeId} (h : g.Resolved l head) :
    (g.backBlocks l head).length = l.latches.length := by
  obtain ⟨inside, hinside, hentry⟩ := h.entry
  have hfanIn := h.fanIn
  rw [eq_map_of_mapM (fun _ _ => isInside_eq_ok) hinside, List.count, List.countP_map] at hentry
  rw [List.length_eq_countP_add_countP fun src => ((g.home? src).filter (· ∈ l.blocks)).isSome] at hfanIn
  rw [backBlocks, List.length_filterMap_eq_countP]
  have houtside : (g.ports head .ctrlIn).countP (fun src =>
      !((g.home? src).filter (· ∈ l.blocks)).isSome) = 1 := by
    rw [← hentry]
    exact List.countP_congr fun src _ => by simp
  simp only [Bool.not_eq_true, Bool.decide_eq_false] at hfanIn
  omega

section
variable (hg : Enrolled g.role?) {l : LoopNode} {head : NodeId} (h : g.Resolved l head)
include hg h

/-- Latches of which none is declared twice are the blocks of the back edges if each feeds the head. -/
theorem Resolved.perm_iff_latches (hnodup : l.latches.Nodup) :
    l.latches.Perm (g.backBlocks l head) ↔ ∀ latch ∈ l.latches, g.Feeds latch head := by
  constructor
  · exact fun hperm latch hlatch => ((mem_backBlocks hg).1 (hperm.mem_iff.1 hlatch)).2
  · intro hfeeds
    have hsubset : l.latches ⊆ g.backBlocks l head := fun latch hlatch =>
      (mem_backBlocks hg).2 ⟨h.latches_mem latch hlatch, hfeeds latch hlatch⟩
    exact (List.subperm_of_subset hnodup hsubset).perm_of_length_le
      (Nat.le_of_eq h.length_backBlocks)

/-- The blocks of back edges of which no two come from the same are the latches if each is one. -/
theorem Resolved.perm_iff_backBlocks (hnodup : (g.backBlocks l head).Nodup) :
    l.latches.Perm (g.backBlocks l head) ↔
      ∀ block ∈ l.blocks, g.Feeds block head → block ∈ l.latches := by
  constructor
  · exact fun hperm block hblock hfeeds => hperm.mem_iff.2 ((mem_backBlocks hg).2 ⟨hblock, hfeeds⟩)
  · intro hlatches
    have hsubset : g.backBlocks l head ⊆ l.latches := fun block hblock =>
      hlatches block ((mem_backBlocks hg).1 hblock).1 ((mem_backBlocks hg).1 hblock).2
    exact ((List.subperm_of_subset hnodup hsubset).perm_of_length_le
      (Nat.le_of_eq h.length_backBlocks.symm)).symm

end

end

end Graph

namespace Net

/-- What a phi of a finished graph selects by. It belongs to its block and selects by the block's mask. It
has one data input for each of its predecessors, and at most as many as the block has control inputs. Where
it has a predecessor, the control input at the same position comes from there. So all control that arrives
at the block selects an input of the phi exactly if there are as many data inputs as control inputs. -/
theorem finish_selects {net net' : Net} {g : Graph} (h : net.Reached) (hrun : finish net = .ok g net')
    {block : NodeId} {b : BlockNode} (hb : g.kind? block = some (.block b)) {phi : NodeId}
    (hphi : phi ∈ b.phis) :
    ∃ predecessors source, g.kind? phi = some (.instr ⟨.phi block predecessors, block, source⟩) ∧
      (g.ports phi .dataIn).length = predecessors.length ∧
      (g.ports phi .dataIn).length ≤ (g.ports block .ctrlIn).length ∧
      (∀ i origin, predecessors[i]? = some origin → g.ArrivesFrom block i origin) ∧
      (g.Selects block phi predecessors ↔
        (g.ports phi .dataIn).length = (g.ports block .ctrlIn).length) := by
  obtain ⟨rfl, haudit⟩ := finish_eq_ok hrun
  obtain ⟨predecessors, source, hkind⟩ := (h.enrolled.mem_phis hb).1 hphi
  obtain ⟨hdata, hcontrol, -⟩ := Graph.phi_of_audit haudit hb hphi hkind
  have harrives : ∀ i origin, predecessors[i]? = some origin → net.ArrivesFrom block i origin :=
    fun i origin hi => Graph.arrivesFrom_of_audit h.enrolled haudit hb hphi hkind hi
  refine ⟨predecessors, source, hkind, hdata, hdata ▸ hcontrol, harrives, fun hselects => hselects.1,
    fun hlength => ⟨hlength, fun i hi => ?_⟩⟩
  have hlt : i < predecessors.length := by
    rw [← hdata, hlength]
    exact hi
  exact ⟨_, List.getElem?_eq_getElem hlt, harrives i _ (List.getElem?_eq_getElem hlt)⟩

/-- A join that two branches lead to, with a phi that only knows the first of them. -/
def crossing : Net :=
  [.addBlock 0 .plain, .addBlock 1 .plain, .addBlock 2 .masked, .addInstr 1 (.branch [2, 3]) none,
    .addInstr 2 (.branch [3]) none, .addInstr 3 (.phi 3 [0]) none, .addConst (.ofWord { bits := 8 } 1),
    .activate 1 0, .connect .control 1 4, .activate 2 4, .activate 3 4, .connect .control 2 5,
    .connect .control 5 3, .connect .control 3 6, .connect .mask 3 6, .connect .data 7 6].foldl after
    { name := "crossing", nodes := [{ uid := 0, kind := .split [] }], edges := [], entry := 0
      uids := ⟨1⟩ }

/-- The join is finished, but control that comes by the second branch selects nothing. -/
theorem finish_selects_crossing : ∃ g net', finish crossing = .ok g net' ∧
    g.ArrivesFrom 3 0 0 ∧ (g.ports 3 .ctrlIn).length = 2 ∧ (g.ports 6 .dataIn).length = 1 ∧
    ¬ g.Selects 3 6 [0] := by
  have hreached : crossing.Reached := .steps (@Reached.start "crossing" ⟨0⟩ _ rfl) _
  have haudit : crossing.audit = .ok () := by decide +kernel
  have hfinish : finish crossing = .ok crossing.toGraph crossing := by rw [finish_run, haudit]
  obtain ⟨b, hb, hphi⟩ : ∃ b, crossing.kind? 3 = some (.block b) ∧ 6 ∈ b.phis :=
    ⟨{ block := 2, mode := .masked, activate := some 4, phis := [6] }, by decide +kernel, by decide⟩
  obtain ⟨predecessors, source, hkind, -, -, harrives, hselects⟩ :=
    finish_selects hreached hfinish hb hphi
  obtain ⟨rfl, rfl⟩ : predecessors = [0] ∧ source = none := by
    have hkind' : crossing.kind? 6 = some (.instr ⟨.phi 3 [0], 3, none⟩) := by decide +kernel
    cases hkind.symm.trans hkind'
    exact ⟨rfl, rfl⟩
  have hcontrol : (crossing.ports 3 .ctrlIn).length = 2 := by decide +kernel
  have hdata : (crossing.ports 6 .dataIn).length = 1 := by decide +kernel
  refine ⟨_, _, hfinish, harrives 0 0 rfl, hcontrol, hdata, fun h => ?_⟩
  rw [hselects, hcontrol, hdata] at h
  cases h

/-- How control goes around a loop of a finished graph. The loop has a head and latches among its blocks,
and if there are several latches, they are merged. One control input of the head comes from outside of the
loop, and as many come from inside as there are latches. If no latch is declared twice, then the latches are
the blocks of the back edges, one for one, exactly if each of them feeds the head; and if no two back edges
come from the same block, exactly if the blocks that feed the head are latches. -/
theorem finish_backEdges {net net' : Net} {g : Graph} (h : net.Reached) (hrun : finish net = .ok g net')
    {loop : NodeId} {l : LoopNode} (hl : g.kind? loop = some (.loop l)) :
    ∃ head, l.head = some head ∧ head ∈ l.blocks ∧
      l.latches ≠ [] ∧ (∀ latch ∈ l.latches, latch ∈ l.blocks) ∧
      (l.latches.length ≤ 1 ∨ l.merged = true) ∧
      (g.ports head .ctrlIn).length = 1 + (g.backBlocks l head).length ∧
      (g.backBlocks l head).length = l.latches.length ∧
      (l.latches.Nodup → (l.latches.Perm (g.backBlocks l head) ↔
        ∀ latch ∈ l.latches, g.Feeds latch head)) ∧
      ((g.backBlocks l head).Nodup → (l.latches.Perm (g.backBlocks l head) ↔
        ∀ block ∈ l.blocks, g.Feeds block head → block ∈ l.latches)) := by
  obtain ⟨rfl, haudit⟩ := finish_eq_ok hrun
  obtain ⟨head, hloop⟩ := Graph.loop_of_audit haudit hl
  have hlength := hloop.length_backBlocks
  exact ⟨head, hloop.head_eq, hloop.head_mem, hloop.latches_ne, hloop.latches_mem, hloop.merged,
    hlength ▸ hloop.fanIn, hlength, hloop.perm_iff_latches h.enrolled,
    hloop.perm_iff_backBlocks h.enrolled⟩

/-- A loop that goes back from its head and declares another of its blocks as its latch. -/
def detour : Net :=
  [.addBlock 0 .plain, .addBlock 1 .loopHead, .addBlock 2 .plain, .addLoop, .addInstr 1 (.branch [2]) none,
    .addInstr 2 (.branch [3, 2]) none, .addInstr 3 .ret none, .activate 1 0, .connect .control 1 5,
    .activate 2 5, .connect .control 2 6, .activate 3 6, .connect .control 6 2, .connect .control 3 7,
    .addLoopBlock 4 2, .addLoopBlock 4 3, .setLoopHead 4 2, .addLoopLatch 4 3].foldl after
    { name := "detour", nodes := [{ uid := 0, kind := .split [] }], edges := [], entry := 0
      uids := ⟨1⟩ }

/-- The loop is finished, but its latch does not feed its head. -/
theorem finish_backEdges_detour : ∃ g net' l, finish detour = .ok g net' ∧
    g.kind? 4 = some (.loop l) ∧ l.head = some 2 ∧ l.latches = [3] ∧ g.backBlocks l 2 = [2] ∧
    ¬ g.Feeds 3 2 := by
  have hreached : detour.Reached := .steps (@Reached.start "detour" ⟨0⟩ _ rfl) _
  have haudit : detour.audit = .ok () := by decide +kernel
  have hfinish : finish detour = .ok detour.toGraph detour := by rw [finish_run, haudit]
  let l : LoopNode := { head := some 2, latches := [3], blocks := [2, 3] }
  have hl : detour.kind? 4 = some (.loop l) := by decide +kernel
  have hback : detour.backBlocks l 2 = [2] := by decide +kernel
  obtain ⟨head, hhead, -, -, -, -, -, -, hlatches, -⟩ := finish_backEdges hreached hfinish hl
  obtain rfl : 2 = head := Option.some.inj hhead
  refine ⟨_, _, l, hfinish, hl, rfl, rfl, hback, fun hfeeds => ?_⟩
  have hperm := (hlatches (List.nodup_singleton 3)).2 fun latch hlatch =>
    List.mem_singleton.1 hlatch ▸ hfeeds
  rw [hback] at hperm
  cases List.singleton_perm_singleton.1 hperm

end Net

end Dataflow
