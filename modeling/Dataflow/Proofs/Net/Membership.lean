import Dataflow.Proofs.Net.Rebinding
import Mathlib.Logic.Function.Basic

/-!
# Blocks and their members

An instruction names its block, and the block lists its phis and its other instructions. In a net that
operations reach, the two agree: a block lists exactly the instructions that name it, as phis exactly
those that select by a mask, and a phi selects by the mask of its own block (`Net.Reached.enrolled`).

The agreement depends only on the roles that nodes play for blocks (`Role`). Most acts leave all roles
as they are; two give a new node a role, and one of them enters the node in a block's list.
-/

namespace Dataflow

/-- What a node is to the blocks: one that lists its members, a member of one, or neither. -/
inductive Role
  | roll (phis instructions : List NodeId)
  | member (block : NodeId) (mask : Option NodeId)
  | other

def NodeKind.role : NodeKind → Role
  | .block b => .roll b.phis b.instructions
  | .instr i => .member i.block i.op.mask?
  | .loop _ | .arg .. | .global .. | .const _ | .memory _ | .split _ => .other

def Graph.role? (g : Graph) (n : NodeId) : Option Role := (g.kind? n).map NodeKind.role

/-- The role of a node that is no member and lists none. -/
def Role.Fresh (role : Role) : Prop := role = .roll [] [] ∨ role = .other

/-- Blocks list the members that name them, and members name a block. -/
structure Enrolled (role? : NodeId → Option Role) : Prop where
  listed {block phis instructions} (h : role? block = some (.roll phis instructions)) (n : NodeId) :
    (n ∈ phis ↔ role? n = some (.member block (some block))) ∧
      (n ∈ instructions ↔ role? n = some (.member block none))
  home {n block mask} (h : role? n = some (.member block mask)) :
    (mask = none ∨ mask = some block) ∧
      ∃ phis instructions, role? block = some (.roll phis instructions)

namespace Enrolled

theorem congr {role? role?' : NodeId → Option Role} (h : Enrolled role?) (heq : role?' = role?) :
    Enrolled role?' := heq ▸ h

section
variable {role? : NodeId → Option Role} (h : Enrolled role?) {n : NodeId} (hn : role? n = none)
include h hn

/-- No member names a node that does not exist. -/
theorem block_ne {m block : NodeId} {mask : Option NodeId}
    (hm : role? m = some (.member block mask)) : block ≠ n := by
  rintro rfl
  obtain ⟨-, phis, instructions, hblock⟩ := h.home hm
  cases hn.symm.trans hblock

/-- A new node has no part in any block. -/
theorem update_fresh {role : Role} (hrole : role.Fresh) :
    Enrolled (Function.update role? n (some role)) := by
  -- the new node is no member, and no member names it
  have hmember : ∀ m block mask, Function.update role? n (some role) m = some (.member block mask) ↔
      role? m = some (.member block mask) := by
    intro m block mask
    by_cases hm : m = n
    · subst hm
      rcases hrole with rfl | rfl <;> simp [hn]
    · rw [Function.update_of_ne hm]
  constructor
  · intro block phis instructions hroll m
    rw [hmember, hmember]
    by_cases hblock : block = n
    · subst hblock
      obtain ⟨rfl, rfl⟩ : phis = [] ∧ instructions = [] := by
        rcases hrole with rfl | rfl <;> simp_all
      have hnone : ∀ mask, role? m ≠ some (.member block mask) := fun _ hm => h.block_ne hn hm rfl
      simp [hnone]
    · rw [Function.update_of_ne hblock] at hroll
      exact h.listed hroll m
  · intro m block mask hm
    rw [hmember] at hm
    rw [Function.update_of_ne (h.block_ne hn hm)]
    exact h.home hm

omit h in
/-- Once a new node has become a member of a block, the members are those there were and this one. -/
theorem update_eq_member_iff {block : NodeId} {phis instructions phis' instructions' : List NodeId}
    (hblock : role? block = some (.roll phis instructions)) {mask : Option NodeId} {m block' : NodeId}
    {mask' : Option NodeId} :
    Function.update (Function.update role? n (some (.member block mask))) block
        (some (.roll phis' instructions')) m = some (.member block' mask') ↔
      role? m = some (.member block' mask') ∨ m = n ∧ block' = block ∧ mask' = mask := by
  have hne : n ≠ block := by
    rintro rfl
    cases hn.symm.trans hblock
  by_cases hm : m = block
  · subst hm
    simp [hblock, hne.symm]
  · rw [Function.update_of_ne hm]
    by_cases hm' : m = n
    · subst hm'
      simp [hn, eq_comm]
    · simp [hm']

/-- A new node becomes a member of a block, which then lists it. -/
theorem update_member {block : NodeId} {b : BlockNode} {code : Opcode}
    (hblock : role? block = some (.roll b.phis b.instructions))
    (hmask : ∀ m, code.mask? = some m → m = block) :
    Enrolled (Function.update (Function.update role? n (some (.member block code.mask?)))
      block (some (.roll (b.enroll code n).phis (b.enroll code n).instructions))) := by
  have hmask' : code.mask? = none ∨ code.mask? = some block := by
    cases hcode : code.mask? with
    | none => exact .inl rfl
    | some m => exact .inr (congrArg some (hmask m hcode))
  constructor
  · intro block' phis instructions hroll m
    rw [update_eq_member_iff hn hblock, update_eq_member_iff hn hblock]
    by_cases hb : block' = block
    · subst hb
      obtain ⟨hphis, hinstructions⟩ := h.listed hblock m
      rw [← hphis, ← hinstructions]
      simp only [Function.update_self, Option.some.injEq, Role.roll.injEq] at hroll
      obtain ⟨rfl, rfl⟩ := hroll
      rcases hmask' with hcode | hcode <;> simp [BlockNode.enroll, hcode]
    · rw [Function.update_of_ne hb] at hroll
      have hb' : block' ≠ n := by
        rintro rfl
        simp at hroll
      rw [Function.update_of_ne hb'] at hroll
      simpa [hb] using h.listed hroll m
  · intro m block' mask hm
    by_cases hb : block' = block
    · subst hb
      rw [Function.update_self]
      refine ⟨?_, _, _, rfl⟩
      rcases (update_eq_member_iff hn hblock).1 hm with hm | ⟨-, -, rfl⟩
      · exact (h.home hm).1
      · exact hmask'
    · rcases (update_eq_member_iff hn hblock).1 hm with hm | ⟨-, hb', -⟩
      · rw [Function.update_of_ne hb, Function.update_of_ne (h.block_ne hn hm)]
        exact h.home hm
      · exact absurd hb' hb

end

end Enrolled

namespace Graph

/-! ## Roles -/

section
variable {g : Graph}

theorem role?_addNode (node : Node) :
    (g.addNode node).role? = Function.update g.role? g.nodes.length (some node.kind.role) := by
  funext n
  by_cases hn : n = g.nodes.length
  · subst hn
    simp [role?, kind?, node?, addNode]
  · have hnode : (g.nodes ++ [node])[n]? = g.nodes[n]? := by
      rcases Nat.lt_or_gt_of_ne hn with hlt | hlt
      · exact List.getElem?_append_left hlt
      · rw [List.getElem?_eq_none (Nat.le_of_lt hlt), List.getElem?_eq_none]
        simpa using Nat.succ_le_of_lt hlt
    simp [role?, kind?, node?, addNode, hnode, hn]

theorem role?_length : g.role? g.nodes.length = none := by
  simp [role?, kind?, node?]

theorem role?_modifyKind {id : NodeId} {kind kind' : NodeKind} (hkind : g.kind? id = some kind) :
    (g.modifyKind id fun _ => kind').role? = Function.update g.role? id (some kind'.role) := by
  funext n
  rw [role?, kind?_modifyKind]
  by_cases hn : id = n
  · subst hn
    simp [hkind]
  · rw [if_neg hn, Function.update_of_ne (Ne.symm hn), role?]

theorem role?_eq_of_kind? {g' : Graph} (h : ∀ n, g'.kind? n = g.kind? n) : g'.role? = g.role? := by
  funext n
  rw [role?, h, role?]

theorem role_bindTo (unit : NodeId) (kind : NodeKind) : (kind.bindTo unit).role = kind.role := by
  cases kind with
  | instr i => obtain ⟨op, block, source⟩ := i; cases op <;> rfl
  | _ => rfl

theorem role?_rebind (k : AccessKind) (access : NodeId) (old : Option NodeId) (unit : NodeId) :
    (g.rebind k access old unit).role? = g.role? := by
  unfold rebind
  split
  · rfl
  · funext n
    rw [role?, kind?_serve, kind?_parted]
    split
    · rw [Option.map_map, role?]
      exact congrArg (Option.map · _) (funext (role_bindTo unit))
    · rfl

end

end Graph

namespace Net

theorem Retouches.role_eq {net : Net} {kind kind' : NodeKind} (h : Retouches net kind kind') :
    kind'.role = kind.role := by
  cases h with
  | split => rfl
  | block hphis hinstructions => simp only [NodeKind.role, hphis, hinstructions]
  | loop => rfl

theorem fresh_of_stored {kind : NodeKind} (htype : kind.type ≠ .instr) (hstored : kind.stored = []) :
    kind.role.Fresh := by
  cases kind with
  | block b =>
    have hmembers : b.members = [] := hstored
    obtain ⟨hinstructions, hphis⟩ := List.append_eq_nil_iff.1 hmembers
    exact .inl (by simp [NodeKind.role, *])
  | instr i => exact absurd rfl htype
  | _ => exact .inr rfl

theorem Act.enrolled {op : Op} {net net' : Net} (h : Act op net net') (hnet : Enrolled net.role?) :
    Enrolled net'.role? := by
  cases h with
  | push htype hstored =>
    rw [pushed, Graph.role?_addNode]
    exact hnet.update_fresh Graph.role?_length (fresh_of_stored htype hstored)
  | @enroll block b code source _ hblock hmask =>
    have hrole : net.role? block = some (.roll b.phis b.instructions) := by
      rw [Graph.role?, hblock]
      rfl
    have hpushed : (net.pushed (.instr { op := code, block, source })).role? =
        Function.update net.role? net.nodes.length (some (.member block code.mask?)) :=
      Graph.role?_addNode _
    refine (hnet.update_member Graph.role?_length hrole hmask).congr ?_
    rw [← hpushed]
    exact Graph.role?_modifyKind (Graph.kind?_addNode hblock)
  | @retouch id kind kind' hkind hretouch =>
    refine hnet.congr ((Graph.role?_modifyKind hkind).trans ?_)
    rw [hretouch.role_eq, Function.update_eq_self_iff, Graph.role?, hkind]
    rfl
  | link => exact hnet.congr (Graph.role?_eq_of_kind? (Graph.kind?_link _ _ _))
  | unlink => exact hnet.congr (Graph.role?_eq_of_kind? (Graph.kind?_unlink _ _ _))
  | bind _ hbinds =>
    cases hbinds with
    | intro => exact hnet.congr (Graph.role?_rebind ..)

theorem start_enrolled {name : String} {uids : Supply} {net : Net}
    (h : Net.start name uids = .ok net) : Enrolled net.role? := by
  obtain ⟨-, rfl⟩ := start_eq_ok.1 h
  have hrole : ∀ n role, Graph.role? ⟨name, [{ uid := uids.next, kind := .split [] }], [], 0⟩ n =
      some role → role = .other := by
    intro n role hrole
    cases n with
    | zero => exact (Option.some.inj hrole).symm
    | succ n => cases hrole
  constructor
  · intro block phis instructions hroll
    cases hrole _ _ hroll
  · intro n block mask hmember
    cases hrole _ _ hmember

theorem Reached.enrolled {net : Net} (h : net.Reached) : Enrolled net.role? := by
  induction h with
  | start h => exact start_enrolled h
  | @step net hreached op ih =>
    exact keep_after (fun _ hact => hact.enrolled) hreached.coherent ih

end Net

/-! ## What blocks list -/

theorem Graph.role?_eq_member {g : Graph} {n block : NodeId} {mask : Option NodeId} :
    g.role? n = some (.member block mask) ↔
      ∃ i, g.kind? n = some (.instr i) ∧ i.block = block ∧ i.op.mask? = mask := by
  rw [role?, Option.map_eq_some_iff]
  constructor
  · rintro ⟨kind, hkind, hrole⟩
    cases kind with
    | instr i =>
      obtain ⟨hblock, hmask⟩ := Role.member.inj hrole
      exact ⟨i, hkind, hblock, hmask⟩
    | _ => cases hrole
  · rintro ⟨i, hi, rfl, rfl⟩
    exact ⟨_, hi, rfl⟩

theorem Graph.role?_eq_roll {g : Graph} {n : NodeId} {phis instructions : List NodeId} :
    g.role? n = some (.roll phis instructions) ↔
      ∃ b, g.kind? n = some (.block b) ∧ b.phis = phis ∧ b.instructions = instructions := by
  rw [role?, Option.map_eq_some_iff]
  constructor
  · rintro ⟨kind, hkind, hrole⟩
    cases kind with
    | block b =>
      obtain ⟨hphis, hinstructions⟩ := Role.roll.inj hrole
      exact ⟨b, hkind, hphis, hinstructions⟩
    | _ => cases hrole
  · rintro ⟨b, hb, rfl, rfl⟩
    exact ⟨_, hb, rfl⟩

section
variable {g : Graph} (hg : Enrolled g.role?) {block n : NodeId}
include hg

/-- The phis of a block are the instructions of the block that select by its mask. -/
theorem Enrolled.mem_phis {b : BlockNode} (hb : g.kind? block = some (.block b)) : n ∈ b.phis ↔
    ∃ predecessors source, g.kind? n = some (.instr ⟨.phi block predecessors, block, source⟩) := by
  rw [(hg.listed (Graph.role?_eq_roll.2 ⟨b, hb, rfl, rfl⟩) n).1, Graph.role?_eq_member]
  constructor
  · rintro ⟨⟨op, block, source⟩, hi, rfl, hmask⟩
    cases op with
    | phi mask predecessors =>
      obtain rfl : mask = block := Option.some.inj hmask
      exact ⟨predecessors, source, hi⟩
    | _ => cases hmask
  · rintro ⟨predecessors, source, hi⟩
    exact ⟨_, hi, rfl, rfl⟩

/-- A block lists the instructions that name it. -/
theorem Enrolled.mem_members {b : BlockNode} (hb : g.kind? block = some (.block b)) :
    n ∈ b.members ↔ ∃ i, g.kind? n = some (.instr i) ∧ i.block = block := by
  obtain ⟨hphis, hinstructions⟩ := hg.listed (Graph.role?_eq_roll.2 ⟨b, hb, rfl, rfl⟩) n
  rw [BlockNode.members, List.mem_append, hphis, hinstructions, Graph.role?_eq_member,
    Graph.role?_eq_member]
  constructor
  · rintro (⟨i, hi, hblock, -⟩ | ⟨i, hi, hblock, -⟩) <;> exact ⟨i, hi, hblock⟩
  · rintro ⟨i, hi, rfl⟩
    rcases (hg.home (Graph.role?_eq_member.2 ⟨i, hi, rfl, rfl⟩)).1 with hmask | hmask
    · exact .inr ⟨i, hi, rfl, hmask⟩
    · exact .inl ⟨i, hi, rfl, hmask⟩

/-- An instruction belongs to a block that lists it. -/
theorem Enrolled.exists_block {i : InstrNode} (hi : g.kind? n = some (.instr i)) :
    ∃ b, g.kind? i.block = some (.block b) ∧ n ∈ b.members := by
  obtain ⟨-, phis, instructions, hroll⟩ := hg.home (Graph.role?_eq_member.2 ⟨i, hi, rfl, rfl⟩)
  obtain ⟨b, hb, -, -⟩ := Graph.role?_eq_roll.1 hroll
  exact ⟨b, hb, (hg.mem_members hb).2 ⟨i, hi, rfl⟩⟩

end

end Dataflow
