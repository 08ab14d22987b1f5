import Dataflow.Proofs.Net.Coherent
import Mathlib.Logic.Relation

/-!
# Nets that operations reach

Every operation on a net is made of four elementary moves: a node is added, the contents of a node are
revised, an edge without a defect is added, or an edge is removed (`Net.Move`). A node that is added or
revised refers to nodes that exist, where later checks rely on it (`NodeKind.Within`). An operation on a
coherent net either fails and leaves the net as it was, or succeeds by such moves
(`Net.perform_settles`). So every net that operations reach is coherent (`Net.Reached.coherent`), and
no failure leaves a trace (`Net.reached_perform_error`).

What an operation does is said more closely by its acts (`Net.Act`), each of which is made of moves
(`Net.Act.moves`): they keep blocks and their members together, and tell binding from other changes.

The one operation that makes changes before its last check is `Net.bind`, which releases the access
from its old unit first. The checks that follow cannot fail: the release leaves the access without
memory ports, since in a coherent net those lead to the old unit.
-/

namespace Dataflow

open Relation

/-- The nodes that a node of this kind stores are among the first `count`. Heads and latches of loops
and what an operation refers to may be anything. -/
def NodeKind.Within (count : Nat) (kind : NodeKind) : Prop := ∀ id ∈ kind.stored, id < count

theorem NodeKind.within_of_stored {kind : NodeKind} (h : kind.stored = []) (count : Nat) :
    kind.Within count := by
  simp [Within, h]

theorem NodeKind.Within.congr {count : Nat} {kind kind' : NodeKind} (h : kind.Within count)
    (hstored : kind'.stored = kind.stored) : kind'.Within count := by
  rwa [Within, hstored]

/-- What an access becomes when it is bound to a unit. -/
def NodeKind.bindTo (unit : NodeId) : NodeKind → NodeKind
  | .instr i => .instr { i with op := i.op.withMemory unit }
  | kind => kind

/-- The block with one more member. -/
def BlockNode.enroll (b : BlockNode) (op : Opcode) (id : NodeId) : BlockNode :=
  if op.mask?.isSome then { b with phis := b.phis ++ [id] }
  else { b with instructions := b.instructions ++ [id] }

theorem BlockNode.mem_members_enroll {b : BlockNode} {op : Opcode} {id m : NodeId}
    (h : m ∈ (b.enroll op id).members) : m ∈ b.members ∨ m = id := by
  unfold enroll at h
  split at h
  · simp only [members, List.mem_append, List.mem_singleton] at h ⊢
    tauto
  · simp only [members, List.mem_append, List.mem_singleton] at h ⊢
    tauto

namespace Graph

variable (g : Graph)

/-- Binds an access to a unit and joins the two, for its requests and its responses. -/
def serve (k : AccessKind) (access unit : NodeId) : Graph :=
  ((g.modifyKind access (NodeKind.bindTo unit)).link k.request access unit).link k.response unit access

/-- Parts an access from a unit. -/
def unserve (k : AccessKind) (access unit : NodeId) : Graph :=
  (g.unlink k.request access unit).unlink k.response unit access

/-- Binds an access that was bound to `old`. -/
def rebind (k : AccessKind) (access : NodeId) (old : Option NodeId) (unit : NodeId) : Graph :=
  if old = some unit then g else (old.elim g (g.unserve k access)).serve k access unit

variable {g} in
/-- An access that is parted from its unit has no memory ports. -/
theorem Coherent.ports_unserve (hg : g.Coherent) {access old : NodeId} {i : InstrNode} {k : AccessKind}
    (hi : g.kind? access = some (.instr i)) (hk : i.op.kind.access? = some k)
    (hold : i.op.memory? = some old) : (g.unserve k access old).ports access .memReq = [] ∧
      (g.unserve k access old).ports access .memResp = [] := by
  have hg' : (g.unlink k.request access old).Coherent := hg.unlink k.request access old
  constructor
  · rw [unserve, hg'.ports_unlink_of_ne, hg.memReq_unlink hi hk hold]
    · cases k <;> exact fun _ h => by cases h
    · cases k <;> exact fun _ h => by cases h
  · exact hg'.memResp_unlink ((kind?_unlink ..).trans hi) hk hold

end Graph

namespace Net

/-! ## Moves -/

/-- The net with one more node. -/
def pushed (net : Net) (kind : NodeKind) : Net where
  toGraph := net.addNode { uid := net.uids.next, kind }
  uids := ⟨net.uids.next + 1⟩

/-- The net with another graph and the same supply. -/
def withGraph (net : Net) (g : Graph) : Net := { net with toGraph := g }

inductive Move (net : Net) : Net → Prop
  | push {kind : NodeKind} (hwithin : kind.Within net.nodes.length) : Move net (net.pushed kind)
  | revise {id : NodeId} {kind kind' : NodeKind} (hkind : net.kind? id = some kind)
      (hrev : Graph.Revises (net.ports id .memReq ≠ [] ∨ net.ports id .memResp ≠ []) kind kind')
      (hwithin : kind.Within net.nodes.length → kind'.Within net.nodes.length) :
      Move net (net.withGraph (net.modifyKind id fun _ => kind'))
  | link {kind : EdgeKind} {src dst : NodeId} (hdefect : net.edgeDefect? kind src dst = none) :
      Move net (net.withGraph (net.link kind src dst))
  | unlink (kind : EdgeKind) (src dst : NodeId) :
      Move net (net.withGraph (net.unlink kind src dst))

theorem Move.coherent {net net' : Net} (h : Move net net') (hnet : net.Coherent) :
    net'.Coherent := by
  cases h with
  | push => exact hnet.addNode _ _
  | revise hkind hrev => exact hnet.revise hkind hrev
  | link hdefect => exact hnet.link hdefect
  | unlink kind src dst => exact hnet.unlink kind src dst

/-- What every move keeps, all moves together keep. -/
theorem keep_of_moves {keep : Net → Prop} (hmove : ∀ {net net'}, Move net net' → keep net → keep net')
    {net net' : Net} (h : ReflTransGen Move net net') (hnet : keep net) : keep net' := by
  induction h with
  | refl => exact hnet
  | tail _ hstep ih => exact hmove hstep ih

theorem coherent_of_moves {net net' : Net} (h : ReflTransGen Move net net')
    (hnet : net.Coherent) : net'.Coherent :=
  keep_of_moves Move.coherent h hnet

/-! ## Acts -/

/-- The net with one more member of a block. -/
def enrolled (net : Net) (block : NodeId) (b : BlockNode) (op : Opcode) (source : Option InstId) :
    Net :=
  let grown := net.pushed (.instr { op, block, source })
  grown.withGraph (grown.modifyKind block fun _ => .block (b.enroll op net.nodes.length))

/-- How a node is touched up: a block keeps its members, and a loop is given nothing but blocks. -/
inductive Retouches (net : Net) : NodeKind → NodeKind → Prop
  | split (arguments arguments' : List NodeId) :
      Retouches net (.split arguments) (.split arguments')
  | block {b b' : BlockNode} (hphis : b'.phis = b.phis)
      (hinstructions : b'.instructions = b.instructions) : Retouches net (.block b) (.block b')
  | loop {l l' : LoopNode}
      (hblocks : ∀ n ∈ l'.blocks, n ∈ l.blocks ∨ ∃ b, net.kind? n = some (.block b)) :
      Retouches net (.loop l) (.loop l')

/-- What binding an access to a unit makes of a net. -/
inductive Binds (net : Net) (access unit : NodeId) : Net → Prop
  | intro {i : InstrNode} {k : AccessKind} {r : Region} (hi : net.kind? access = some (.instr i))
      (hk : i.op.kind.access? = some k) (hunit : net.kind? unit = some (.memory r)) :
      Binds net access unit (net.withGraph (net.rebind k access i.op.memory? unit))

/-- One act of an operation. -/
inductive Act (op : Op) (net : Net) : Net → Prop
  | push {kind : NodeKind} (htype : kind.type ≠ .instr) (hstored : kind.stored = []) :
      Act op net (net.pushed kind)
  | enroll {block : NodeId} {b : BlockNode} {code : Opcode} {source : Option InstId}
      (hop : op = .addInstr block code source) (hblock : net.kind? block = some (.block b))
      (hmask : ∀ m, code.mask? = some m → m = block) :
      Act op net (net.enrolled block b code source)
  | retouch {id : NodeId} {kind kind' : NodeKind} (hkind : net.kind? id = some kind)
      (h : Retouches net kind kind') : Act op net (net.withGraph (net.modifyKind id fun _ => kind'))
  | link {kind : EdgeKind} {src dst : NodeId} (hdefect : net.edgeDefect? kind src dst = none) :
      Act op net (net.withGraph (net.link kind src dst))
  | unlink {kind : EdgeKind} {src dst : NodeId} (hop : op = .disconnect kind src dst) :
      Act op net (net.withGraph (net.unlink kind src dst))
  | bind {access unit : NodeId} {net' : Net} (hop : op = .bind access unit)
      (h : Binds net access unit net') : Act op net net'

/-! ## Success, and failure without a trace -/

section
variable {α β : Type} {net : Net}

/-- The operation succeeds, and what it answers and leaves behind is as stated. -/
def Succeeds (m : NetM α) (net : Net) (post : α → Net → Prop) : Prop :=
  ∃ a net', m net = .ok a net' ∧ post a net'

/-- The operation fails and leaves the net as it was, or it succeeds. -/
def Settles (m : NetM α) (net : Net) (post : α → Net → Prop) : Prop :=
  (∃ e, m net = .error e net) ∨ Succeeds m net post

theorem run_bind {m : NetM α} {k : α → NetM β} {a : α} {net' : Net} (h : m net = .ok a net') :
    (m >>= k) net = k a net' := by
  show EStateM.bind m k net = _
  rw [EStateM.bind, h]

theorem Succeeds.after {m : NetM α} {k : α → NetM β} {a : α} {net' : Net} {post : β → Net → Prop}
    (hrun : m net = .ok a net') (hk : Succeeds (k a) net' post) : Succeeds (m >>= k) net post := by
  unfold Succeeds
  rw [run_bind hrun]
  exact hk

theorem Succeeds.bind {m : NetM α} {k : α → NetM β} {mid : α → Net → Prop} {post : β → Net → Prop}
    (hm : Succeeds m net mid) (hk : ∀ a net', mid a net' → Succeeds (k a) net' post) :
    Succeeds (m >>= k) net post := by
  obtain ⟨a, net', hrun, hmid⟩ := hm
  exact .after hrun (hk a net' hmid)

/-- What has made no change yet may be followed by anything that settles. -/
theorem Settles.bind {m : NetM α} {k : α → NetM β} {found : α → Prop} {post : β → Net → Prop}
    (hm : Settles m net fun a net' => net' = net ∧ found a)
    (hk : ∀ a, found a → Settles (k a) net post) : Settles (m >>= k) net post := by
  rcases hm with ⟨e, he⟩ | ⟨a, net', hrun, rfl, ha⟩
  · refine .inl ⟨e, ?_⟩
    show EStateM.bind m k net = _
    rw [EStateM.bind, he]
  · unfold Settles Succeeds
    rw [run_bind hrun]
    exact hk a ha

/-- What settles may only be followed by what succeeds. -/
theorem Settles.andThen {m : NetM α} {k : α → NetM β} {mid : α → Net → Prop}
    {post : β → Net → Prop} (hm : Settles m net mid)
    (hk : ∀ a net', mid a net' → Succeeds (k a) net' post) : Settles (m >>= k) net post := by
  rcases hm with ⟨e, he⟩ | hm
  · refine .inl ⟨e, ?_⟩
    show EStateM.bind m k net = _
    rw [EStateM.bind, he]
  · exact .inr (hm.bind hk)

theorem Settles.imp {m : NetM α} {post post' : α → Net → Prop} (hm : Settles m net post)
    (h : ∀ a net', post a net' → post' a net') : Settles m net post' := by
  rcases hm with he | ⟨a, net', hrun, hpost⟩
  · exact .inl he
  · exact .inr ⟨a, net', hrun, h a net' hpost⟩

theorem Settles.of_eq_ok {m : NetM α} {post : α → Net → Prop} (hm : Settles m net post) {a : α}
    {net' : Net} (hrun : m net = .ok a net') : post a net' := by
  rcases hm with ⟨e, he⟩ | ⟨b, net'', hok, hpost⟩
  · cases hrun.symm.trans he
  · cases hrun.symm.trans hok
    exact hpost

theorem succeeds_pure {post : α → Net → Prop} {a : α} (h : post a net) :
    Succeeds (pure a) net post :=
  ⟨a, net, rfl, h⟩

/-! ## Reading -/

theorem getNode_settles (id : NodeId) :
    Settles (getNode id) net fun node net' => net' = net ∧ net.nodes[id]? = some node := by
  have hrun : getNode id net = attempt (orFault (net.node id)) net := rfl
  unfold Settles Succeeds
  rw [hrun, Graph.node]
  cases h : lookup net.nodes id with
  | error e => exact .inl ⟨_, rfl⟩
  | ok node => exact .inr ⟨node, net, rfl, rfl, lookup_eq_ok.1 h⟩

theorem getNode_run {id : NodeId} {node : Node} (h : net.nodes[id]? = some node) :
    getNode id net = .ok node net := by
  show attempt (orFault (net.node id)) net = _
  rw [Graph.node, lookup_eq_ok.2 h]
  rfl

theorem getBlock_settles (id : NodeId) :
    Settles (getBlock id) net fun b net' => net' = net ∧ net.kind? id = some (.block b) := by
  unfold Settles Succeeds getBlock
  split
  · rename_i b hb
    obtain ⟨node, hnode, hb⟩ := Option.bind_eq_some_iff.1 hb
    exact .inr ⟨b, net, rfl, rfl, Graph.kind?_eq_some.2 ⟨node, hnode, Node.kind_of_block? hb⟩⟩
  · exact .inl ⟨_, rfl⟩

theorem getLoop_settles (id : NodeId) :
    Settles (getLoop id) net fun l net' => net' = net ∧ net.kind? id = some (.loop l) := by
  unfold Settles Succeeds getLoop
  split
  · rename_i l hl
    obtain ⟨node, hnode, hl⟩ := Option.bind_eq_some_iff.1 hl
    exact .inr ⟨l, net, rfl, rfl, Graph.kind?_eq_some.2 ⟨node, hnode, Node.kind_of_loop? hl⟩⟩
  · exact .inl ⟨_, rfl⟩

theorem getBlock_run {id : NodeId} {b : BlockNode} (h : net.kind? id = some (.block b)) :
    getBlock id net = .ok b net := by
  obtain ⟨node, hnode, hkind⟩ := Graph.kind?_eq_some.1 h
  simp [getBlock, hnode, Node.block?, hkind]

theorem getLoop_run {id : NodeId} {l : LoopNode} (h : net.kind? id = some (.loop l)) :
    getLoop id net = .ok l net := by
  obtain ⟨node, hnode, hkind⟩ := Graph.kind?_eq_some.1 h
  simp [getLoop, hnode, Node.loop?, hkind]

/-! ## Writing -/

theorem push_settles (kind : NodeKind) :
    Settles (push kind) net fun id net' => id = net.nodes.length ∧ net' = net.pushed kind := by
  unfold Settles Succeeds push Supply.take
  by_cases h : net.uids.next < idLimit
  · exact .inr ⟨net.nodes.length, net.pushed kind, by simp only [h, if_true]; rfl, rfl, rfl⟩
  · exact .inl ⟨.fault .idsExhausted, by simp only [h, if_false]⟩

theorem modifyBlock_succeeds {id : NodeId} {b : BlockNode} (h : net.kind? id = some (.block b))
    (change : BlockNode → BlockNode) :
    Succeeds (modifyBlock id change) net fun _ net' =>
      net' = net.withGraph (net.modifyKind id fun _ => .block (change b)) :=
  ⟨(), _, run_bind (getBlock_run h), rfl⟩

theorem modifyLoop_succeeds {id : NodeId} {l : LoopNode} (h : net.kind? id = some (.loop l))
    (change : LoopNode → LoopNode) :
    Succeeds (modifyLoop id change) net fun _ net' =>
      net' = net.withGraph (net.modifyKind id fun _ => .loop (change l)) :=
  ⟨(), _, run_bind (getLoop_run h), rfl⟩

theorem connect_settles (kind : EdgeKind) (src dst : NodeId) :
    Settles (connect kind src dst) net fun _ net' => net.edgeDefect? kind src dst = none ∧
      net' = net.withGraph (net.link kind src dst) := by
  unfold Settles Succeeds connect
  split
  · exact .inr ⟨(), _, rfl, ‹_›, rfl⟩
  · exact .inl ⟨_, rfl⟩

theorem connect_succeeds {kind : EdgeKind} {src dst : NodeId}
    (h : net.edgeDefect? kind src dst = none) :
    Succeeds (connect kind src dst) net fun _ net' =>
      net' = net.withGraph (net.link kind src dst) := by
  rcases @connect_settles net kind src dst with ⟨e, he⟩ | ⟨_, net', hrun, -, hnet'⟩
  · simp [connect, h] at he
  · exact ⟨(), net', hrun, hnet'⟩

end

/-! ## What each operation does -/

section
variable {net : Net}

theorem lt_length_pushed (net : Net) (kind : NodeKind) :
    net.nodes.length < (net.pushed kind).nodes.length := by
  rw [show (net.pushed kind).nodes = net.nodes ++ [_] from rfl, List.length_append]
  exact Nat.lt_succ_self _

theorem addArgument_settles (split : NodeId) :
    Settles (addArgument split) net fun _ net' =>
      ReflTransGen (Act (.addArgument split)) net net' := by
  refine (getNode_settles split).bind fun node hnode => ?_
  split
  · rename_i arguments hkind
    refine (push_settles _).andThen fun arg net' hnet' => ?_
    obtain ⟨-, rfl⟩ := hnet'
    have hsplit : (net.pushed (.arg arguments.length split)).kind? split = some (.split arguments) :=
      Graph.kind?_addNode (Graph.kind?_eq_some.2 ⟨node, hnode, hkind⟩)
    exact ⟨arg, _, rfl, .tail (.single (.push NodeType.noConfusion rfl))
      (.retouch hsplit (.split _ (arguments ++ [arg])))⟩
  · exact .inl ⟨_, rfl⟩

theorem addInstr_settles (block : NodeId) (op : Opcode) (source : Option InstId) :
    Settles (addInstr block op source) net fun _ net' =>
      ReflTransGen (Act (.addInstr block op source)) net net' := by
  refine (getBlock_settles block).bind fun b hb => ?_
  by_cases hmask : op.mask?.any (· ≠ block) = true
  · simp only [hmask, if_true]
    exact .inl ⟨_, rfl⟩
  · simp only [hmask]
    refine (push_settles _).andThen fun id net' hnet' => ?_
    obtain ⟨rfl, rfl⟩ := hnet'
    have hblock : (net.pushed (.instr { op, block, source })).kind? block = some (.block b) :=
      Graph.kind?_addNode hb
    refine (modifyBlock_succeeds hblock _).bind fun _ net' hnet' => succeeds_pure ?_
    subst hnet'
    exact .single (.enroll rfl hb fun m hm => by simpa [hm] using hmask)

theorem modifyLoop_settles (op : Op) (loop : NodeId) {change : LoopNode → LoopNode}
    (hchange : ∀ l, (change l).blocks = l.blocks) :
    Settles (modifyLoop loop change) net fun _ net' => ReflTransGen (Act op) net net' :=
  (getLoop_settles loop).bind fun l hl => .inr ⟨(), _, rfl,
    .single (.retouch hl (.loop fun _ hn => .inl (hchange l ▸ hn)))⟩

theorem addLoopBlock_settles (loop block : NodeId) :
    Settles (addLoopBlock loop block) net fun _ net' =>
      ReflTransGen (Act (.addLoopBlock loop block)) net net' := by
  refine (getLoop_settles loop).bind fun l hl => ?_
  have hblock : Settles (modifyBlock block fun b => { b with parentLoop := some loop }) net
      fun _ net' => ∃ b, net.kind? block = some (.block b) ∧ net' = net.withGraph
        (net.modifyKind block fun _ => .block { b with parentLoop := some loop }) :=
    (getBlock_settles block).bind fun b hb => .inr ⟨(), _, rfl, b, hb, rfl⟩
  refine hblock.andThen fun _ net' hnet' => ?_
  obtain ⟨b, hb, rfl⟩ := hnet'
  -- the block is another node than the loop, which is still there
  have hne : block ≠ loop := fun h => by cases (h ▸ hb).symm.trans hl
  let touched := net.modifyKind block fun _ => .block { b with parentLoop := some loop }
  have hloop : touched.kind? loop = some (.loop l) := by
    rw [Graph.kind?_modifyKind, if_neg hne, hl]
  have hblock' : touched.kind? block = some (.block { b with parentLoop := some loop }) := by
    rw [Graph.kind?_modifyKind, if_pos rfl, hb]
    rfl
  obtain ⟨_, net'', hrun, hnet''⟩ := @modifyLoop_succeeds (net.withGraph _) loop l hloop
    fun l => { l with blocks := l.blocks ++ [block] }
  subst hnet''
  have htouch : Act (.addLoopBlock loop block) net (net.withGraph touched) :=
    .retouch hb (.block rfl rfl)
  refine ⟨(), _, hrun, .tail (.single htouch) (.retouch hloop (.loop fun m hm => ?_))⟩
  exact (List.mem_append.1 hm).imp_right fun hm => ⟨_, List.mem_singleton.1 hm ▸ hblock'⟩

/-- An edge into a block, recorded in the block. -/
theorem feed_settles (op : Op) (kind : EdgeKind) (block src : NodeId) {change : BlockNode → BlockNode}
    (hphis : ∀ b, (change b).phis = b.phis)
    (hinstructions : ∀ b, (change b).instructions = b.instructions) :
    Settles (do
      let _ ← getBlock block
      connect kind src block
      modifyBlock block change) net fun _ net' => ReflTransGen (Act op) net net' := by
  refine (getBlock_settles block).bind fun b hb => ?_
  refine (connect_settles kind src block).andThen fun _ net' hnet' => ?_
  obtain ⟨hdefect, rfl⟩ := hnet'
  have hblock : (net.link kind src block).kind? block = some (.block b) := by
    rw [Graph.kind?_link, hb]
  obtain ⟨_, net'', hrun, hnet''⟩ := @modifyBlock_succeeds (net.withGraph _) block b hblock change
  subst hnet''
  exact ⟨(), _, hrun, .tail (.single (.link hdefect))
    (.retouch hblock (.block (hphis b) (hinstructions b)))⟩

/-! ## Binding an access -/

/-- An access without memory ports can be bound to a unit and served. -/
theorem serve_succeeds {access unit : NodeId} {i : InstrNode} {k : AccessKind} {r : Region}
    (hi : net.kind? access = some (.instr i)) (hk : i.op.kind.access? = some k)
    (hunit : net.kind? unit = some (.memory r)) (hreq : net.ports access .memReq = [])
    (hresp : net.ports access .memResp = []) :
    Succeeds (do
      setMemory access unit
      connect k.request access unit
      connect k.response unit access) net fun _ net' =>
        net' = net.withGraph (net.serve k access unit) ∧ ReflTransGen Move net net' := by
  let bound : NodeKind := .instr { i with op := i.op.withMemory unit }
  let g := net.modifyKind access fun _ => bound
  have hg : net.modifyKind access (NodeKind.bindTo unit) = g := Graph.modifyKind_eq hi _
  -- the unit is recorded first: both edges ask for it
  have hset : setMemory access unit net = .ok () (net.withGraph g) :=
    congrArg (fun g => EStateM.Result.ok () (net.withGraph g)) hg
  have hne : access ≠ unit := fun h => by cases (h ▸ hi).symm.trans hunit
  have haccess : g.kind? access = some bound := by
    rw [Graph.kind?_modifyKind, if_pos rfl, hi]
    rfl
  have hunit' : g.kind? unit = some (.memory r) := by
    rw [Graph.kind?_modifyKind, if_neg hne, hunit]
  have hbound : bound.BoundTo k unit :=
    ⟨_, rfl, by simpa using hk, Opcode.memory?_withMemory hk unit⟩
  have hrequest : g.edgeDefect? k.request access unit = none :=
    Graph.edgeDefect?_request haccess hbound hunit' (by rw [Graph.ports_modifyKind, hreq])
  have hresponse : (g.link k.request access unit).edgeDefect? k.response unit access = none := by
    refine Graph.edgeDefect?_response ((Graph.kind?_link ..).trans haccess) hbound
      ((Graph.kind?_link ..).trans hunit') ?_
    rw [Graph.memResp_link_request haccess hunit', Graph.ports_modifyKind, hresp]
  have hrev : Graph.Revises (net.ports access .memReq ≠ [] ∨ net.ports access .memResp ≠ [])
      (.instr i) bound := .memory i unit (by simp [hreq, hresp])
  obtain ⟨_, _, hrun, rfl⟩ := @connect_succeeds (net.withGraph g) _ _ _ hrequest
  obtain ⟨_, _, hrun', rfl⟩ := @connect_succeeds (net.withGraph (g.link _ _ _)) _ _ _ hresponse
  refine ⟨(), _, (run_bind hset).trans ((run_bind hrun).trans hrun'), ?_, ?_⟩
  · rw [Graph.serve, hg]
    rfl
  · exact .tail (.tail (.single (.revise hi hrev fun h => h)) (.link hrequest)) (.link hresponse)

section
variable (hnet : net.Coherent) {access unit : NodeId} {i : InstrNode} {k : AccessKind} {r : Region}
variable (hi : net.kind? access = some (.instr i)) (hk : i.op.kind.access? = some k)
variable (hunit : net.kind? unit = some (.memory r))
include hnet hi hk hunit

/-- Releasing an access and serving it elsewhere succeeds: the release leaves it without memory
ports. -/
theorem move_succeeds {old : NodeId} (hold : i.op.memory? = some old) :
    Succeeds (do
      release k access old
      setMemory access unit
      connect k.request access unit
      connect k.response unit access) net fun _ net' =>
        net' = net.withGraph ((net.unserve k access old).serve k access unit) ∧
          ReflTransGen Move net net' := by
  let g := net.unserve k access old
  have hi' : g.kind? access = some (.instr i) :=
    (Graph.kind?_unlink ..).trans ((Graph.kind?_unlink ..).trans hi)
  have hunit' : g.kind? unit = some (.memory r) :=
    (Graph.kind?_unlink ..).trans ((Graph.kind?_unlink ..).trans hunit)
  obtain ⟨hreq, hresp⟩ := hnet.ports_unserve hi hk hold
  obtain ⟨_, net', hrun, hnet', hmoves⟩ :=
    @serve_succeeds (net.withGraph g) _ _ _ _ _ hi' hk hunit' hreq hresp
  exact ⟨(), net', hrun, hnet', .head (.unlink _ _ _) (.head (.unlink _ _ _) hmoves)⟩

theorem rebind_succeeds :
    Succeeds (do
      unless i.op.memory? = some unit do
        if let some old := i.op.memory? then release k access old
        setMemory access unit
        connect k.request access unit
        connect k.response unit access) net fun _ net' =>
          net' = net.withGraph (net.rebind k access i.op.memory? unit) ∧
            ReflTransGen Move net net' := by
  unfold Graph.rebind
  by_cases hsame : i.op.memory? = some unit
  · simp only [hsame, if_true]
    exact succeeds_pure ⟨rfl, .refl⟩
  · simp only [hsame, if_false]
    cases hold : i.op.memory? with
    | none =>
      obtain ⟨hreq, hresp⟩ := hnet.unserved hi hk hold
      exact serve_succeeds hi hk hunit hreq hresp
    | some old => exact move_succeeds hnet hi hk hunit hold

end

theorem bind_settles (hnet : net.Coherent) (access unit : NodeId) :
    Settles (bind access unit) net fun _ net' =>
      Binds net access unit net' ∧ ReflTransGen Move net net' := by
  refine (getNode_settles access).bind fun node hnode => ?_
  cases hk : node.access? with
  | none => exact .inl ⟨_, rfl⟩
  | some k =>
    refine (getNode_settles unit).bind fun unitNode hunit => ?_
    obtain ⟨i, hinstr, hk⟩ := Option.bind_eq_some_iff.1 hk
    by_cases htype : unitNode.type = .memory
    · simp only [htype, hinstr, Option.bind_some, ne_eq, not_true, if_false]
      obtain ⟨r, hr⟩ := Node.kind_of_memory htype
      have hi := Graph.kind?_eq_some.2 ⟨node, hnode, Node.kind_of_instr? hinstr⟩
      have hunit := Graph.kind?_eq_some.2 ⟨unitNode, hunit, hr⟩
      obtain ⟨_, net', hrun, rfl, hmoves⟩ := rebind_succeeds hnet hi hk hunit
      exact .inr ⟨(), _, hrun, .intro hi hk hunit, hmoves⟩
    · simp only [htype, ne_eq, not_false_eq_true, if_true]
      exact .inl ⟨_, rfl⟩

/-- Binding a load or store to a memory unit succeeds, whatever it was bound to before. -/
theorem bind_succeeds (hnet : net.Coherent) {access unit : NodeId} {i : InstrNode} {k : AccessKind}
    {r : Region} (hi : net.kind? access = some (.instr i)) (hk : i.op.kind.access? = some k)
    (hunit : net.kind? unit = some (.memory r)) :
    Succeeds (bind access unit) net fun _ net' => ReflTransGen Move net net' := by
  obtain ⟨node, hnode, hkind⟩ := Graph.kind?_eq_some.1 hi
  obtain ⟨unitNode, hunitNode, hunitKind⟩ := Graph.kind?_eq_some.1 hunit
  have haccess : node.access? = some k := by simp [Node.access?, Node.instr?, hkind, hk]
  have hinstr : node.instr? = some i := by simp [Node.instr?, hkind]
  have htype : unitNode.type = .memory := by simp [Node.type, hunitKind, NodeKind.type]
  refine .after (getNode_run hnode) ?_
  simp only [haccess]
  refine .after (getNode_run hunitNode) ?_
  simp only [htype, hinstr, Option.bind_some, ne_eq, not_true, if_false]
  obtain ⟨_, net', hrun, -, hmoves⟩ := rebind_succeeds hnet hi hk hunit
  exact ⟨(), net', hrun, hmoves⟩

/-! ## Acts are made of moves -/

theorem Retouches.revises {served : Prop} {kind kind' : NodeKind} (h : Retouches net kind kind') :
    Graph.Revises served kind kind' := by
  cases h with
  | split => exact .split _ _
  | block => exact .block _ _
  | loop => exact .loop _ _

theorem Retouches.within {kind kind' : NodeKind} (h : Retouches net kind kind')
    (hwithin : kind.Within net.nodes.length) : kind'.Within net.nodes.length := by
  cases h with
  | split => exact hwithin
  | block hphis hinstructions =>
    refine hwithin.congr ?_
    simp only [NodeKind.stored, BlockNode.members, hphis, hinstructions]
  | loop hblocks =>
    intro n hn
    rcases hblocks n hn with hn | ⟨b, hb⟩
    · exact hwithin n hn
    · exact Graph.lt_of_kind? hb

theorem Binds.moves (hnet : net.Coherent) {net' : Net} {access unit : NodeId}
    (h : Binds net access unit net') : ReflTransGen Move net net' := by
  cases h with
  | intro hi hk hunit =>
    obtain ⟨_, _, -, rfl, hmoves⟩ := rebind_succeeds hnet hi hk hunit
    exact hmoves

theorem Act.moves {op : Op} {net' : Net} (h : Act op net net') (hnet : net.Coherent) :
    ReflTransGen Move net net' := by
  cases h with
  | push _ hstored => exact .single (.push (NodeKind.within_of_stored hstored _))
  | @enroll block b code source _ hblock =>
    have hpush : Move net (net.pushed (.instr { op := code, block, source })) :=
      .push fun id hid => List.mem_singleton.1 hid ▸ Graph.lt_of_kind? hblock
    refine .tail (.single hpush) (.revise (Graph.kind?_addNode hblock) (.block _ _) fun h m hm => ?_)
    exact (BlockNode.mem_members_enroll hm).elim (h m) fun hm => hm ▸ net.lt_length_pushed _
  | retouch hkind h => exact .single (.revise hkind h.revises h.within)
  | link hdefect => exact .single (.link hdefect)
  | unlink => exact .single (.unlink _ _ _)
  | bind _ h => exact h.moves hnet

theorem moves_of_acts {op : Op} {net' : Net} (hnet : net.Coherent)
    (h : ReflTransGen (Act op) net net') : ReflTransGen Move net net' := by
  induction h with
  | refl => exact .refl
  | tail _ hact ih => exact ih.trans (hact.moves (coherent_of_moves ih hnet))

/-- What every act keeps in coherent nets, all acts together keep. -/
theorem keep_of_acts {keep : Net → Prop} {op : Op}
    (hact : ∀ {net net'}, net.Coherent → Act op net net' → keep net → keep net') {net' : Net}
    (hnet : net.Coherent) (h : ReflTransGen (Act op) net net') (hkeep : keep net) : keep net' := by
  induction h with
  | refl => exact hkeep
  | tail hacts hlast ih => exact hact (coherent_of_moves (moves_of_acts hnet hacts) hnet) hlast ih

/-! ## All operations -/

/-- An operation on a coherent net fails and leaves the net as it was, or succeeds by its acts. If it
answers that there was no edge to remove, it has left the net as it was too. -/
theorem perform_acts (hnet : net.Coherent) (op : Op) :
    Settles (perform op) net fun reply net' =>
      ReflTransGen (Act op) net net' ∧ (reply = .removed false → net' = net) := by
  have hnode : ∀ {m : NetM NodeId}, (Settles m net fun _ net' => ReflTransGen (Act op) net net') →
      Settles (do return Op.Reply.node (← m)) net fun reply net' =>
        ReflTransGen (Act op) net net' ∧ (reply = .removed false → net' = net) :=
    fun hm => hm.andThen fun _ _ h => succeeds_pure ⟨h, fun h => by cases h⟩
  have hdone : ∀ {m : NetM Unit}, (Settles m net fun _ net' => ReflTransGen (Act op) net net') →
      Settles (do m; return Op.Reply.done) net fun reply net' =>
        ReflTransGen (Act op) net net' ∧ (reply = .removed false → net' = net) :=
    fun hm => hm.andThen fun _ _ h => succeeds_pure ⟨h, fun h => by cases h⟩
  have hpush : ∀ {kind : NodeKind}, kind.type ≠ .instr → kind.stored = [] →
      Settles (push kind) net fun _ net' => ReflTransGen (Act op) net net' :=
    fun htype hstored => (push_settles _).imp fun _ _ h => h.2 ▸ .single (.push htype hstored)
  cases op with
  | addSplit | addMemory | addConst | addGlobal | addBlock | addLoop =>
    exact hnode (hpush NodeType.noConfusion rfl)
  | addArgument split => exact hnode (addArgument_settles split)
  | addInstr block op source => exact hnode (addInstr_settles block op source)
  | setLoopHead | addLoopLatch | addLoopInstr | mergeLatches =>
    exact hdone (modifyLoop_settles _ _ fun _ => rfl)
  | addLoopBlock loop block => exact hdone (addLoopBlock_settles loop block)
  | activate block src =>
    exact hdone (feed_settles _ .control block src (fun _ => rfl) fun _ => rfl)
  | setMaskSource block value =>
    exact hdone (feed_settles _ .data block value (fun _ => rfl) fun _ => rfl)
  | bind access unit =>
    exact hdone ((bind_settles hnet access unit).imp fun _ _ h => .single (.bind rfl h.1))
  | connect kind src dst =>
    refine hdone ((connect_settles kind src dst).imp fun _ _ h => ?_)
    obtain ⟨hdefect, rfl⟩ := h
    exact .single (.link hdefect)
  | disconnect kind src dst =>
    refine .inr ⟨_, _, rfl, .single (.unlink rfl), fun h => ?_⟩
    have hnone : net.findEdge? kind src dst = none := by
      simpa using Op.Reply.removed.inj h
    simp [Graph.unlink, hnone]

/-- An operation on a coherent net fails and leaves the net as it was, or succeeds by moves. -/
theorem perform_settles (hnet : net.Coherent) (op : Op) :
    Settles (perform op) net fun reply net' =>
      ReflTransGen Move net net' ∧ (reply = .removed false → net' = net) :=
  (perform_acts hnet op).imp fun _ _ h => ⟨moves_of_acts hnet h.1, h.2⟩

end

/-! ## Reached nets -/

/-- The net after an operation, whether it succeeded or failed. -/
def after (net : Net) (op : Op) : Net :=
  match perform op net with
  | .ok _ net' | .error _ net' => net'

/-- The net is what a sequence of operations makes of a new one. -/
inductive Reached : Net → Prop
  | start {name : String} {uids : Supply} {net : Net} (h : Net.start name uids = .ok net) :
      Reached net
  | step {net : Net} (h : Reached net) (op : Op) : Reached (net.after op)

theorem acts_after {net : Net} (hnet : net.Coherent) (op : Op) :
    ReflTransGen (Act op) net (net.after op) := by
  unfold after
  rcases perform_acts hnet op with ⟨e, he⟩ | ⟨reply, net', hrun, hacts, -⟩
  · rw [he]
  · rw [hrun]
    exact hacts

theorem moves_after {net : Net} (hnet : net.Coherent) (op : Op) :
    ReflTransGen Move net (net.after op) :=
  moves_of_acts hnet (acts_after hnet op)

/-- What every act of an operation keeps, the operation keeps. -/
theorem keep_after {keep : Net → Prop} {op : Op}
    (hact : ∀ {net net'}, net.Coherent → Act op net net' → keep net → keep net')
    {net : Net} (hnet : net.Coherent) (h : keep net) : keep (net.after op) :=
  keep_of_acts hact hnet (acts_after hnet op) h

theorem start_coherent {name : String} {uids : Supply} {net : Net}
    (h : Net.start name uids = .ok net) : net.Coherent := by
  obtain ⟨⟨uid, uids'⟩, -, h⟩ := bind_eq_ok.1 h
  obtain rfl := pure_eq_ok.1 h
  have hports : ∀ n s, Graph.ports ⟨name, [{ uid, kind := .split [] }], [], 0⟩ n s = [] := by
    intro n s
    cases n with
    | zero => cases s <;> rfl
    | succ n => rfl
  refine ⟨fun n s => ?_, fun e he => absurd he List.not_mem_nil, fun n s _ => ?_⟩
  · show List.Perm [] (List.zipIdx (Graph.ports _ n s))
    rw [hports]
    exact .refl _
  · show (Graph.ports _ n s).length ≤ 1
    rw [hports]
    exact Nat.zero_le 1

theorem Reached.coherent {net : Net} (h : net.Reached) : net.Coherent := by
  induction h with
  | start h => exact start_coherent h
  | step _ op ih => exact coherent_of_moves (moves_after ih op) ih

theorem Reached.steps {net : Net} (h : net.Reached) (ops : List Op) :
    (ops.foldl after net).Reached := by
  induction ops generalizing net with
  | nil => exact h
  | cons op ops ih => exact ih (h.step op)

theorem finish_eq_error {net net' : Net} {e : Failure} (h : finish net = .error e net') :
    net.audit = .error e := by
  rw [finish_run] at h
  split at h
  · cases h
  · rename_i haudit
    cases h
    exact haudit

theorem finish_error {net net' : Net} (hnet : net.Coherent) {e : Failure}
    (h : finish net = .error e net') : e.isDrift = false :=
  hnet.inStep.audit_failsOnly e (finish_eq_error h)

/-- Edges and ports of a reached net never come apart: the edges in each slot of each node take each
position of the port list exactly once, with their other ends there. Slots in use are accepted by
their nodes, masks come from blocks and dependencies do not. So finishing the net never reports that
ports and edges disagree. -/
theorem reached_inStep {net : Net} (h : net.Reached) :
    net.InStep ∧
    (∀ (n : NodeId) (node : Node) (s : Slot), net.nodes[n]? = some node → node.ports.get s ≠ [] →
      node.accepts s = true) ∧
    (∀ e ∈ net.edges, e.kind = .mask →
      ∃ node, net.nodes[e.src]? = some node ∧ node.type = .block) ∧
    (∀ e ∈ net.edges, e.kind = .dependency →
      ∃ node, net.nodes[e.src]? = some node ∧ node.type ≠ .block) ∧
    ∀ kind src dst net',
      finish net ≠ .error (.refused (.malformedEdge kind src dst .outOfSync)) net' ∧
      finish net ≠ .error (.refused (.malformedEdge kind src dst .portWithoutEdge)) net' := by
  have hnet := h.coherent
  refine ⟨hnet.inStep, fun n node s hnode hs => ?_, fun e he hkind => ?_, fun e he hkind => ?_,
    fun kind src dst net' => ?_⟩
  · obtain ⟨kind, hkind, haccepts⟩ := hnet.accepts (n := n) (s := s) (by rwa [Graph.ports_eq hnode])
    obtain ⟨node', hnode', rfl⟩ := Graph.kind?_eq_some.1 hkind
    obtain rfl := Option.some.inj (hnode.symm.trans hnode')
    exact haccepts
  · obtain ⟨node, target, hnode, hsuits⟩ := hnet.source_suits he
    rw [hkind] at hsuits
    exact ⟨node, hnode, hsuits⟩
  · obtain ⟨node, target, hnode, hsuits⟩ := hnet.source_suits he
    rw [hkind] at hsuits
    exact ⟨node, hnode, hsuits⟩
  · constructor
    · intro herror
      cases finish_error hnet herror
    · intro herror
      cases finish_error hnet herror

/-- A net in which a load is bound, then bound elsewhere, and two operations come to nothing. -/
def workbench : Net :=
  [.addBlock 0 .plain, .addInstr 1 (.load .ptr none) (some 0), .addMemory 0, .addMemory 1,
    .activate 1 0, .connect .control 1 2, .bind 2 3, .bind 2 4, .bind 2 1,
    .disconnect .data 0 1].foldl after
    { name := "workbench", nodes := [{ uid := 0, kind := .split [] }], edges := [], entry := 0
      uids := ⟨1⟩ }

theorem workbench_reached : workbench.Reached :=
  .steps (@Reached.start "workbench" ⟨0⟩ _ rfl) _

theorem reached_inStep_workbench : workbench.edges.length = 4 ∧ workbench.InStep ∧
    ∀ kind src dst net',
      finish workbench ≠ .error (.refused (.malformedEdge kind src dst .outOfSync)) net' ∧
      finish workbench ≠ .error (.refused (.malformedEdge kind src dst .portWithoutEdge)) net' :=
  have h := reached_inStep workbench_reached
  ⟨by decide +kernel, h.1, h.2.2.2.2⟩

/-- Operations on a reached net that fail leave it exactly as it was, and so does a removal that
finds no edge. In particular binding a load or store to a memory unit does not fail. -/
theorem reached_perform_error {net : Net} (h : net.Reached) :
    (∀ op e net', perform op net = .error e net' → net' = net) ∧
    (∀ op net', perform op net = .ok (.removed false) net' → net' = net) ∧
    ∀ access unit i r, net.kind? access = some (.instr i) → i.op.kind.isAccess = true →
      net.kind? unit = some (.memory r) →
      ∃ net', perform (.bind access unit) net = .ok .done net' := by
  have hnet := h.coherent
  refine ⟨fun op e net' hrun => ?_, fun op net' hrun => ?_, ?_⟩
  · rcases perform_settles hnet op with ⟨e', he⟩ | ⟨reply, net'', hok, -⟩
    · cases hrun.symm.trans he
      rfl
    · cases hrun.symm.trans hok
  · rcases perform_settles hnet op with ⟨e', he⟩ | ⟨reply, net'', hok, -, hsame⟩
    · cases hrun.symm.trans he
    · cases hrun.symm.trans hok
      exact hsame rfl
  · intro access unit i r hi hk hunit
    obtain ⟨k, hk⟩ := Option.isSome_iff_exists.1 hk
    obtain ⟨_, net', hrun, -⟩ := bind_succeeds hnet hi hk hunit
    exact ⟨net', run_bind hrun⟩

theorem reached_perform_error_workbench :
    (∃ e net', perform (.bind 2 1) workbench = .error e net') ∧
    (∀ e net', perform (.bind 2 1) workbench = .error e net' → net' = workbench) ∧
    ∃ net', perform (.bind 2 3) workbench = .ok .done net' := by
  have h := reached_perform_error workbench_reached
  refine ⟨?_, h.1 (.bind 2 1), h.2.2 2 3 ⟨.load .ptr (some 4), 1, some 0⟩ 0 ?_ ?_ ?_⟩
  · exact ⟨_, _, rfl⟩
  · decide +kernel
  · decide
  · decide +kernel

end Net

end Dataflow
