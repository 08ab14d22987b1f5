import Dataflow.Lower.Session
import Dataflow.Proofs.Net.Moves
import Dataflow.Proofs.Net.Served

/-!
# Lowering by moves

Lowering changes a net through the same moves as everybody else, whatever function it is given and
whether it succeeds or not: every phase only builds (`builds_layOut`, `builds_route`,
`builds_construct`, `builds_complete`). So a lowering either leaves the session as it was, or starts a net
from the session's supply, gets by moves to another one, and hands back the supply of that one together
with its graph, if there is no failure (`Session.lower_moves`).
-/

namespace Dataflow

open Net Relation

/-! ## Operations on nets -/

namespace Net

theorem builds_push {kind : NodeKind} (h : kind.stored = []) : Builds (push kind) := by
  refine builds_of_settles fun net _ => (push_settles kind).imp fun _ net' hpushed => ?_
  rw [hpushed.2]
  exact .single (.push (NodeKind.within_of_stored h _))

theorem builds_addArgument (split : NodeId) : Builds (addArgument split) :=
  builds_of_acts fun _ => addArgument_settles split

theorem builds_addInstr (block : NodeId) (op : Opcode) (source : Option InstId) :
    Builds (addInstr block op source) :=
  builds_of_acts fun _ => addInstr_settles block op source

theorem builds_setLoopHead (loop head : NodeId) : Builds (setLoopHead loop head) :=
  builds_of_acts fun _ => modifyLoop_settles (.setLoopHead loop head) loop fun _ => rfl

theorem builds_addLoopLatch (loop latch : NodeId) : Builds (addLoopLatch loop latch) :=
  builds_of_acts fun _ => modifyLoop_settles (.addLoopLatch loop latch) loop fun _ => rfl

theorem builds_addLoopInstr (loop instr : NodeId) : Builds (addLoopInstr loop instr) :=
  builds_of_acts fun _ => modifyLoop_settles (.addLoopInstr loop instr) loop fun _ => rfl

theorem builds_mergeLatches (loop : NodeId) : Builds (mergeLatches loop) :=
  builds_of_acts fun _ => modifyLoop_settles (.mergeLatches loop) loop fun _ => rfl

theorem builds_addLoopBlock (loop block : NodeId) : Builds (addLoopBlock loop block) :=
  builds_of_acts fun _ => addLoopBlock_settles loop block

theorem builds_connect (kind : EdgeKind) (src dst : NodeId) : Builds (connect kind src dst) := by
  refine builds_of_settles fun net _ => (connect_settles kind src dst).imp fun _ net' hlinked => ?_
  rw [hlinked.2]
  exact .single (.link hlinked.1)

theorem builds_activate (block src : NodeId) : Builds (activate block src) :=
  builds_of_acts fun _ =>
    feed_settles (.activate block src) .control block src (fun _ => rfl) fun _ => rfl

theorem builds_setMaskSource (block value : NodeId) : Builds (setMaskSource block value) :=
  builds_of_acts fun _ =>
    feed_settles (.setMaskSource block value) .data block value (fun _ => rfl) fun _ => rfl

theorem builds_bind (access unit : NodeId) : Builds (Net.bind access unit) :=
  builds_of_settles fun _ hnet => (bind_settles hnet access unit).imp fun _ _ h => h.2

theorem builds_finish : Builds finish :=
  builds_get fun net => (builds_attempt net.audit).bind fun _ => builds_pure _

end Net

namespace Plan

variable (p : Plan)

/-! ## Layout -/

theorem builds_blockNode (b : BlockId) : Builds (blockNode b) := by
  refine builds_get fun net => ?_
  cases net.blockNode? b with
  | some n => exact builds_pure n
  | none => exact builds_refuse _

theorem builds_laySplit (parent : NodeId) (i : Instr) : Builds (laySplit parent i) := by
  cases i with
  | call dest callee args =>
    refine (builds_push rfl).bind fun split => Builds.bind (builds_forM fun _ => ?_) fun _ => builds_pure _
    exact (builds_addArgument split).bind fun _ => builds_pure _
  | _ => exact builds_pure _

theorem builds_layInstr (parent : NodeId) (b : BlockId) (i : Instr × Nat) :
    Builds (p.layInstr parent b i) :=
  (builds_laySplit parent i.1).bind fun _ => (builds_addInstr _ _ _).bind fun _ => builds_pure _

theorem builds_layExit (parent : NodeId) (b : Block) : Builds (p.layExit parent b) := by
  have hbranch : Builds (do
      let successors ← (p.flow.succs b.id).mapM blockNode
      let _ ← addInstr parent (.branch successors) none) :=
    (builds_mapM builds_blockNode).bind fun _ => (builds_addInstr _ _ _).bind fun _ => builds_pure _
  unfold layExit
  cases b.exit with
  | ret value => exact (builds_addInstr _ _ _).bind fun _ => builds_pure _
  | jump target => exact hbranch
  | branch cond ifTrue ifFalse => exact hbranch

theorem builds_layBlock (b : Block) : Builds (p.layBlock b) := by
  refine (builds_blockNode b.id).bind fun parent => ?_
  refine (builds_mapM (p.builds_layInstr parent b.id)).bind fun placed => ?_
  exact (p.builds_layExit parent b).bind fun _ => builds_pure _

theorem builds_layOut : Builds p.layOut := by
  have hblocks : Builds p.layBlocks := builds_forM fun _ => (builds_push rfl).bind fun _ => builds_pure _
  have harguments : Builds p.layArguments := builds_get fun net => builds_forM fun _ =>
    (builds_addArgument net.entry).bind fun _ => builds_pure _
  refine hblocks.bind fun _ => harguments.bind fun _ => ?_
  exact (builds_mapM p.builds_layBlock).bind fun _ => builds_pure _

/-! ## Routing -/

theorem builds_routeEdge (b : BlockId) (branch : NodeId) (succ : BlockId) :
    Builds (p.routeEdge b branch succ) := by
  refine (builds_blockNode succ).bind fun target => ?_
  split
  · exact builds_activate target branch
  · exact builds_connect .control branch target

theorem builds_routeExit (b : Block) : Builds (p.routeExit b) := by
  refine builds_get fun net => ?_
  cases net.exitNode? b.id with
  | none => exact builds_pure ()
  | some branch => exact builds_forM (p.builds_routeEdge b.id branch)

theorem builds_routeMembers (b : BlockId) : Builds (routeMembers b) := by
  refine builds_get fun net => ?_
  cases net.blockNode? b with
  | none => exact builds_pure ()
  | some parent => exact builds_forM fun member => builds_connect .control parent member

theorem builds_routeControl : Builds p.routeControl := by
  refine (builds_blockNode _).bind fun entry => builds_get fun net => ?_
  refine (builds_activate entry net.entry).bind fun _ => ?_
  refine Builds.bind (builds_forM p.builds_routeExit) fun _ => ?_
  refine Builds.bind (builds_forM builds_routeMembers) fun _ => builds_get fun net => ?_
  exact builds_forM fun c => builds_connect .control c.1 c.2

theorem builds_valueNode (v : Value) : Builds (p.valueNode v) := by
  refine builds_get fun net => ?_
  cases v with
  | arg index =>
    dsimp only
    cases net.argNode? index with
    | some n => exact builds_pure n
    | none => exact builds_refuse _
  | global id =>
    dsimp only
    cases net.globalNode? id with
    | some n => exact builds_pure n
    | none =>
      cases p.function.globals[id]? with
      | some g => exact builds_push rfl
      | none => exact builds_refuse _
  | const c =>
    dsimp only
    cases net.constNode? c with
    | some n => exact builds_pure n
    | none => exact builds_push rfl
  | inst id =>
    dsimp only
    cases net.resultNode? id with
    | some n => exact builds_pure n
    | none => exact builds_refuse _

theorem builds_routeMask (b : Block) : Builds (p.routeMask b) := by
  have htell : ∀ parent, Builds (do
      let net ← get
      ((net.membersOf parent).filter (p.needsMask b.id net)).forM (connect .mask parent)) :=
    fun parent => builds_get fun net => builds_forM fun member => builds_connect .mask parent member
  refine (builds_blockNode b.id).bind fun parent => ?_
  split
  · cases p.maskCondition? b.id with
    | none => exact htell parent
    | some cond =>
      refine (p.builds_valueNode cond).bind fun value => ?_
      exact (builds_setMaskSource parent value).bind fun _ => htell parent
  · exact htell parent

theorem builds_feed (node : NodeId) (v : Value) : Builds (p.feed node v) :=
  (p.builds_valueNode v).bind fun _ => builds_connect _ _ _

theorem builds_routeData (placed : List Placed) (b : Block) : Builds (p.routeData placed b) := by
  have hinstr : ∀ i, Builds (p.routeInstr b.id i) := fun i =>
    (builds_attempt _).bind fun _ => builds_forM (p.builds_feed i.2)
  refine Builds.bind (builds_forM hinstr) fun _ => builds_get fun net => ?_
  cases net.exitNode? b.id with
  | none => exact builds_pure ()
  | some exit => exact builds_forM (p.builds_feed exit)

theorem builds_route (placed : List Placed) : Builds (p.route placed) := by
  refine p.builds_routeControl.bind fun _ => ?_
  exact Builds.bind (builds_forM p.builds_routeMask) fun _ => builds_forM (p.builds_routeData placed)

/-! ## Memory and loops -/

theorem builds_routeAccess (options : Options) (access : Access × Option Region) :
    Builds (routeAccess options access) := by
  unfold routeAccess
  dsimp only
  cases access.2.or _ with
  | none => exact builds_pure ()
  | some region =>
    refine Builds.bind (builds_get fun net => ?_) fun unit => builds_bind _ unit
    cases net.unitNode? region with
    | some n => exact builds_pure n
    | none => exact builds_push rfl

theorem builds_routeMemory (options : Options) (accesses : List (Access × Option Region))
    (ordered : List (Access × Access)) : Builds (routeMemory options accesses ordered) :=
  Builds.bind (builds_forM (builds_routeAccess options)) fun _ =>
    builds_forM fun pair => builds_connect .dependency pair.1.node pair.2.node

theorem builds_layLoop (options : Options) (l : NaturalLoop) : Builds (layLoop options l) := by
  have hblock : ∀ node b, Builds (layLoopBlock node b) := by
    refine fun node b => (builds_blockNode b).bind fun parent => ?_
    refine (builds_addLoopBlock node parent).bind fun _ => builds_get fun net => ?_
    exact builds_forM (builds_addLoopInstr node)
  refine (builds_push rfl).bind fun node => (builds_blockNode l.header).bind fun head => ?_
  refine (builds_setLoopHead node head).bind fun _ => ?_
  refine Builds.bind (builds_forM fun latch => ?_) fun _ => ?_
  · exact (builds_blockNode latch).bind fun latch => builds_addLoopLatch node latch
  · split
    · exact (builds_mergeLatches node).bind fun _ => builds_forM (hblock node)
    · exact builds_forM (hblock node)

/-! ## The two parts of lowering -/

theorem builds_construct : Builds p.construct :=
  (builds_attempt _).bind fun _ => p.builds_layOut.bind fun placed =>
    (p.builds_route placed).bind fun _ => builds_pure _

theorem builds_complete (options : Options) (accesses : List (Access × Option Region))
    (ordered : List (Access × Access)) : Builds (p.complete options accesses ordered) :=
  (builds_routeMemory options accesses ordered).bind fun _ =>
    Builds.bind (builds_forM (builds_layLoop options)) fun _ => builds_finish

/-- The graph that is handed out is the one that was built. -/
theorem complete_graph {options : Options} {accesses : List (Access × Option Region)}
    {ordered : List (Access × Access)} {net net' : Net} {g : Graph}
    (h : p.complete options accesses ordered net = .ok g net') : g = net'.toGraph := by
  obtain ⟨_, net₁, -, h⟩ := run_bind_eq_ok h
  obtain ⟨_, net₂, -, h⟩ := run_bind_eq_ok h
  rw [finish_same h]
  exact (finish_eq_ok h).1

end Plan

namespace Session

variable {σ : Type}

/-- What a lowering from `s` leaves comes from `net`, which it got to by moves. -/
def Lowered.EndsAt (s : Session) (l : Lowered σ) (net : Net) : Prop :=
  ∃ name first, Net.start name s.uids = .ok first ∧ ReflTransGen Move first net ∧
    l.session.uids = net.uids ∧ ∀ g, l.result = .ok g → g = net.toGraph

theorem settle_endsAt (s : Session) (p : Plan) (d : Disambiguator σ) (oracle : σ) {name : String}
    {first net : Net} (hstart : Net.start name s.uids = .ok first)
    (hmoves : ReflTransGen Move first net) (accesses : List Access)
    (conflicting : List (Access × Access)) :
    ∃ net', (s.settle p d oracle net accesses conflicting).EndsAt s net' := by
  have hnet := coherent_of_moves hmoves (start_coherent hstart)
  unfold settle
  cases d.regions accesses oracle with
  | mk regions oracle =>
    dsimp only
    cases d.aliasing conflicting oracle with
    | mk ordered oracle =>
      have hbuilt := p.builds_complete s.options (accesses.zip regions) ordered net hnet
      simp only [EStateM.run]
      unfold leaves at hbuilt
      cases hrun : p.complete s.options (accesses.zip regions) ordered net with
      | ok g net' =>
        rw [hrun] at hbuilt
        refine ⟨net', name, first, hstart, hmoves.trans hbuilt, rfl, fun g' hg => ?_⟩
        obtain rfl := Except.ok.inj hg
        exact p.complete_graph hrun
      | error e net' =>
        rw [hrun] at hbuilt
        exact ⟨net', name, first, hstart, hmoves.trans hbuilt, rfl, nofun⟩

theorem lower_moves (s : Session) (f : Function) (d : Disambiguator σ) (oracle : σ) :
    ((∃ e, (s.lower f d oracle).result = .error e) ∧ (s.lower f d oracle).session = s) ∨
      ∃ net, (s.lower f d oracle).EndsAt s net := by
  unfold lower
  cases hprepare : s.prepare f with
  | error e => exact .inl ⟨⟨_, rfl⟩, rfl⟩
  | ok made =>
    obtain ⟨p, first⟩ := made
    obtain ⟨p', -, h⟩ := bind_eq_ok.1 hprepare
    obtain ⟨first', hstart, h⟩ := bind_eq_ok.1 h
    obtain ⟨rfl, rfl⟩ := Prod.mk.inj (pure_eq_ok.1 h)
    have hbuilt := p'.builds_construct first' (start_coherent hstart)
    refine .inr ?_
    simp only [EStateM.run]
    unfold leaves at hbuilt
    cases hrun : p'.construct first' with
    | error e net =>
      rw [hrun] at hbuilt
      exact ⟨net, _, first', hstart, hbuilt, rfl, nofun⟩
    | ok accesses net =>
      rw [hrun] at hbuilt
      dsimp only
      cases p'.conflicting accesses with
      | error e => exact ⟨net, _, first', hstart, hbuilt, rfl, nofun⟩
      | ok conflicting => exact s.settle_endsAt p' d oracle hstart hbuilt accesses conflicting

end Session

end Dataflow
