import Dataflow.Net.Audit
import Dataflow.Proofs.Net.Audit
import Mathlib.Data.List.Forall2

/-!
# Two runs side by side

The numbers of nodes appear in names only. `Graph.renumber` changes them and nothing else, and
`Net.shift k` raises those of a net, and of its supply, by `k`. `Twins k R m m'`: from a net and the
same net raised by `k`, the operations `m` and `m'` end in the same way, with answers that are related
by `R` or with the same failure, and again leave nets that differ by `k`. Only numbers may run out for
the raised one.

Every operation on nets is its own twin, and so is the audit (`twins_finish`). Sequences of twins are
twins (`Twins.bind`, `twins_forM`, `twins_mapM`).
-/

namespace Dataflow

/-! ## Renumbering -/

/-- The node with another number. -/
def Node.renumber (r : Uid → Uid) (n : Node) : Node := { n with uid := r n.uid }

namespace Graph

/-- The graph with other numbers. -/
def renumber (r : Uid → Uid) (g : Graph) : Graph := { g with nodes := g.nodes.map (Node.renumber r) }

variable (r : Uid → Uid) (g : Graph)

theorem renumber_renumber (r' : Uid → Uid) :
    (g.renumber r).renumber r' = g.renumber fun u => r' (r u) := by
  simp only [renumber, List.map_map]
  rfl

theorem renumber_same : g.renumber (fun u => u) = g := by
  have hid : Node.renumber (fun u => u) = id := rfl
  rw [renumber, hid, List.map_id]

theorem getElem?_renumber (id : NodeId) :
    (g.renumber r).nodes[id]? = (g.nodes[id]?).map (Node.renumber r) := List.getElem?_map

theorem node?_renumber (id : NodeId) : (g.renumber r).node? id = (g.node? id).map (Node.renumber r) :=
  g.getElem?_renumber r id

theorem ports_renumber (id : NodeId) (slot : Slot) :
    (g.renumber r).ports id slot = g.ports id slot := by
  rw [ports, ports, getElem?_renumber]
  cases g.nodes[id]? <;> rfl

theorem node_renumber (id : NodeId) : (g.renumber r).node id = Node.renumber r <$> g.node id := by
  rw [node, node, lookup, lookup, getElem?_renumber]
  cases g.nodes[id]? <;> rfl

theorem zipIdx_renumber :
    (g.renumber r).nodes.zipIdx = g.nodes.zipIdx.map fun n => (n.1.renumber r, n.2) := by
  rw [renumber, List.zipIdx_map]
  rfl

/-- Whether a node has a property that its number does not matter for. -/
theorem nodesWhere_renumber {q : Node → Bool} (hq : ∀ n : Node, q (n.renumber r) = q n) :
    (g.renumber r).nodesWhere q = g.nodesWhere q := by
  rw [nodesWhere, nodesWhere, zipIdx_renumber, List.filter_map, List.map_map]
  simp only [Function.comp_def, hq]

theorem findIdx?_renumber {q : Node → Bool} (hq : ∀ n : Node, q (n.renumber r) = q n) :
    (g.renumber r).nodes.findIdx? q = g.nodes.findIdx? q := by
  rw [renumber, List.findIdx?_map]
  simp only [Function.comp_def, hq]

/-! ## Changes -/

theorem modifyNode_renumber (id : NodeId) {f : Node → Node}
    (hf : ∀ n : Node, f (n.renumber r) = (f n).renumber r) :
    (g.renumber r).modifyNode id f = (g.modifyNode id f).renumber r := by
  simp only [modifyNode, renumber]
  congr 1
  refine List.ext_getElem? fun i => ?_
  rw [List.getElem?_modify, List.getElem?_map, List.getElem?_map, List.getElem?_modify]
  cases g.nodes[i]? with
  | none => rfl
  | some n =>
    by_cases hi : id = i
    · simp [hi, hf]
    · simp [hi]

theorem modifyPorts_renumber (id : NodeId) (slot : Slot) (f : List NodeId → List NodeId) :
    (g.renumber r).modifyPorts id slot f = (g.modifyPorts id slot f).renumber r :=
  g.modifyNode_renumber r id fun _ => rfl

theorem modifyKind_renumber (id : NodeId) (f : NodeKind → NodeKind) :
    (g.renumber r).modifyKind id f = (g.modifyKind id f).renumber r :=
  g.modifyNode_renumber r id fun _ => rfl

theorem link_renumber (kind : EdgeKind) (src dst : NodeId) :
    (g.renumber r).link kind src dst = (g.link kind src dst).renumber r := by
  simp only [link, modifyPorts_renumber, nextEdge, ports_renumber]
  rfl

theorem unlink_renumber (kind : EdgeKind) (src dst : NodeId) :
    (g.renumber r).unlink kind src dst = (g.unlink kind src dst).renumber r := by
  have hfind : (g.renumber r).findEdge? kind src dst = g.findEdge? kind src dst := rfl
  rw [unlink, unlink, hfind]
  cases g.findEdge? kind src dst with
  | none => rfl
  | some e =>
    simp only [unlinkAt, modifyPorts_renumber]
    rfl

theorem edgeDefect?_renumber (kind : EdgeKind) (src dst : NodeId) :
    (g.renumber r).edgeDefect? kind src dst = g.edgeDefect? kind src dst := by
  rw [edgeDefect?, edgeDefect?, getElem?_renumber, getElem?_renumber]
  cases g.nodes[src]? <;> cases g.nodes[dst]? <;> rfl

/-! ## The audit -/

/-- A check that reads a node. -/
theorem node_renumber_bind {β : Type} (id : NodeId) (k : Node → Except Failure β) :
    (orFault ((g.renumber r).node id) >>= k) = orFault (g.node id) >>= fun n => k (n.renumber r) := by
  rw [node_renumber]
  cases g.node id <;> rfl

theorem checkPorts_renumber : (g.renumber r).checkPorts = g.checkPorts := by
  have hedge : (g.renumber r).checkEdge = g.checkEdge := by
    funext e
    simp only [checkEdge, node_renumber_bind]
    rfl
  rw [checkPorts, checkPorts, hedge, zipIdx_renumber, Frame.forM_map]
  rfl

theorem checkBlock_renumber (id : NodeId) (n : Node) (b : BlockNode) :
    (g.renumber r).checkBlock id (n.renumber r) b = g.checkBlock id n b := by
  have hmember : (g.renumber r).checkMember id b = g.checkMember id b := by
    funext member
    simp only [checkMember, node_renumber_bind]
    rfl
  have horigin : (g.renumber r).originOf = g.originOf := by
    funext ctrl
    simp only [originOf, node_renumber]
    cases g.node ctrl with
    | error e => rfl
    | ok n =>
      have hinstr : (n.renumber r).instr? = n.instr? := rfl
      simp only [Functor.map, Except.map, ok_bind, hinstr]
      cases n.instr? with
      | none => rfl
      | some i =>
        dsimp only
        cases g.node i.block <;> rfl
  have hphi : (g.renumber r).checkPhi id n.ports.ctrlIn = g.checkPhi id n.ports.ctrlIn := by
    have hcheck : (g.renumber r).checkOrigin id = g.checkOrigin id := by
      funext input
      rw [checkOrigin, checkOrigin, horigin]
    funext phi
    simp only [checkPhi, node_renumber_bind, hcheck]
    rfl
  rw [checkBlock, checkBlock, hmember]
  exact congrArg (fun check => demand _ _ >>= fun _ => _ >>= fun _ => b.phis.forM check) hphi

theorem checkLoop_renumber (id : NodeId) (l : LoopNode) :
    (g.renumber r).checkLoop id l = g.checkLoop id l := by
  have hinside : (g.renumber r).isInside l = g.isInside l := by
    funext src
    rw [isInside, isInside, node_renumber]
    cases g.node src <;> rfl
  simp only [checkLoop, node_renumber_bind, hinside]
  rfl

theorem checkUnit_renumber (id : NodeId) (n : Node) :
    (g.renumber r).checkUnit id (n.renumber r) = g.checkUnit id n := by
  have hrequest : (g.renumber r).checkRequest id = g.checkRequest id := by
    funext kind responses access
    simp only [checkRequest, node_renumber_bind]
    rfl
  simp only [checkUnit, checkPairs, hrequest]
  rfl

/-- The audit does not look at numbers. -/
theorem audit_renumber : (g.renumber r).audit = g.audit := by
  have hnode : ∀ n : Node × NodeId,
      (g.renumber r).checkNode (n.1.renumber r, n.2) = g.checkNode n := by
    rintro ⟨⟨uid, kind, ports⟩, id⟩
    cases kind with
    | block b => exact g.checkBlock_renumber r id _ b
    | loop l => exact g.checkLoop_renumber r id l
    | memory region => exact g.checkUnit_renumber r id _
    | _ => rfl
  rw [audit, audit, checkPorts_renumber, zipIdx_renumber, Frame.forM_map]
  simp only [hnode]

end Graph

namespace Net

/-- The net with all numbers raised. -/
def shift (k : Nat) (net : Net) : Net where
  toGraph := net.toGraph.renumber (· + k)
  uids := ⟨net.uids.next + k⟩

/-! ## Twins -/

section
variable {α β γ δ : Type} {k : Nat} {R : α → β → Prop} {S : γ → δ → Prop}

/-- Two runs end in the same way, in nets that differ by `k`; but the numbers may run out for the
second one, which has the higher numbers. -/
inductive Twin (k : Nat) (R : α → β → Prop) :
    EStateM.Result Failure Net α → EStateM.Result Failure Net β → Prop
  | ok {a : α} {b : β} (net : Net) (h : R a b) : Twin k R (.ok a net) (.ok b (net.shift k))
  | error (e : Failure) (net : Net) : Twin k R (.error e net) (.error e (net.shift k))
  | short {x : EStateM.Result Failure Net α} (net : Net) (h : 0 < k) :
    Twin k R x (.error (.fault .idsExhausted) net)

/-- The operations end in the same way, from nets that differ by `k`. -/
def Twins (k : Nat) (R : α → β → Prop) (m : NetM α) (m' : NetM β) : Prop :=
  ∀ net, Twin k R (m net) (m' (net.shift k))

theorem twins_pure {a : α} {b : β} (h : R a b) : Twins k R (pure a) (pure b) := fun net => .ok net h

theorem Twins.bind {m : NetM α} {m' : NetM β} {c : α → NetM γ} {c' : β → NetM δ}
    (hm : Twins k R m m') (hc : ∀ a b, R a b → Twins k S (c a) (c' b)) :
    Twins k S (m >>= c) (m' >>= c') := by
  intro net
  show Twin k S (EStateM.bind m c net) (EStateM.bind m' c' (net.shift k))
  have hrun := hm net
  unfold EStateM.bind
  generalize m net = x, m' (net.shift k) = x' at hrun
  cases hrun with
  | ok net h => exact hc _ _ h net
  | error e net => exact .error e net
  | short net h => exact .short net h

/-- The case of equal answers. -/
theorem Twins.seq {m m' : NetM α} {c : α → NetM γ} {c' : α → NetM δ} (hm : Twins k Eq m m')
    (hc : ∀ a, Twins k S (c a) (c' a)) : Twins k S (m >>= c) (m' >>= c') :=
  hm.bind fun a _ h => h ▸ hc a

/-- Operations that look at the net first. -/
theorem twins_get {c : Net → NetM α} {c' : Net → NetM β}
    (h : ∀ net, Twins k R (c net) (c' (net.shift k))) : Twins k R (get >>= c) (get >>= c') :=
  fun net => h net net

theorem twins_forM {xs : List γ} {ys : List δ} {step : γ → NetM Unit} {step' : δ → NetM Unit}
    (h : List.Forall₂ S xs ys) (hstep : ∀ x y, S x y → Twins k Eq (step x) (step' y)) :
    Twins k Eq (xs.forM step) (ys.forM step') := by
  induction h with
  | nil => exact twins_pure rfl
  | cons hxy _ ih => exact (hstep _ _ hxy).seq fun _ => ih

theorem twins_mapM {xs : List γ} {ys : List δ} {step : γ → NetM α} {step' : δ → NetM β}
    (h : List.Forall₂ S xs ys) (hstep : ∀ x y, S x y → Twins k R (step x) (step' y)) :
    Twins k (List.Forall₂ R) (xs.mapM step) (ys.mapM step') := by
  induction h with
  | nil => exact twins_pure .nil
  | cons hxy _ ih =>
    rw [List.mapM_cons, List.mapM_cons]
    refine (hstep _ _ hxy).bind fun a b hab => ih.bind fun as bs hs => ?_
    exact twins_pure (.cons hab hs)

/-- The same steps over the same list. -/
theorem twins_each {xs : List γ} {step step' : γ → NetM Unit}
    (hstep : ∀ x, Twins k Eq (step x) (step' x)) : Twins k Eq (xs.forM step) (xs.forM step') :=
  twins_forM (List.forall₂_same.2 fun _ _ => rfl) fun x _ h => h ▸ hstep x

end

/-! ## Operations -/

section
variable {k : Nat}

theorem twins_attempt {α : Type} (x : Except Failure α) : Twins k Eq (attempt x) (attempt x) := by
  intro net
  cases x with
  | ok a => exact .ok net rfl
  | error e => exact .error e net

theorem twins_refuse {α β : Type} {R : α → β → Prop} (x : Refusal) :
    Twins k R (refuse x) (refuse x) := fun net => .error _ net

/-- A change that numbers do not matter for. -/
theorem twins_change {f : Graph → Graph}
    (hf : ∀ g : Graph, f (g.renumber (· + k)) = (f g).renumber (· + k)) :
    Twins k Eq (change f) (change f) := by
  intro net
  have hnet : ({ net.shift k with toGraph := f (net.shift k).toGraph } : Net) =
      shift k { net with toGraph := f net.toGraph } := by
    simp only [shift, hf]
  show Twin k Eq _ (.ok () { net.shift k with toGraph := f (net.shift k).toGraph })
  rw [hnet]
  exact .ok _ rfl

theorem twins_push (kind : NodeKind) : Twins k Eq (push kind) (push kind) := by
  intro net
  unfold push Supply.take
  have hnext : (net.shift k).uids.next = net.uids.next + k := rfl
  rw [hnext]
  by_cases hlt : net.uids.next < idLimit
  · by_cases hroom : net.uids.next + k < idLimit
    · have hlen : (net.shift k).nodes.length = net.nodes.length := List.length_map ..
      have hnet : ({ net.shift k with
            nodes := (net.shift k).nodes ++ [{ uid := net.uids.next + k, kind }]
            uids := ⟨net.uids.next + k + 1⟩ } : Net) =
          shift k { net with
            nodes := net.nodes ++ [{ uid := net.uids.next, kind }]
            uids := ⟨net.uids.next + 1⟩ } := by
        simp only [shift, Graph.renumber, List.map_append, List.map_cons, List.map_nil,
          Node.renumber, Nat.add_right_comm]
      simp only [hlt, hroom, if_true, hlen]
      rw [hnet]
      exact .ok _ rfl
    · simp only [hroom, if_false]
      exact .short _ (Nat.pos_of_ne_zero fun h => hroom (by rwa [h]))
  · have hroom : ¬ net.uids.next + k < idLimit := fun h => hlt (Nat.lt_of_le_of_lt (Nat.le_add_right ..) h)
    simp only [hlt, hroom, if_false]
    exact .error _ net

theorem twins_getNode (id : NodeId) :
    Twins k (fun n n' => n' = n.renumber (· + k)) (getNode id) (getNode id) := by
  intro net
  show Twin k _ (attempt (orFault (net.node id)) net)
    (attempt (orFault ((net.toGraph.renumber (· + k)).node id)) (net.shift k))
  rw [Graph.node_renumber]
  cases net.node id with
  | ok n => exact .ok net rfl
  | error e => exact .error _ net

theorem twins_getBlock (id : NodeId) : Twins k Eq (getBlock id) (getBlock id) := by
  intro net
  have hnode : (net.shift k).nodes[id]?.bind Node.block? = net.nodes[id]?.bind Node.block? := by
    show ((net.toGraph.renumber (· + k)).nodes[id]?).bind _ = _
    rw [Graph.getElem?_renumber]
    cases net.nodes[id]? <;> rfl
  unfold getBlock
  rw [hnode]
  cases net.nodes[id]?.bind Node.block? with
  | none => exact .error _ net
  | some b => exact .ok net rfl

theorem twins_getLoop (id : NodeId) : Twins k Eq (getLoop id) (getLoop id) := by
  intro net
  have hnode : (net.shift k).nodes[id]?.bind Node.loop? = net.nodes[id]?.bind Node.loop? := by
    show ((net.toGraph.renumber (· + k)).nodes[id]?).bind _ = _
    rw [Graph.getElem?_renumber]
    cases net.nodes[id]? <;> rfl
  unfold getLoop
  rw [hnode]
  cases net.nodes[id]?.bind Node.loop? with
  | none => exact .error _ net
  | some l => exact .ok net rfl

theorem twins_setKind (id : NodeId) (kind : NodeKind) :
    Twins k Eq (setKind id kind) (setKind id kind) :=
  twins_change fun g => g.modifyKind_renumber _ id _

theorem twins_modifyBlock (id : NodeId) (f : BlockNode → BlockNode) :
    Twins k Eq (modifyBlock id f) (modifyBlock id f) :=
  (twins_getBlock id).seq fun _ => twins_setKind id _

theorem twins_modifyLoop (id : NodeId) (f : LoopNode → LoopNode) :
    Twins k Eq (modifyLoop id f) (modifyLoop id f) :=
  (twins_getLoop id).seq fun _ => twins_setKind id _

theorem twins_addArgument (split : NodeId) :
    Twins k Eq (addArgument split) (addArgument split) := by
  refine (twins_getNode split).bind fun n _ h => ?_
  subst h
  have hkind : (n.renumber (· + k)).kind = n.kind := rfl
  rw [hkind]
  cases n.kind with
  | split arguments =>
    exact (twins_push _).seq fun _ => (twins_setKind _ _).seq fun _ => twins_pure rfl
  | _ => exact twins_refuse _

theorem twins_addInstr (block : NodeId) (op : Opcode) (source : Option InstId) :
    Twins k Eq (addInstr block op source) (addInstr block op source) := by
  refine (twins_getBlock block).seq fun _ => ?_
  by_cases hmask : op.mask?.any (· ≠ block) = true
  · simp only [hmask, if_true]
    exact fun net => .error _ net
  · simp only [hmask]
    exact (twins_push _).seq fun _ => (twins_modifyBlock _ _).seq fun _ => twins_pure rfl

theorem twins_addLoopBlock (loop block : NodeId) :
    Twins k Eq (addLoopBlock loop block) (addLoopBlock loop block) :=
  (twins_getLoop loop).seq fun _ => (twins_modifyBlock _ _).seq fun _ =>
    twins_modifyLoop _ _

theorem twins_connect (kind : EdgeKind) (src dst : NodeId) :
    Twins k Eq (connect kind src dst) (connect kind src dst) := by
  intro net
  have hdefect : (net.shift k).edgeDefect? kind src dst = net.edgeDefect? kind src dst :=
    net.edgeDefect?_renumber _ kind src dst
  cases h : net.edgeDefect? kind src dst with
  | some defect =>
    rw [connect, connect, hdefect, h]
    exact .error _ net
  | none =>
    have hnet : ({ net.shift k with toGraph := (net.shift k).link kind src dst } : Net) =
        shift k { net with toGraph := net.link kind src dst } := by
      simp only [shift, Graph.link_renumber]
    rw [connect, connect, hdefect, h]
    dsimp only
    rw [hnet]
    exact .ok _ rfl

theorem twins_disconnect (kind : EdgeKind) (src dst : NodeId) :
    Twins k Eq (disconnect kind src dst) (disconnect kind src dst) := by
  intro net
  have hnet : ({ net.shift k with toGraph := (net.shift k).unlink kind src dst } : Net) =
      shift k { net with toGraph := net.unlink kind src dst } := by
    simp only [shift, Graph.unlink_renumber]
  unfold disconnect
  rw [hnet]
  exact .ok _ rfl

theorem twins_activate (block src : NodeId) :
    Twins k Eq (activate block src) (activate block src) :=
  (twins_getBlock block).seq fun _ => (twins_connect _ _ _).seq fun _ =>
    twins_modifyBlock _ _

theorem twins_setMaskSource (block value : NodeId) :
    Twins k Eq (setMaskSource block value) (setMaskSource block value) :=
  (twins_getBlock block).seq fun _ => (twins_connect _ _ _).seq fun _ =>
    twins_modifyBlock _ _

theorem twins_release (kind : AccessKind) (access unit : NodeId) :
    Twins k Eq (release kind access unit) (release kind access unit) :=
  (twins_disconnect _ _ _).seq fun _ => (twins_disconnect _ _ _).seq fun _ =>
    twins_pure rfl

theorem twins_serve (kind : AccessKind) (access unit : NodeId) :
    Twins k Eq (do
        setMemory access unit
        connect kind.request access unit
        connect kind.response unit access)
      (do
        setMemory access unit
        connect kind.request access unit
        connect kind.response unit access) :=
  (twins_change fun g => g.modifyKind_renumber _ access _).seq fun _ =>
    (twins_connect _ _ _).seq fun _ => twins_connect _ _ _

theorem twins_bind (access unit : NodeId) : Twins k Eq (bind access unit) (bind access unit) := by
  refine (twins_getNode access).bind fun n _ h => ?_
  subst h
  have haccess : (n.renumber (· + k)).access? = n.access? := rfl
  have hinstr : (n.renumber (· + k)).instr? = n.instr? := rfl
  simp only [haccess, hinstr]
  cases n.access? with
  | none => exact twins_refuse _
  | some kind =>
    refine (twins_getNode unit).bind fun u _ h => ?_
    subst h
    have htype : (u.renumber (· + k)).type = u.type := rfl
    simp only [htype]
    split
    · exact fun net => .error _ net
    · split
      · exact twins_pure rfl
      · cases n.instr?.bind (·.op.memory?) with
        | none => exact twins_serve kind access unit
        | some old => exact (twins_release kind access old).seq fun _ => twins_serve kind access unit

/-- The audit finds the same. -/
theorem twins_finish : Twins k (fun g g' => g' = g.renumber (· + k)) finish finish := by
  refine twins_get fun net => ?_
  have haudit : (net.shift k).audit = net.audit := net.audit_renumber _
  rw [haudit]
  exact (twins_attempt _).seq fun _ => twins_pure rfl

end

end Net

end Dataflow
