import Dataflow.Lower.Session
import Dataflow.Proofs.Lower.Alike
import Dataflow.Proofs.Lower.Conditions
import Dataflow.Proofs.Lower.Order
import Dataflow.Proofs.Net.Twin

/-!
# Two lowerings side by side

`Plan.Alike` says what lowering reads of a plan: two plans that are alike are lowered in the same way,
from nets whose numbers differ by `k`. Each phase is a twin of itself (`Alike.twins_layOut`,
`twins_route`, `twins_construct`, `twins_complete`), so whole lowerings are (`Session.follows_lower`): they
end in the same way, ask the same questions and take as many numbers, unless the numbers run out for
the one that started higher.
-/

namespace Dataflow

open Net

/-! ## What is looked up in a net -/

namespace Graph

variable (r : Uid → Uid) (g : Graph)

theorem lastWhere?_renumber {q : Node → Bool} (hq : ∀ n : Node, q (n.renumber r) = q n) :
    (g.renumber r).lastWhere? q = g.lastWhere? q := by
  rw [lastWhere?, lastWhere?, g.nodesWhere_renumber r hq]

theorem blockNode?_renumber (b : BlockId) : (g.renumber r).blockNode? b = g.blockNode? b :=
  g.lastWhere?_renumber r fun _ => rfl

theorem membersOf_renumber (block : NodeId) : (g.renumber r).membersOf block = g.membersOf block := by
  rw [membersOf, membersOf, node?_renumber]
  cases g.node? block <;> rfl

theorem exitNode?_renumber (b : BlockId) : (g.renumber r).exitNode? b = g.exitNode? b := by
  simp only [exitNode?, blockNode?_renumber, membersOf_renumber]

theorem calls_renumber : (g.renumber r).calls = g.calls := by
  rw [calls, calls, zipIdx_renumber, List.filterMap_map]
  rfl

theorem argNode?_renumber (index : Nat) : (g.renumber r).argNode? index = g.argNode? index := by
  have hentry : ((g.renumber r).node? (g.renumber r).entry).map Node.kind =
      (g.node? g.entry).map Node.kind := by
    rw [node?_renumber, Option.map_map]
    rfl
  rw [argNode?, argNode?, hentry]

theorem resultNode?_renumber (id : InstId) : (g.renumber r).resultNode? id = g.resultNode? id :=
  g.lastWhere?_renumber r fun _ => rfl

theorem globalNode?_renumber (id : GlobalId) : (g.renumber r).globalNode? id = g.globalNode? id :=
  g.findIdx?_renumber r fun _ => rfl

theorem constNode?_renumber (c : Constant) : (g.renumber r).constNode? c = g.constNode? c :=
  g.findIdx?_renumber r fun _ => rfl

theorem unitNode?_renumber (region : Region) :
    (g.renumber r).unitNode? region = g.unitNode? region :=
  g.findIdx?_renumber r fun _ => rfl

end Graph

namespace Plan

/-! ## Plans -/

/-- A block is read in the same way under two plans. -/
structure SameBlock (p p' : Plan) (b b' : Block) : Prop where
  id_eq : b.id = b'.id
  exit_eq : b.exit = b'.exit
  live : b.id ∈ p.flow.order
  mask_eq : p.maskCondition? b.id = p'.maskCondition? b.id
  body : List.Forall₂ (fun i i' => i.shape = i'.shape ∧ p.inputs b.id i = p'.inputs b.id i')
    b.body b'.body

/-- Two plans agree in all that lowering reads. -/
structure Alike (p p' : Plan) : Prop where
  name_eq : p.function.name = p'.function.name
  params_eq : p.function.params = p'.function.params
  globals_eq : p.function.globals = p'.function.globals
  flow : p.flow.Alike p'.flow
  loops_eq : p.loops = p'.loops
  check_eq : p.check = p'.check
  forward_eq : ∀ a ∈ p.flow.order, ∀ b, p.flow.forwardReaches a b = p'.flow.forwardReaches a b
  blocks : List.Forall₂ (p.SameBlock p') p.blocks p'.blocks

theorem Alike.refl (p : Plan) : p.Alike p := by
  refine ⟨rfl, rfl, rfl, .refl _, rfl, rfl, fun _ _ _ => rfl, List.forall₂_same.2 fun b hb => ?_⟩
  have hlive := (List.mem_filter.1 hb).2
  exact ⟨rfl, rfl, of_decide_eq_true hlive, rfl, List.forall₂_same.2 fun i _ => ⟨rfl, rfl⟩⟩

/-- The same node was made for what may differ in the entries of a phi. -/
structure SamePlace (p : Plan) (q q' : Placed) : Prop where
  block_eq : q.block = q'.block
  index_eq : q.index = q'.index
  node_eq : q.node = q'.node
  shape_eq : q.instr.shape = q'.instr.shape
  live : q.block ∈ p.flow.order

theorem SamePlace.access?_eq {p : Plan} {q q' : Placed} (h : p.SamePlace q q') :
    q.access? = q'.access? := by
  have hshape : ∀ q : Placed, q.access? = Placed.access? { q with instr := q.instr.shape } := by
    rintro ⟨block, index, instr, node⟩
    cases instr <;> rfl
  rw [hshape q, hshape q', h.block_eq, h.index_eq, h.node_eq, h.shape_eq]

section
variable {k : Nat}

/-! ## Operations that no plan takes part in -/

theorem twins_blockNode (b : BlockId) : Twins k Eq (blockNode b) (blockNode b) := by
  refine twins_get fun net => ?_
  have hnode : (net.shift k).blockNode? b = net.blockNode? b := net.blockNode?_renumber _ b
  rw [hnode]
  cases net.blockNode? b with
  | some n => exact twins_pure rfl
  | none => exact twins_refuse _

theorem twins_laySplit (parent : NodeId) {i i' : Instr} (h : i.shape = i'.shape) :
    Twins k Eq (laySplit parent i) (laySplit parent i') := by
  have hshape : ∀ j : Instr, laySplit parent j = laySplit parent j.shape := by
    intro j
    cases j <;> rfl
  rw [hshape i, hshape i', h]
  cases i'.shape with
  | call dest callee args =>
    refine (twins_push _).seq fun split => Twins.seq (twins_each fun _ => ?_) fun _ => twins_pure rfl
    exact (twins_addArgument split).seq fun _ => twins_pure rfl
  | _ => exact twins_pure rfl

theorem twins_routeMembers (b : BlockId) : Twins k Eq (routeMembers b) (routeMembers b) := by
  refine twins_get fun net => ?_
  have hnode : (net.shift k).blockNode? b = net.blockNode? b := net.blockNode?_renumber _ b
  have hmembers : (net.shift k).membersOf = net.membersOf := funext (net.membersOf_renumber _)
  rw [hnode, hmembers]
  cases net.blockNode? b with
  | none => exact twins_pure rfl
  | some parent => exact twins_each fun member => twins_connect _ _ _

theorem twins_unitNode (region : Region) : Twins k Eq (unitNode region) (unitNode region) := by
  refine twins_get fun net => ?_
  have hnode : (net.shift k).unitNode? region = net.unitNode? region := net.unitNode?_renumber _ region
  rw [hnode]
  cases net.unitNode? region with
  | some n => exact twins_pure rfl
  | none => exact twins_push _

theorem twins_routeMemory (options : Options) (accesses : List (Access × Option Region))
    (ordered : List (Access × Access)) :
    Twins k Eq (routeMemory options accesses ordered) (routeMemory options accesses ordered) := by
  refine Twins.seq (twins_each fun access => ?_) fun _ => twins_each fun pair => twins_connect _ _ _
  unfold routeAccess
  dsimp only
  cases access.2.or _ with
  | none => exact twins_pure rfl
  | some region => exact (twins_unitNode region).seq fun unit => twins_bind _ unit

theorem twins_layLoopBlock (node : NodeId) (b : BlockId) :
    Twins k Eq (layLoopBlock node b) (layLoopBlock node b) := by
  refine (twins_blockNode b).seq fun parent => (twins_addLoopBlock node parent).seq fun _ => ?_
  refine twins_get fun net => ?_
  have hmembers : (net.shift k).membersOf parent = net.membersOf parent :=
    net.membersOf_renumber _ parent
  rw [hmembers]
  exact twins_each fun member => twins_modifyLoop _ _

theorem twins_layLoop (options : Options) (l : NaturalLoop) :
    Twins k Eq (layLoop options l) (layLoop options l) := by
  refine (twins_push _).seq fun node => (twins_blockNode _).seq fun head => ?_
  refine (twins_modifyLoop _ _).seq fun _ => Twins.seq (twins_each fun latch => ?_) fun _ => ?_
  · exact (twins_blockNode latch).seq fun latch => twins_modifyLoop _ _
  · split
    · exact (twins_modifyLoop _ _).seq fun _ => twins_each (twins_layLoopBlock node)
    · exact twins_each (twins_layLoopBlock node)

end

section
variable {k : Nat} {p p' : Plan} (hp : p.Alike p')
include hp

/-! ## Layout -/

theorem Alike.mode_eq : p.mode = p'.mode := by
  funext b
  rw [mode, mode, hp.loops_eq, hp.flow.preds_eq]

theorem Alike.twins_layBlocks : Twins k Eq p.layBlocks p'.layBlocks := by
  refine twins_forM hp.blocks fun b b' h => ?_
  rw [← h.id_eq, ← hp.mode_eq]
  exact (twins_push _).seq fun _ => twins_pure rfl

theorem Alike.twins_layArguments : Twins k Eq p.layArguments p'.layArguments := by
  refine twins_get fun net => ?_
  rw [← hp.params_eq]
  exact twins_each fun _ => (twins_addArgument net.entry).seq fun _ => twins_pure rfl

theorem Alike.twins_layInstr (parent : NodeId) {b : BlockId} (hb : b ∈ p.flow.order)
    {i i' : Instr × Nat} (hi : i.1.shape = i'.1.shape) (hindex : i.2 = i'.2) :
    Twins k (p.SamePlace) (p.layInstr parent b i) (p'.layInstr parent b i') := by
  have hop : ∀ split, p.opcode parent split b i.1 = p'.opcode parent split b i'.1 := by
    have hshape : ∀ (q : Plan) split (j : Instr),
        q.opcode parent split b j = q.opcode parent split b j.shape := by
      intro q split j
      cases j <;> rfl
    intro split
    rw [hshape, hi, ← hshape]
    cases i'.1 with
    | phi dest ty incoming => exact congrArg (Opcode.phi parent) (congrFun hp.flow.preds_eq b)
    | _ => rfl
  have hresult : i.1.result? = i'.1.result? := by
    rw [← Instr.result?_shape, hi, Instr.result?_shape]
  refine (twins_laySplit parent hi).seq fun split => ?_
  rw [hop, hresult]
  exact (twins_addInstr _ _ _).seq fun node => twins_pure ⟨rfl, hindex, rfl, hi, hb⟩

theorem Alike.twins_layExit (parent : NodeId) {b b' : Block} (h : p.SameBlock p' b b') :
    Twins k Eq (p.layExit parent b) (p'.layExit parent b') := by
  have hbranch : Twins k Eq
      (do
        let successors ← (p.flow.succs b.id).mapM blockNode
        let _ ← addInstr parent (.branch successors) none)
      (do
        let successors ← (p'.flow.succs b'.id).mapM blockNode
        let _ ← addInstr parent (.branch successors) none) := by
    rw [← h.id_eq, ← hp.flow.succs_eq _ h.live]
    refine (twins_mapM (R := Eq) (S := Eq) (List.forall₂_same.2 fun _ _ => rfl) ?_).bind
      fun ns ns' hns => ?_
    · rintro t _ rfl
      exact twins_blockNode t
    rw [List.forall₂_eq_eq_eq] at hns
    rw [hns]
    exact (twins_addInstr _ _ _).seq fun _ => twins_pure rfl
  unfold layExit
  rw [← h.exit_eq]
  cases b.exit with
  | ret value => exact (twins_addInstr _ _ _).seq fun _ => twins_pure rfl
  | jump target => exact hbranch
  | branch cond ifTrue ifFalse => exact hbranch

theorem Alike.twins_layOut : Twins k (List.Forall₂ p.SamePlace) p.layOut p'.layOut := by
  refine hp.twins_layBlocks.seq fun _ => hp.twins_layArguments.seq fun _ => ?_
  refine (twins_mapM (R := List.Forall₂ p.SamePlace) hp.blocks fun b b' h => ?_).bind
    fun placed placed' hplaced => twins_pure (List.rel_flatten hplaced)
  unfold layBlock
  rw [← h.id_eq]
  refine (twins_blockNode b.id).seq fun parent => ?_
  refine (twins_mapM (forall₂_zipIdx h.body 0) fun i i' hi =>
    hp.twins_layInstr parent h.live hi.1.1 hi.2).bind fun placed placed' hplaced => ?_
  exact (hp.twins_layExit parent h).seq fun _ => twins_pure hplaced

/-! ## Routing -/

theorem Alike.twins_routeExit {b b' : Block} (h : p.SameBlock p' b b') :
    Twins k Eq (p.routeExit b) (p'.routeExit b') := by
  have hactivates : p.activates = p'.activates := by
    funext u v
    rw [activates, activates, hp.flow.preds_eq, hp.flow.isBackEdge_eq]
  refine twins_get fun net => ?_
  have hexit : (net.shift k).exitNode? b'.id = net.exitNode? b.id := by
    rw [← h.id_eq]
    exact net.exitNode?_renumber _ b.id
  rw [hexit]
  cases net.exitNode? b.id with
  | none => exact twins_pure rfl
  | some branch =>
    dsimp only
    rw [← h.id_eq, ← hp.flow.succs_eq _ h.live]
    refine twins_each fun succ => ?_
    unfold routeEdge
    rw [← hactivates]
    refine (twins_blockNode succ).seq fun target => ?_
    split
    · exact twins_activate _ _
    · exact twins_connect _ _ _

theorem Alike.twins_routeControl : Twins k Eq p.routeControl p'.routeControl := by
  refine (twins_blockNode _).seq fun entry => twins_get fun net => ?_
  refine (twins_activate entry net.entry).seq fun _ => ?_
  refine Twins.seq (twins_forM hp.blocks fun b b' h => hp.twins_routeExit h) fun _ => ?_
  rw [← hp.flow.count_eq]
  refine Twins.seq (twins_each twins_routeMembers) fun _ => twins_get fun net => ?_
  have hcalls : (net.shift k).calls = net.calls := net.calls_renumber _
  rw [hcalls]
  exact twins_each fun c => twins_connect _ _ _

theorem Alike.twins_valueNode (v : Value) : Twins k Eq (p.valueNode v) (p'.valueNode v) := by
  refine twins_get fun net => ?_
  cases v with
  | arg index =>
    have hnode : (net.shift k).argNode? index = net.argNode? index := net.argNode?_renumber _ index
    dsimp only
    rw [hnode, ← hp.name_eq]
    cases net.argNode? index with
    | some n => exact twins_pure rfl
    | none => exact twins_refuse _
  | global id =>
    have hnode : (net.shift k).globalNode? id = net.globalNode? id := net.globalNode?_renumber _ id
    dsimp only
    rw [hnode, ← hp.globals_eq]
    cases net.globalNode? id with
    | some n => exact twins_pure rfl
    | none =>
      cases p.function.globals[id]? with
      | some g => exact twins_push _
      | none => exact twins_refuse _
  | const c =>
    have hnode : (net.shift k).constNode? c = net.constNode? c := net.constNode?_renumber _ c
    dsimp only
    rw [hnode]
    cases net.constNode? c with
    | some n => exact twins_pure rfl
    | none => exact twins_push _
  | inst id =>
    have hnode : (net.shift k).resultNode? id = net.resultNode? id := net.resultNode?_renumber _ id
    dsimp only
    rw [hnode]
    cases net.resultNode? id with
    | some n => exact twins_pure rfl
    | none => exact twins_refuse _

theorem Alike.twins_feed (node : NodeId) (v : Value) :
    Twins k Eq (p.feed node v) (p'.feed node v) :=
  (hp.twins_valueNode v).seq fun _ => twins_connect _ _ _

theorem Alike.twins_routeMask {b b' : Block} (h : p.SameBlock p' b b') :
    Twins k Eq (p.routeMask b) (p'.routeMask b') := by
  have htell : ∀ parent, Twins k Eq
      (do
        let net ← get
        ((net.membersOf parent).filter (p.needsMask b.id net)).forM (connect .mask parent))
      (do
        let net ← get
        ((net.membersOf parent).filter (p'.needsMask b.id net)).forM (connect .mask parent)) := by
    refine fun parent => twins_get fun net => ?_
    have hmembers : (net.shift k).membersOf parent = net.membersOf parent :=
      net.membersOf_renumber _ parent
    have hneeds : p'.needsMask b.id (net.shift k) = p.needsMask b.id net := by
      funext member
      have hnode : (net.shift k).node? member = (net.node? member).map (Node.renumber (· + k)) :=
        net.node?_renumber _ member
      rw [needsMask, needsMask, hp.mode_eq, hnode]
      cases net.node? member <;> rfl
    rw [hmembers, hneeds]
    exact twins_each fun member => twins_connect _ _ _
  unfold routeMask
  rw [← h.id_eq, ← hp.mode_eq, ← h.mask_eq]
  refine (twins_blockNode b.id).seq fun parent => ?_
  split
  · cases p.maskCondition? b.id with
    | none => exact htell parent
    | some cond =>
      exact (hp.twins_valueNode cond).seq fun n => (twins_setMaskSource _ _).seq fun _ => htell parent
  · exact htell parent

theorem Alike.twins_routeData {placed placed' : List Placed}
    (hplaced : List.Forall₂ p.SamePlace placed placed') {b b' : Block} (h : p.SameBlock p' b b') :
    Twins k Eq (p.routeData placed b) (p'.routeData placed' b') := by
  have hmembers : (placed'.filter (·.block = b.id)).map Placed.node =
      (placed.filter (·.block = b.id)).map Placed.node := by
    induction hplaced with
    | nil => rfl
    | cons hq _ ih =>
      rw [List.filter_cons, List.filter_cons, hq.block_eq]
      split
      · rw [List.map_cons, List.map_cons, hq.node_eq, ih]
      · exact ih
  unfold routeData
  dsimp only
  rw [← h.id_eq, ← h.exit_eq, hmembers]
  refine Twins.seq (twins_forM (forall₂_zip h.body _) fun i i' hi => ?_) fun _ =>
    twins_get fun net => ?_
  · unfold routeInstr
    rw [← hi.1.2, ← hi.2]
    exact (twins_attempt _).seq fun values => twins_each (hp.twins_feed i.2)
  · have hexit : (net.shift k).exitNode? b.id = net.exitNode? b.id := net.exitNode?_renumber _ b.id
    rw [hexit]
    cases net.exitNode? b.id with
    | none => exact twins_pure rfl
    | some exit => exact twins_each (hp.twins_feed exit)

theorem Alike.twins_route {placed placed' : List Placed}
    (hplaced : List.Forall₂ p.SamePlace placed placed') :
    Twins k Eq (p.route placed) (p'.route placed') := by
  refine hp.twins_routeControl.seq fun _ => ?_
  refine Twins.seq (twins_forM hp.blocks fun b b' h => hp.twins_routeMask h) fun _ => ?_
  exact twins_forM hp.blocks fun b b' h => hp.twins_routeData hplaced h

/-! ## The two parts of lowering -/

theorem Alike.twins_construct :
    Twins k (fun as as' => as = as' ∧ ∀ a ∈ as, a.block ∈ p.flow.order) p.construct p'.construct := by
  unfold construct
  rw [← hp.check_eq]
  refine (twins_attempt _).seq fun _ => hp.twins_layOut.bind fun placed placed' hplaced => ?_
  refine (hp.twins_route hplaced).seq fun _ => twins_pure ?_
  induction hplaced with
  | nil => exact ⟨rfl, by simp⟩
  | cons hq _ ih =>
    rw [List.filterMap_cons, List.filterMap_cons, hq.access?_eq]
    split
    · exact ih
    · rename_i a ha
      rw [← hq.access?_eq, access?_eq_some] at ha
      obtain ⟨-, -, hblock, -⟩ := ha
      exact ⟨congrArg (a :: ·) ih.1, List.forall_mem_cons.2 ⟨hblock ▸ hq.live, ih.2⟩⟩

theorem Alike.twins_complete (options : Options) (accesses : List (Access × Option Region))
    (ordered : List (Access × Access)) :
    Twins k (fun g g' => g' = g.renumber (· + k)) (p.complete options accesses ordered)
      (p'.complete options accesses ordered) := by
  unfold complete
  rw [← hp.loops_eq]
  refine (twins_routeMemory options accesses ordered).seq fun _ => ?_
  exact Twins.seq (twins_each (twins_layLoop options)) fun _ => twins_finish

theorem Alike.conflicting_eq {accesses : List Access} (h : ∀ a ∈ accesses, a.block ∈ p.flow.order) :
    p.conflicting accesses = p'.conflicting accesses := by
  refine filterM_congr fun q hq => ?_
  obtain ⟨i, -, -, hi, -⟩ := mem_pairs.1 hq
  rw [conflicts, conflicts, precedes, precedes, hp.forward_eq _ (h _ (List.mem_of_getElem? hi))]

end

end Plan

/-! ## Sessions -/

namespace Session

variable {σ : Type}

/-- The session with the next number raised. -/
def raise (k : Nat) (s : Session) : Session := { s with uids := ⟨s.uids.next + k⟩ }

/-- The same lowering with all numbers raised. -/
def Lowered.raise (k : Nat) (l : Lowered σ) : Lowered σ where
  result := l.result.map (Graph.renumber (· + k))
  session := l.session.raise k
  oracle := l.oracle

theorem Lowered.raise_zero (l : Lowered σ) : l.raise 0 = l := by
  obtain ⟨result, session, oracle⟩ := l
  cases result with
  | error e => rfl
  | ok g => exact congrArg (Lowered.mk · session oracle) (congrArg Except.ok g.renumber_same)

theorem start_shift (name : String) (uids : Supply) (k : Nat) :
    (∃ net, Net.start name uids = .ok net ∧ Net.start name ⟨uids.next + k⟩ = .ok (net.shift k)) ∨
      (Net.start name uids = .error .idsExhausted ∧
        Net.start name ⟨uids.next + k⟩ = .error .idsExhausted) ∨
      (0 < k ∧ Net.start name ⟨uids.next + k⟩ = .error .idsExhausted) := by
  unfold Net.start Supply.take
  by_cases hlt : uids.next < idLimit
  · by_cases hroom : uids.next + k < idLimit
    · simp only [hlt, hroom, if_true, ok_bind, Nat.add_right_comm _ k 1]
      exact .inl ⟨_, rfl, rfl⟩
    · simp only [hroom, if_false, error_bind]
      exact .inr (.inr ⟨Nat.pos_of_ne_zero fun h => hroom (by rwa [h]), trivial⟩)
  · have hroom : ¬ uids.next + k < idLimit := fun h => hlt (Nat.lt_of_le_of_lt (Nat.le_add_right ..) h)
    simp only [hlt, hroom, if_false, error_bind]
    exact .inr (.inl ⟨trivial, trivial⟩)

/-- The second lowering ran out of numbers or is the first one with all numbers raised. -/
def Follows (k : Nat) (l l' : Lowered σ) : Prop :=
  (0 < k ∧ l'.result = .error (.fault .idsExhausted)) ∨ l' = l.raise k

theorem follows_settle {p p' : Plan} (hp : p.Alike p') (s : Session) (k : Nat) (d : Disambiguator σ)
    (oracle : σ) (net : Net) (accesses : List Access) (conflicting : List (Access × Access)) :
    Follows k (s.settle p d oracle net accesses conflicting)
      ((s.raise k).settle p' d oracle (net.shift k) accesses conflicting) := by
  unfold settle
  cases d.regions accesses oracle with
  | mk regions oracle =>
    dsimp only
    cases d.aliasing conflicting oracle with
    | mk ordered oracle =>
      have hrun := hp.twins_complete (k := k) s.options (accesses.zip regions) ordered net
      have hoptions : (s.raise k).options = s.options := rfl
      simp only [EStateM.run, hoptions]
      generalize p.complete s.options (accesses.zip regions) ordered net = x,
        p'.complete s.options (accesses.zip regions) ordered (net.shift k) = x' at hrun
      cases hrun with
      | ok net h => exact .inr (h ▸ rfl)
      | error e net => exact .inr rfl
      | short net hk => exact .inl ⟨hk, rfl⟩

/-- Lowerings of plans that are alike, from sessions that differ in the next number. -/
theorem follows_lower {f f' : Function}
    (hplan : Agree Plan.Alike (Plan.ofFunction f) (Plan.ofFunction f')) (s : Session) (k : Nat)
    (d : Disambiguator σ) (oracle : σ) :
    Follows k (s.lower f d oracle) ((s.raise k).lower f' d oracle) := by
  unfold lower prepare
  generalize Plan.ofFunction f = x, Plan.ofFunction f' = x' at hplan
  cases hplan with
  | error e => exact .inr rfl
  | @ok p p' hp =>
    have huids : (s.raise k).uids = ⟨s.uids.next + k⟩ := rfl
    simp only [ok_bind, ← hp.name_eq, huids]
    rcases start_shift p.function.name s.uids k with ⟨net, hnet, hnet'⟩ | ⟨hnet, hnet'⟩ | ⟨hk, hnet'⟩
    · have hrun := hp.twins_construct (k := k) net
      simp only [hnet, hnet', ok_bind, pure, Except.pure, EStateM.run]
      generalize p.construct net = x, p'.construct (net.shift k) = x' at hrun
      cases hrun with
      | error e net => exact .inr rfl
      | short net hk => exact .inl ⟨hk, rfl⟩
      | @ok accesses _ net h =>
        obtain ⟨rfl, hlive⟩ := h
        dsimp only
        rw [← hp.conflicting_eq hlive]
        cases p.conflicting accesses with
        | error e => exact .inr rfl
        | ok conflicting => exact follows_settle hp s k d oracle net accesses conflicting
    · rw [hnet, hnet']
      exact .inr rfl
    · rw [hnet']
      exact .inl ⟨hk, rfl⟩

end Session

end Dataflow
