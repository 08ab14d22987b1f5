import Dataflow.Lower.Session
import Dataflow.Proofs.Net.Audit
import Dataflow.Proofs.Net.Operations

/-!
# What lowering draws

Every node that lowering makes has a `Label` that says what it is for. While a plan is lowered, the
net is at every moment the drawing `Plan.draw` of the labels and wires that are there so far: what a
node is follows from them. A block has the members that are there, it is activated by the last wire
that activates it, and an access is bound to the unit its last request goes to.
-/

namespace Dataflow

/-- What a node is for. -/
inductive Label
  /-- The split call with the function's arguments. -/
  | entry
  | block (b : BlockId)
  | param (index : Nat)
  /-- The split call of the call at a position of a block. -/
  | split (b : BlockId) (index : Nat)
  | splitArg (b : BlockId) (index arg : Nat)
  /-- The instruction at a position of a block. -/
  | instr (b : BlockId) (index : Nat)
  | exit (b : BlockId)
  /-- A global or a constant. -/
  | leaf (v : Value)
  | unit (r : Region)
  /-- The loop at a header. -/
  | loop (header : BlockId)
deriving DecidableEq

/-- The node that lists a label: a block its members, a split call its arguments. -/
def Label.owner? : Label → Option Label
  | .param _ => some .entry
  | .splitArg b i _ => some (.split b i)
  | .instr b _ | .exit b => some (.block b)
  | _ => none

namespace Plan

variable (p : Plan) (o : Options) (id : Label → NodeId) (L : List Label) (W : List (Wire Label))

def instr? (b : BlockId) (i : Nat) : Option Instr := p.function.blocks[b]?.bind (·.body[i]?)

/-- Whether a label is that of a phi. -/
def isPhi : Label → Bool
  | .instr b i => (p.instr? b i).any Instr.isPhi
  | _ => false

/-- The instructions and the exit of a block. -/
def members (b : BlockId) : List Label :=
  p.function.blocks[b]?.elim [] fun c => (List.range c.body.length).map (.instr b) ++ [.exit b]

/-- Whether a control input of a block is the one that activates it. -/
def fires (b : BlockId) : Label → Bool
  | .entry => true
  | .exit u => p.activates u b
  | _ => false

/-- Whether a label is that of a loop around a block. -/
def surrounds (b : BlockId) : Label → Bool
  | .loop h => b ∈ p.flow.loopBody h
  | _ => false

/-- The labels that `x` lists. -/
def owned (x : Label) : List Label := L.filter (·.owner? = some x)

def blockNodeAt (b : BlockId) : BlockNode where
  block := b
  mode := p.mode b
  activate := ((portsAt W (.block b) .ctrlIn).filter (p.fires b)).getLast?.map id
  instructions := ((owned L (.block b)).filter (!p.isPhi ·)).map id
  phis := ((owned L (.block b)).filter p.isPhi).map id
  maskSource := (portsAt W (.block b) .dataIn).getLast?.map id
  parentLoop := (L.filter (p.surrounds b)).getLast?.map id

/-- The operation of an instruction, bound to the unit that its last request goes to. -/
def opcodeAt (b : BlockId) (i : Nat) (instr : Instr) : Opcode :=
  let op := p.opcode (id (.block b)) (id (.split b i)) b instr
  (portsAt W (.instr b i) .memReq).getLast?.elim op fun u => op.withMemory (id u)

def exitOp (b : BlockId) : Opcode :=
  match p.function.blocks[b]?.map Block.exit with
  | some (.ret _) | none => .ret
  | some _ => .branch ((p.flow.succs b).map fun s => id (.block s))

def loopNodeAt (h : BlockId) : LoopNode where
  head := some (id (.block h))
  latches := (p.flow.latches h).map fun b => id (.block b)
  blocks := (p.flow.loopBody h).map fun b => id (.block b)
  instructions := ((p.flow.loopBody h).flatMap p.members).map id
  merged := 1 < (p.flow.latches h).length ∧ o.mergeLatches

/-- What a label is, given the labels and wires that are there. -/
def kindOf : Label → NodeKind
  | .entry => .split ((owned L .entry).map id)
  | .block b => .block (p.blockNodeAt id L W b)
  | .param i => .arg i (id .entry)
  | .split b i => .split ((owned L (.split b i)).map id)
  | .splitArg b i j => .arg j (id (.split b i))
  | .instr b i =>
    match p.instr? b i with
    | some instr => .instr ⟨p.opcodeAt id W b i instr, id (.block b), instr.result?⟩
    | none => .split []
  | .exit b => .instr ⟨p.exitOp id b, id (.block b), none⟩
  | .leaf (.global g) => .global g (p.function.globals[g]?.elim "" Decl.name)
  | .leaf (.const c) => .const c
  | .leaf _ => .split []
  | .unit r => .memory r
  | .loop h => .loop (p.loopNodeAt o id h)

/-- The drawing with some labels and wires. -/
def draw : Drawing Label := ⟨L, p.kindOf o id L W, W⟩

variable {p o id L W}

@[simp] theorem draw_labels : (p.draw o id L W).labels = L := rfl

@[simp] theorem draw_wires : (p.draw o id L W).wires = W := rfl

@[simp] theorem draw_kind : (p.draw o id L W).kind = p.kindOf o id L W := rfl

/-! ## How kinds change -/

theorem owned_append (L' : List Label) (x : Label) : owned (L ++ L') x = owned L x ++ owned L' x :=
  List.filter_append ..

theorem owned_concat {l x : Label} :
    owned (L ++ [l]) x = if l.owner? = some x then owned L x ++ [l] else owned L x := by
  unfold owned
  rw [List.filter_append]
  split
  · rename_i h
    simp [h]
  · rename_i h
    simp [h]

/-- A new label changes its owner and, if it is a loop, the blocks of the loop. -/
theorem kindOf_add {l x : Label} (hx : l.owner? ≠ some x)
    (hs : ∀ b, x = .block b → p.surrounds b l = false) :
    p.kindOf o id (L ++ [l]) W x = p.kindOf o id L W x := by
  have howned : owned (L ++ [l]) x = owned L x := by rw [owned_concat, if_neg hx]
  cases x with
  | entry => simp only [kindOf, howned]
  | split b i => simp only [kindOf, howned]
  | block b =>
    have hloop : (L ++ [l]).filter (p.surrounds b) = L.filter (p.surrounds b) := by
      rw [List.filter_append, List.filter_cons_of_neg (by simp [hs b rfl]), List.filter_nil,
        List.append_nil]
    simp only [kindOf, blockNodeAt, howned, hloop]
  | leaf v => cases v <;> rfl
  | _ => rfl

/-- New wires change the blocks that they feed or activate and the accesses that they bind. -/
theorem kindOf_append {ws : List (Wire Label)} {x : Label}
    (hctrl : ∀ b, x = .block b → ∀ a ∈ portsAt ws x .ctrlIn, p.fires b a = false)
    (hdata : ∀ b, x = .block b → portsAt ws x .dataIn = [])
    (hreq : ∀ b i, x = .instr b i → portsAt ws x .memReq = []) :
    p.kindOf o id L (W ++ ws) x = p.kindOf o id L W x := by
  cases x with
  | block b =>
    have hfire : (portsAt ws (.block b) .ctrlIn).filter (p.fires b) = [] := by
      rw [List.filter_eq_nil_iff]
      exact fun a ha => by simp [hctrl b rfl a ha]
    simp only [kindOf, blockNodeAt, portsAt_append, List.filter_append, hfire, hdata b rfl,
      List.append_nil]
  | instr b i => simp only [kindOf, opcodeAt, portsAt_append, hreq b i rfl, List.append_nil]
  | leaf v => cases v <;> rfl
  | _ => rfl

/-! ## Exits -/

theorem exitOp_eq_ret {b : Block} (hb : p.function.blocks[b.id]? = some b) {v : Option Value}
    (hexit : b.exit = .ret v) : p.exitOp id b.id = .ret := by
  rw [exitOp, hb, Option.map_some, hexit]

theorem exitOp_eq_branch {b : Block} (hb : p.function.blocks[b.id]? = some b)
    (hexit : ∀ v, b.exit ≠ .ret v) :
    p.exitOp id b.id = .branch ((p.flow.succs b.id).map fun s => id (.block s)) := by
  rw [exitOp, hb, Option.map_some]
  cases h : b.exit with
  | ret v => exact absurd h (hexit v)
  | _ => rfl

/-! ## Finding nodes -/

section
variable {F : Frame Label}

theorem block?_node (l : Label) : (F.node (p.draw o F.id L W) l).block? =
    match l with
    | .block b => some (p.blockNodeAt F.id L W b)
    | _ => none := by
  cases l with
  | instr b i => cases h : p.instr? b i <;> simp [Node.block?, Frame.node, kindOf, h]
  | leaf v => cases v <;> rfl
  | _ => rfl

theorem instr?_node (l : Label) : (F.node (p.draw o F.id L W) l).instr? =
    match l with
    | .instr b i => (p.instr? b i).map fun instr =>
      ⟨p.opcodeAt F.id W b i instr, F.id (.block b), instr.result?⟩
    | .exit b => some ⟨p.exitOp F.id b, F.id (.block b), none⟩
    | _ => none := by
  cases l with
  | instr b i => cases h : p.instr? b i <;> simp [Node.instr?, Frame.node, kindOf, h]
  | leaf v => cases v <;> rfl
  | _ => rfl

end

end Plan

namespace Frame

variable {α : Type} [DecidableEq α] {F : Frame α} {d : Drawing α}

theorem Fits.nodesWhere_eq (hd : F.Fits d) (q : Node → Bool) :
    (F.net d).nodesWhere q = (d.labels.filter fun l => q (F.node d l)).map F.id := by
  rw [Graph.nodesWhere, hd.zipIdx_nodes, List.filter_map, List.map_map]
  rfl

theorem filter_eq_singleton {xs : List α} (hnd : xs.Nodup) {x : α} (hx : x ∈ xs) {q : α → Bool}
    (hq : ∀ y ∈ xs, q y = true ↔ y = x) : xs.filter q = [x] := by
  have hfilter : xs.filter q = xs.filter (· == x) :=
    List.filter_congr fun y hy => by rw [Bool.eq_iff_iff, hq y hy, beq_iff_eq]
  rw [hfilter, List.filter_beq, List.count_eq_one_of_mem hnd hx, List.replicate_one]

theorem Fits.lastWhere?_eq (hd : F.Fits d) {q : Node → Bool} {x : α} (hx : x ∈ d.labels)
    (hq : ∀ l ∈ d.labels, q (F.node d l) = true ↔ l = x) :
    (F.net d).lastWhere? q = some (F.id x) := by
  rw [Graph.lastWhere?, hd.nodesWhere_eq, filter_eq_singleton hd.nodup hx hq]
  rfl

theorem Fits.lastWhere?_eq_none (hd : F.Fits d) {q : Node → Bool}
    (hq : ∀ l ∈ d.labels, q (F.node d l) = false) : (F.net d).lastWhere? q = none := by
  rw [Graph.lastWhere?, hd.nodesWhere_eq, List.filter_eq_nil_iff.2 fun l hl => by simp [hq l hl]]
  rfl

theorem Fits.findIdx?_eq (hd : F.Fits d) {q : Node → Bool} {x : α} (hx : x ∈ d.labels)
    (hq : ∀ l ∈ d.labels, q (F.node d l) = true ↔ l = x) :
    (F.net d).nodes.findIdx? q = some (F.id x) := by
  rw [net, List.findIdx?_map, List.findIdx?_eq_some_iff_getElem]
  obtain ⟨hlt, hget⟩ := List.getElem?_eq_some_iff.1 (hd.getElem?_id hx)
  refine ⟨hlt, ?_, fun j hj => ?_⟩
  · rw [hget]
    exact (hq x hx).2 rfl
  · rw [Function.comp_apply, hq _ (List.getElem_mem _)]
    intro hjx
    have := hd.id_eq (List.getElem?_eq_getElem (Nat.lt_trans hj hlt))
    rw [hjx] at this
    exact absurd (this ▸ hj) (Nat.lt_irrefl _)

theorem Fits.findIdx?_eq_ite (hd : F.Fits d) {q : Node → Bool} {x : α}
    (hq : ∀ l, q (F.node d l) = true ↔ l = x) :
    (F.net d).nodes.findIdx? q = if x ∈ d.labels then some (F.id x) else none := by
  split
  · rename_i hx
    exact hd.findIdx?_eq hx fun l _ => hq l
  · rename_i hx
    rw [net, List.findIdx?_map, List.findIdx?_eq_none_iff]
    intro l hl
    rw [Function.comp_apply, Bool.eq_false_iff, ne_eq, hq]
    rintro rfl
    exact hx hl

end Frame

namespace Plan

variable {p : Plan} {o : Options} {F : Frame Label} {L : List Label} {W : List (Wire Label)}
  (hd : F.Fits (p.draw o F.id L W))
include hd

theorem blockNode?_eq {b : BlockId} (hb : .block b ∈ L) :
    (F.net (p.draw o F.id L W)).blockNode? b = some (F.id (.block b)) := by
  refine hd.lastWhere?_eq hb fun l _ => ?_
  rw [block?_node]
  cases l <;> simp [blockNodeAt]

theorem blockNode?_eq_none {b : BlockId} (hb : .block b ∉ L) :
    (F.net (p.draw o F.id L W)).blockNode? b = none := by
  refine hd.lastWhere?_eq_none fun l hl => ?_
  rw [block?_node]
  cases l with
  | block c =>
    simp only [Option.any_some, blockNodeAt, decide_eq_false_iff_not]
    rintro rfl
    exact hb hl
  | _ => rfl

theorem draws_blockNode {b : BlockId} (hb : .block b ∈ L) :
    F.Draws (blockNode b) (p.draw o F.id L W) (F.id (.block b)) (p.draw o F.id L W) := by
  refine .get ?_
  rw [blockNode?_eq hd hb]
  exact .pure hd _

theorem membersOf_eq {b : BlockId} (hb : .block b ∈ L) :
    (F.net (p.draw o F.id L W)).membersOf (F.id (.block b)) =
      (p.blockNodeAt F.id L W b).members := by
  rw [Graph.membersOf, Graph.node?, hd.getElem?_nodes hb, Option.bind_some, block?_node]
  rfl

theorem globalNode?_eq (g : GlobalId) : (F.net (p.draw o F.id L W)).globalNode? g =
    if .leaf (.global g) ∈ L then some (F.id (.leaf (.global g))) else none := by
  refine hd.findIdx?_eq_ite fun l => ?_
  simp only [Frame.node, draw_kind]
  cases l with
  | instr b k => cases h : p.instr? b k <;> simp [kindOf, h]
  | leaf v => cases v <;> simp [kindOf]
  | _ => simp [kindOf]

theorem constNode?_eq (c : Constant) : (F.net (p.draw o F.id L W)).constNode? c =
    if .leaf (.const c) ∈ L then some (F.id (.leaf (.const c))) else none := by
  refine hd.findIdx?_eq_ite fun l => ?_
  simp only [Frame.node, draw_kind]
  cases l with
  | instr b k => cases h : p.instr? b k <;> simp [kindOf, h]
  | leaf v => cases v <;> simp [kindOf]
  | _ => simp [kindOf]

theorem unitNode?_eq (r : Region) : (F.net (p.draw o F.id L W)).unitNode? r =
    if .unit r ∈ L then some (F.id (.unit r)) else none := by
  refine hd.findIdx?_eq_ite fun l => ?_
  simp only [Frame.node, draw_kind]
  cases l with
  | instr b k => cases h : p.instr? b k <;> simp [kindOf, h]
  | leaf v => cases v <;> simp [kindOf]
  | _ => simp [kindOf]

theorem argNode?_eq (hentry : .entry ∈ L) (hid : F.id .entry = 0) (i : Nat) :
    (F.net (p.draw o F.id L W)).argNode? i = ((owned L .entry)[i]?).map F.id := by
  have hnode : (F.net (p.draw o F.id L W)).node? (F.net (p.draw o F.id L W)).entry =
      some (F.node (p.draw o F.id L W) .entry) := by
    have h := hd.getElem?_nodes hentry
    rw [hid] at h
    exact h
  rw [Graph.argNode?, hnode]
  simp only [Option.map_some, Frame.node, draw_kind, kindOf, List.getElem?_map]

end Plan

end Dataflow
