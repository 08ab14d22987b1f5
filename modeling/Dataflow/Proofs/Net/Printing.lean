import Dataflow.Net.Render
import Dataflow.Proofs.Net.Moves
import Dataflow.Proofs.Net.Served

/-!
# Finishing and printing meet no fault

Nodes store other nodes, and loops are given heads and latches that nobody has looked at. Two facts
keep every look-up from failing. The audit only looks up neighbours and stored nodes, which exist in a
reached net (`InStep.audit_failsOnly_isFault`); the head of a loop it looks up after it has found it
among the loop's blocks. What passes the audit is `Graph.Printable`: heads and latches exist as well.

A dialect that covers a graph (`Dialect.Covers`) has a text for each of its nodes and ports. With such
a dialect a printer fails at a node of the graph only by saying that there is no such port
(`Printable.answer_failsOnly`), and away from the graph by saying so (`answer_foreign`).
-/

namespace Dataflow

def Failure.isFault : Failure → Bool
  | .fault _ => true
  | .refused _ => false

namespace Graph

variable {g : Graph}

theorem exists_node {id : NodeId} (h : id < g.nodes.length) : ∃ n, g.node id = .ok n :=
  ⟨_, lookup_eq_ok.2 (List.getElem?_eq_getElem h)⟩

/-! ## The audit -/

theorem InStep.lt_of_mem_ports (hg : g.InStep) {n x : NodeId} {s : Slot} (hx : x ∈ g.ports n s) :
    x < g.nodes.length := by
  obtain ⟨e, he, i, hspot⟩ := hg.exists_edge hx
  rcases Edge.spot?_eq_some.1 hspot with ⟨-, rfl, -⟩ | ⟨-, rfl, -⟩
  · exact (hg.ends he).2
  · exact (hg.ends he).1

theorem InStep.audit_failsOnly_isFault (hg : g.InStep) (hanchored : g.Anchored) :
    FailsOnly (·.isFault = false) g.audit := by
  have hnode : ∀ {id}, id < g.nodes.length →
      FailsOnly (fun f => (Failure.fault f).isFault = false) (g.node id) := by
    intro id hid
    obtain ⟨n, hn⟩ := exists_node hid
    rw [hn]
    exact failsOnly_ok n
  exact hg.audit_failsOnly_of_allows
    { refused := fun _ _ => rfl
      port := fun _ _ _ hx => hnode (hg.lt_of_mem_ports hx)
      stored := fun n kind hkind x hx => hnode (hanchored n kind hkind x hx) }

/-- What the audit asks of a loop with the given head. -/
structure Resolved (g : Graph) (l : LoopNode) (head : NodeId) : Prop where
  head_eq : l.head = some head
  head_mem : head ∈ l.blocks
  latches_ne : l.latches ≠ []
  latches_mem : ∀ latch ∈ l.latches, latch ∈ l.blocks
  merged : l.latches.length ≤ 1 ∨ l.merged = true
  entry : ∃ inside, (g.ports head .ctrlIn).mapM (g.isInside l) = .ok inside ∧ inside.count false = 1
  fanIn : (g.ports head .ctrlIn).length = 1 + l.latches.length

theorem loop_of_audit (haudit : g.audit = .ok ()) {n : NodeId} {l : LoopNode}
    (hl : g.kind? n = some (.loop l)) : ∃ head, g.Resolved l head := by
  obtain ⟨node, hnode, hkind⟩ := kind?_eq_some.1 hl
  have hcheck := checkNode_of_audit haudit hnode
  simp only [checkNode, hkind, checkLoop] at hcheck
  split at hcheck
  · cases hcheck
  · rename_i head hhead
    obtain ⟨hmem, hcheck⟩ := seq_eq_ok.1 hcheck
    obtain ⟨hne, hcheck⟩ := seq_eq_ok.1 hcheck
    split at hcheck
    · cases hcheck
    · rename_i hfind
      obtain ⟨hmerged, hcheck⟩ := seq_eq_ok.1 hcheck
      obtain ⟨headNode, hheadNode, hcheck⟩ := bind_eq_ok.1 hcheck
      obtain ⟨inside, hinside, hcheck⟩ := bind_eq_ok.1 hcheck
      obtain ⟨hentry, hfanIn⟩ := seq_eq_ok.1 hcheck
      have hports : g.ports head .ctrlIn = headNode.ports.ctrlIn :=
        ports_eq (lookup_eq_ok.1 (orFault_eq_ok.1 hheadNode)) .ctrlIn
      exact ⟨head,
        { head_eq := hhead
          head_mem := demand_eq_ok.1 hmem
          latches_ne := demand_eq_ok.1 hne
          latches_mem := by
            simpa using List.find?_eq_none.1 (Option.eq_none_iff_forall_ne_some.2 hfind)
          merged := demand_eq_ok.1 hmerged
          entry := ⟨inside, by rw [hports, orFault_eq_ok.1 hinside], demand_eq_ok.1 hentry⟩
          fanIn := by rw [hports, demand_eq_ok.1 hfanIn] }⟩

/-! ## What printers look up -/

/-- The nodes that printers look up exist. -/
structure Printable (g : Graph) : Prop where
  edge : ∀ e ∈ g.edges, e.src < g.nodes.length ∧ e.dst < g.nodes.length
  stored : g.Anchored
  head : ∀ n l head, g.kind? n = some (.loop l) → l.head = some head → head < g.nodes.length
  latch : ∀ n l, g.kind? n = some (.loop l) → ∀ latch ∈ l.latches, latch < g.nodes.length

theorem InStep.printable (hg : g.InStep) (hanchored : g.Anchored) (haudit : g.audit = .ok ()) :
    g.Printable where
  edge _ he := hg.ends he
  stored := hanchored
  head n _ _ hl hhead := by
    obtain ⟨head, hloop⟩ := loop_of_audit haudit hl
    obtain rfl := Option.some.inj (hhead.symm.trans hloop.head_eq)
    exact hanchored n _ hl _ hloop.head_mem
  latch n _ hl latch hlatch := by
    obtain ⟨head, hloop⟩ := loop_of_audit haudit hl
    exact hanchored n _ hl latch (hloop.latches_mem latch hlatch)

end Graph

/-- The dialect has a text for every node of the graph and for every port of one. -/
structure Dialect.Covers (d : Dialect) (g : Graph) : Prop where
  definition : ∀ id n, g.node? id = some n → ∃ text, d.definition g id n = .ok text
  port : ∀ p : PortRef, p.node < g.nodes.length → ∃ text, d.port g p = .ok text

namespace Dialect

variable (d : Dialect) (g : Graph)

/-- The declaration of a node, if the dialect has one. -/
def declaration (n : Node × NodeId) : String := (d.definition g n.2 n.1).toOption.getD ""

/-- The text of a port, if the dialect has one. -/
def portText (p : PortRef) : String := (d.port g p).toOption.getD ""

variable {d g}

theorem Covers.definition_eq (hd : d.Covers g) {n : Node × NodeId} (hn : n ∈ g.nodes.zipIdx) :
    d.definition g n.2 n.1 = .ok (d.declaration g n) := by
  obtain ⟨text, htext⟩ := hd.definition n.2 n.1 (List.mem_zipIdx_iff_getElem?.1 hn)
  rw [declaration, htext]
  rfl

theorem Covers.port_eq (hd : d.Covers g) {p : PortRef} (hp : p.node < g.nodes.length) :
    d.port g p = .ok (d.portText g p) := by
  obtain ⟨text, htext⟩ := hd.port p hp
  rw [portText, htext]
  rfl

end Dialect

theorem Graph.Printable.bodyText_eq_ok {g : Graph} (hg : g.Printable) {id : NodeId} {kind : NodeKind}
    (hkind : g.kind? id = some kind) : ∃ text, Dialect.bodyText g kind = .ok text := by
  cases kind with
  | loop l =>
    cases hhead : l.head with
    | none => exact ⟨_, by rw [Dialect.bodyText, hhead]; rfl⟩
    | some head =>
      obtain ⟨n, hn⟩ := exists_node (hg.head id l head hkind hhead)
      exact ⟨_, by rw [Dialect.bodyText, hhead]; simp only [hn]; rfl⟩
  | _ => exact ⟨_, rfl⟩

theorem Graph.Printable.plain_covers {g : Graph} (hg : g.Printable) (format : Format) :
    (Dialect.plain format).Covers g where
  definition id n hn := by
    obtain ⟨body, hbody⟩ := hg.bodyText_eq_ok (kind?_eq_some.2 ⟨n, hn, rfl⟩)
    exact ⟨_, bind_eq_ok.2 ⟨body, hbody, rfl⟩⟩
  port p hp := by
    obtain ⟨n, hn⟩ := exists_node hp
    exact ⟨_, bind_eq_ok.2 ⟨n, hn, rfl⟩⟩

/-- What a printer may answer at a node of the graph when it has no text. -/
def Failure.isLocal : Failure → Bool
  | .refused (.badPort _ _ .foreign) | .fault _ => false
  | .refused _ => true

namespace Graph

variable {g : Graph} {d : Dialect}

/-! ## Printers -/

theorem select_subset {ports chosen : List PortRef} {id : NodeId} {slot : Slot} {index : Option Nat}
    (h : select ports id slot index = .ok chosen) : chosen ⊆ ports := by
  unfold select at h
  split at h
  · cases h
    exact List.Subset.refl _
  · split at h
    · rename_i p hp
      cases h
      exact List.cons_subset.2 ⟨List.mem_of_getElem? hp, List.nil_subset _⟩
    · cases h

theorem select_failsOnly (ports : List PortRef) (id : NodeId) (slot : Slot) (index : Option Nat) :
    FailsOnly (·.isLocal = true) (select ports id slot index) := by
  unfold select
  split
  · exact failsOnly_ok _
  · split
    · exact failsOnly_ok _
    · exact failsOnly_error rfl

theorem render_eq_ok (hd : d.Covers g) {ports : List PortRef}
    (hports : ∀ p ∈ ports, p.node < g.nodes.length) : ∃ text, g.render d ports = .ok text := by
  obtain ⟨texts, htexts⟩ := exists_mapM_eq_ok fun p hp => hd.port p (hports p hp)
  exact ⟨d.list texts, by rw [render, htexts]; rfl⟩

theorem renderAt_failsOnly (hd : d.Covers g) {ports : List PortRef}
    (hports : ∀ p ∈ ports, p.node < g.nodes.length) (id : NodeId) (slot : Slot)
    (index : Option Nat) : FailsOnly (·.isLocal = true) (g.renderAt d ports id slot index) := by
  refine .andThen (select_failsOnly ports id slot index) fun chosen hchosen => ?_
  obtain ⟨text, htext⟩ := render_eq_ok hd fun p hp => hports p (select_subset hchosen hp)
  rw [htext]
  exact failsOnly_ok text

theorem node_of_mem_portsOf {id : NodeId} {n : Node} {slot : Slot} {p : PortRef}
    (hp : p ∈ portsOf id n slot) : p.node = id := by
  obtain ⟨i, -, rfl⟩ := List.mem_map.1 hp
  rfl

theorem renderAt_portsOf_failsOnly (hd : d.Covers g) {node : NodeId} (hnode : node < g.nodes.length)
    (n : Node) (id : NodeId) (slot : Slot) (index : Option Nat) :
    FailsOnly (·.isLocal = true) (g.renderAt d (portsOf node n slot) id slot index) :=
  renderAt_failsOnly hd (fun _ hp => node_of_mem_portsOf hp ▸ hnode) id slot index

theorem renderNeighbor_failsOnly (hd : d.Covers g) {id : NodeId} (hid : id < g.nodes.length)
    (slot : Slot) (neighbor : NodeId) :
    FailsOnly (·.isLocal = true) (g.renderNeighbor id slot neighbor d) := by
  unfold renderNeighbor portIndex
  cases (g.ports id slot).idxOf? neighbor with
  | none => exact failsOnly_error rfl
  | some index =>
    obtain ⟨text, htext⟩ := hd.port ⟨id, slot, index⟩ hid
    simp only [htext]
    exact failsOnly_ok text

/-- The questions printers answer about the ports of a node. -/
inductive Query
  | inputEnable | outputEnable | inputData | outputData | maskInput | maskOutput | activateEnable
deriving DecidableEq

/-- The slot a question is about. -/
def Query.slot : Query → Slot
  | .inputEnable | .activateEnable => .ctrlIn
  | .outputEnable => .ctrlOut
  | .inputData => .dataIn
  | .outputData => .dataOut
  | .maskInput => .depIn
  | .maskOutput => .depOut

/-- The answer of the printer for a question. -/
def answer (g : Graph) (q : Query) (id : NodeId) (index : Option Nat) (d : Dialect) : Rendered :=
  match q with
  | .inputEnable => g.inputEnable id index d
  | .outputEnable => g.outputEnable id index d
  | .inputData => g.inputData id index d
  | .outputData => g.outputData id index d
  | .maskInput => g.maskInput id d
  | .maskOutput => g.maskOutput id index d
  | .activateEnable => g.activateEnable id d

theorem owned_foreign {id : NodeId} (h : g.nodes.length ≤ id) (slot : Slot) :
    g.owned id slot = noPort id slot .foreign := by
  rw [owned, node?, List.getElem?_eq_none h]

theorem answer_foreign {id : NodeId} (h : g.nodes.length ≤ id) (q : Query) (index : Option Nat)
    (d : Dialect) : g.answer q id index d = .error (.refused (.badPort id q.slot .foreign)) := by
  cases q <;>
    simp only [answer, inputEnable, outputEnable, inputData, outputData, maskInput, maskOutput,
      activateEnable, owned_foreign h] <;> rfl

theorem owned_eq_ok {id : NodeId} {n : Node} (h : g.nodes[id]? = some n) (slot : Slot) :
    g.owned id slot = .ok n := by
  rw [owned, node?, h]

section
variable (hg : g.Printable) (hd : d.Covers g)
include hg hd

theorem Printable.inputEnable_failsOnly {id : NodeId} {n : Node} (hn : g.nodes[id]? = some n)
    (index : Option Nat) : FailsOnly (·.isLocal = true) (g.inputEnable id index d) := by
  have hid := (List.getElem?_eq_some_iff.1 hn).1
  rw [inputEnable, owned_eq_ok hn, ok_bind]
  split
  · exact renderAt_portsOf_failsOnly hd hid n id _ index
  · exact renderAt_portsOf_failsOnly hd hid n id _ index
  · exact renderAt_portsOf_failsOnly hd hid n id _ index
  · rename_i l hkind
    split
    · rename_i head hhead
      have hlt := hg.head id l head (kind?_eq_some.2 ⟨n, hn, hkind⟩) hhead
      obtain ⟨h, hh⟩ := exists_node hlt
      rw [hh, orFault_ok, ok_bind]
      exact renderAt_portsOf_failsOnly hd hlt h id _ index
    · exact failsOnly_error rfl
  all_goals exact failsOnly_error rfl

omit hd in
/-- The exits of a loop's latches are members of blocks, so they exist. -/
theorem Printable.latchExits_eq_ok {id : NodeId} {l : LoopNode} (hl : g.kind? id = some (.loop l)) :
    ∃ exits, g.latchExits l = .ok exits ∧ ∀ e ∈ exits, e < g.nodes.length := by
  have hlatch : ∀ latch ∈ l.latches, ∃ n, g.nodes[latch]? = some n ∧ g.node latch = .ok n := by
    intro latch hlatch
    have hnode := List.getElem?_eq_getElem (hg.latch id l hl latch hlatch)
    exact ⟨_, hnode, lookup_eq_ok.2 hnode⟩
  refine ⟨_, bind_eq_ok.2 ⟨_, mapM_eq_ok hlatch, rfl⟩, fun e he => ?_⟩
  obtain ⟨b, hb, hlast⟩ := List.mem_filterMap.1 he
  obtain ⟨n, hn, hblock⟩ := List.mem_filterMap.1 hb
  obtain ⟨latch, -, hnode⟩ := List.mem_filterMap.1 hn
  have hkind : g.kind? latch = some (.block b) :=
    kind?_eq_some.2 ⟨n, hnode, Node.kind_of_block? hblock⟩
  exact hg.stored latch _ hkind e (List.mem_append_right _ (List.mem_of_getLast? hlast))

omit hg hd in
theorem exitPorts_eq_ok {exits : List NodeId} (h : ∀ e ∈ exits, e < g.nodes.length) :
    ∃ ports, exits.mapM (fun e => do return portsOf e (← g.node e) .ctrlOut) = .ok ports ∧
      ∀ p ∈ ports.flatten, p.node < g.nodes.length := by
  have hexit : ∀ e ∈ exits, ∃ ports, g.nodes[e]?.map (portsOf e · .ctrlOut) = some ports ∧
      (do return portsOf e (← g.node e) .ctrlOut) = Except.ok ports := by
    intro e he
    have hnode := List.getElem?_eq_getElem (h e he)
    exact ⟨_, by rw [hnode]; rfl, bind_eq_ok.2 ⟨_, lookup_eq_ok.2 hnode, rfl⟩⟩
  refine ⟨_, mapM_eq_ok hexit, fun p hp => ?_⟩
  obtain ⟨ports, hports, hp⟩ := List.mem_flatten.1 hp
  obtain ⟨e, he, hports⟩ := List.mem_filterMap.1 hports
  obtain ⟨n, -, rfl⟩ := Option.map_eq_some_iff.1 hports
  exact node_of_mem_portsOf hp ▸ h e he

theorem Printable.outputEnable_failsOnly {id : NodeId} {n : Node} (hn : g.nodes[id]? = some n)
    (index : Option Nat) : FailsOnly (·.isLocal = true) (g.outputEnable id index d) := by
  have hid := (List.getElem?_eq_some_iff.1 hn).1
  rw [outputEnable, owned_eq_ok hn, ok_bind]
  split
  · exact renderAt_portsOf_failsOnly hd hid n id _ index
  · exact renderAt_portsOf_failsOnly hd hid n id _ index
  · split
    · exact renderAt_portsOf_failsOnly hd hid n id _ index
    · exact failsOnly_error rfl
  · rename_i l hkind
    obtain ⟨exits, hexits, hlt⟩ := hg.latchExits_eq_ok (kind?_eq_some.2 ⟨n, hn, hkind⟩)
    rw [hexits, orFault_ok, ok_bind]
    split
    · exact failsOnly_error rfl
    · obtain ⟨ports, hports, hnodes⟩ := exitPorts_eq_ok hlt
      rw [hports, orFault_ok, ok_bind]
      exact renderAt_failsOnly hd hnodes id _ index
  all_goals exact failsOnly_error rfl

omit hg in
theorem inputData_failsOnly {id : NodeId} {n : Node} (hn : g.nodes[id]? = some n)
    (index : Option Nat) : FailsOnly (·.isLocal = true) (g.inputData id index d) := by
  have hid := (List.getElem?_eq_some_iff.1 hn).1
  rw [inputData, owned_eq_ok hn, ok_bind]
  split
  · exact renderAt_portsOf_failsOnly hd hid n id _ index
  · split
    · exact renderAt_portsOf_failsOnly hd hid n id _ index
    · exact failsOnly_error rfl
  all_goals exact failsOnly_error rfl

omit hg in
theorem outputData_failsOnly {id : NodeId} {n : Node} (hn : g.nodes[id]? = some n)
    (index : Option Nat) : FailsOnly (·.isLocal = true) (g.outputData id index d) := by
  have hid := (List.getElem?_eq_some_iff.1 hn).1
  rw [outputData, owned_eq_ok hn, ok_bind]
  split
  · exact renderAt_portsOf_failsOnly hd hid n id _ index
  · exact renderAt_portsOf_failsOnly hd hid n id _ index
  · exact renderAt_portsOf_failsOnly hd hid n id _ index
  · split
    · exact renderAt_portsOf_failsOnly hd hid n id _ index
    · exact failsOnly_error rfl
  · -- a split call shows a port for each argument, whether its list has one or not
    refine renderAt_failsOnly hd (fun p hp => ?_) id _ index
    obtain ⟨i, -, rfl⟩ := List.mem_map.1 hp
    exact hid
  all_goals exact failsOnly_error rfl

theorem Printable.answer_failsOnly {id : NodeId} (hid : id < g.nodes.length) (q : Query)
    (index : Option Nat) : FailsOnly (·.isLocal = true) (g.answer q id index d) := by
  have hn := List.getElem?_eq_getElem hid
  cases q with
  | inputEnable => exact hg.inputEnable_failsOnly hd hn index
  | outputEnable => exact hg.outputEnable_failsOnly hd hn index
  | inputData => exact inputData_failsOnly hd hn index
  | outputData => exact outputData_failsOnly hd hn index
  | maskInput =>
    rw [answer, maskInput, owned_eq_ok hn, ok_bind]
    split
    · exact renderNeighbor_failsOnly hd hid _ _
    · exact failsOnly_error rfl
  | maskOutput =>
    rw [answer, maskOutput, owned_eq_ok hn, ok_bind]
    split
    · exact renderAt_portsOf_failsOnly hd hid _ id _ index
    · exact failsOnly_error rfl
  | activateEnable =>
    rw [answer, activateEnable, owned_eq_ok hn, ok_bind]
    split
    · exact renderNeighbor_failsOnly hd hid _ _
    · exact failsOnly_error rfl

/-- A listing declares the nodes and then names the two ports of each edge. -/
theorem Printable.listing_eq_ok : g.listing d =
    .ok (String.join (g.nodes.zipIdx.map fun n => d.declaration g n ++ "\n") ++
      String.join (g.edges.map fun e =>
        d.portText g e.source ++ " -> " ++ d.portText g e.target ++ "\n")) := by
  have hnode : ∀ n ∈ g.nodes.zipIdx, g.nodeLine d n = .ok (d.declaration g n ++ "\n") := by
    intro n hn
    rw [nodeLine, hd.definition_eq hn]
    rfl
  have hedge : ∀ e ∈ g.edges, g.edgeLine d e =
      .ok (d.portText g e.source ++ " -> " ++ d.portText g e.target ++ "\n") := by
    intro e he
    have hsource := hd.port_eq (p := e.source) (hg.edge e he).1
    have htarget := hd.port_eq (p := e.target) (hg.edge e he).2
    rw [edgeLine, hsource, ok_bind, htarget]
    rfl
  rw [listing, mapM_eq_ok_map hnode, ok_bind, mapM_eq_ok_map hedge]
  rfl

end

end Graph

namespace Net

/-- Finishing a reached net meets no fault, and neither does printing the graph it hands out, whatever
was stored in loops and operations. The listing has a text, and so has the definition of every node.
The printers of ports answer with a text or a refusal for every identifier and index; they say that an
identifier is foreign exactly if the graph has no such node, and then there is no definition. -/
theorem finish_prints {net : Net} (h : net.Reached) :
    (∀ fault net', finish net ≠ .error (.fault fault) net') ∧
    ∀ g net', finish net = .ok g net' → ∀ format,
      (∃ text, g.listing (.plain format) = .ok text) ∧
      ∀ id,
        (id < g.nodes.length → ∃ text, g.definition id (.plain format) = some (.ok text)) ∧
        (g.nodes.length ≤ id → g.definition id (.plain format) = none) ∧
        ∀ (q : Graph.Query) (index : Option Nat),
          (∀ fault, g.answer q id index (.plain format) ≠ .error (.fault fault)) ∧
          (g.answer q id index (.plain format) = .error (.refused (.badPort id q.slot .foreign)) ↔
            g.nodes.length ≤ id) := by
  have hstep := h.coherent.inStep
  refine ⟨fun fault net' herror => ?_, fun g net' hfinish format => ?_⟩
  · cases hstep.audit_failsOnly_isFault h.anchored _ (finish_eq_error herror)
  obtain ⟨rfl, haudit⟩ := finish_eq_ok hfinish
  have hg := hstep.printable h.anchored haudit
  have hd := hg.plain_covers format
  refine ⟨⟨_, hg.listing_eq_ok hd⟩, fun id => ⟨fun hid => ?_, fun hid => ?_, fun q index => ?_⟩⟩
  · have hnode := List.getElem?_eq_getElem hid
    obtain ⟨text, htext⟩ := hd.definition id _ hnode
    exact ⟨text, by rw [Graph.definition, Graph.node?, hnode, Option.map_some, htext]⟩
  · rw [Graph.definition, Graph.node?, List.getElem?_eq_none hid, Option.map_none]
  · by_cases hid : id < net.nodes.length
    · have hlocal := hg.answer_failsOnly hd hid q index
      refine ⟨fun fault herror => ?_, fun herror => ?_, fun hle => ?_⟩
      · cases hlocal _ herror
      · cases hlocal _ herror
      · exact absurd hid (Nat.not_lt.2 hle)
    · have hforeign := Graph.answer_foreign (Nat.not_lt.1 hid) q index (.plain format)
      refine ⟨fun fault herror => ?_, fun _ => Nat.not_lt.1 hid, fun _ => hforeign⟩
      cases hforeign.symm.trans herror

/-- A loop of one block that calls a function and goes back to itself. On the way its head and the
split call of the callee have been set to nodes that do not exist. -/
def carousel : Net :=
  [.addBlock 0 .loopHead, .addInstr 1 (.call "f" 77) none, .addInstr 1 (.branch [1]) none, .addLoop,
    .setLoopHead 4 99, .setLoopHead 4 1, .addLoopLatch 4 1, .addLoopBlock 4 1, .activate 1 0,
    .connect .control 1 2, .connect .control 1 3, .connect .control 3 1].foldl after
    { name := "carousel", nodes := [{ uid := 0, kind := .split [] }], edges := [], entry := 0
      uids := ⟨1⟩ }

theorem carousel_reached : carousel.Reached :=
  .steps (@Reached.start "carousel" ⟨0⟩ _ rfl) _

theorem finish_prints_carousel : ∃ g, finish carousel = .ok g carousel ∧ g.nodes.length = 5 ∧
    (∃ text, g.listing (.plain .dot) = .ok text) ∧
    (∃ text, g.definition 4 (.plain .dot) = some (.ok text)) ∧
    g.definition 77 (.plain .dot) = none ∧
    g.answer .outputEnable 77 none (.plain .dot) = .error (.refused (.badPort 77 .ctrlOut .foreign)) := by
  have hfinish : finish carousel = .ok carousel.toGraph carousel := rfl
  have hlength : carousel.nodes.length = 5 := by decide +kernel
  obtain ⟨hlisting, hid⟩ := (finish_prints carousel_reached).2 _ _ hfinish .dot
  have hforeign : carousel.nodes.length ≤ 77 := by rw [hlength]; decide
  refine ⟨_, hfinish, hlength, hlisting, (hid 4).1 (by rw [hlength]; decide), (hid 77).2.1 hforeign, ?_⟩
  exact ((hid 77).2.2 .outputEnable none).2.2 hforeign

end Net

end Dataflow
