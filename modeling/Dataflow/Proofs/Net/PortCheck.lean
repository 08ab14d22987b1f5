import Dataflow.Proofs.Net.InStep
import Mathlib.Data.List.Perm.Subperm
import Mathlib.Data.List.Sigma

/-!
# What the port check shows by itself

The check of edges against ports (`Graph.checkPorts`) makes two tests. Every edge must point back: its
ends stand in each other's port lists at the positions it records. And every slot must have as many
ports as edges land in it. Nothing is asked about two edges that record one position.

`Graph.checkPorts_accounts` says what follows for a graph that nothing else is known of. Every edge
accounts for a port on each of its sides. The ports of a slot are accounted for by exactly one edge each
if no two edges record one position there, and otherwise some of them are not accounted for at all
(`Graph.recordedTwice`). So the check together with distinct positions is the same as being in step
(`Graph.inStep_iff`). Graphs that are built by operations are in step, see
`Dataflow.Proofs.Net.Reached`.
-/

namespace Dataflow.Graph

variable {g : Graph} {n : NodeId} {s : Slot}

/-- The `k`-th edge accounts for the port at position `i` in a slot of a node: it lands there and
records the position, and `x` is its other end. -/
def Accounts (g : Graph) (k : Nat) (n : NodeId) (s : Slot) (i : Nat) (x : NodeId) : Prop :=
  ∃ e, g.edges[k]? = some e ∧ e.spot? n s = some (x, i)

/-- Every port in the slot is accounted for by exactly one edge. -/
def AccountedFor (g : Graph) (n : NodeId) (s : Slot) : Prop :=
  ∀ i x, (g.ports n s)[i]? = some x → ∃! k, g.Accounts k n s i x

/-- No two edges record one position in the slot. -/
def KeptApart (g : Graph) (n : NodeId) (s : Slot) : Prop :=
  ∀ k l i x y, g.Accounts k n s i x → g.Accounts l n s i y → k = l

/-! ## Spots and ports -/

theorem mem_spots {x : NodeId} {i : Nat} : (x, i) ∈ g.spots n s ↔ ∃ k, g.Accounts k n s i x := by
  rw [spots, List.mem_filterMap]
  constructor
  · rintro ⟨e, he, hspot⟩
    obtain ⟨k, hk⟩ := List.mem_iff_getElem?.1 he
    exact ⟨k, e, hk, hspot⟩
  · rintro ⟨k, e, hk, hspot⟩
    exact ⟨e, List.mem_of_getElem? hk, hspot⟩

/-- The spots of a slot differ exactly if no two edges say the same of it. -/
theorem nodup_spots : (g.spots n s).Nodup ↔
    ∀ k l i x, g.Accounts k n s i x → g.Accounts l n s i x → k = l := by
  rw [spots, List.Nodup, List.pairwise_filterMap, List.pairwise_iff_getElem]
  constructor
  · rintro h k l i x ⟨e, hk, he⟩ ⟨e', hl, he'⟩
    obtain ⟨hk', rfl⟩ := List.getElem?_eq_some_iff.1 hk
    obtain ⟨hl', rfl⟩ := List.getElem?_eq_some_iff.1 hl
    rcases Nat.lt_trichotomy k l with hlt | heq | hlt
    · exact absurd rfl (h k l hk' hl' hlt _ he _ he')
    · exact heq
    · exact absurd rfl (h l k hl' hk' hlt _ he' _ he)
  · rintro h k l hk hl hlt ⟨x, i⟩ he _ he' rfl
    have heq := h k l i x ⟨_, List.getElem?_eq_getElem hk, he⟩ ⟨_, List.getElem?_eq_getElem hl, he'⟩
    exact absurd heq (Nat.ne_of_lt hlt)

theorem nodup_zipIdx (xs : List NodeId) : xs.zipIdx.Nodup :=
  .of_map Prod.snd (List.nodup_zipIdx_map_snd xs)

/-- Among edges that point back, those that record one position agree about what stands there. -/
theorem keptApart_iff (hpoints : ∀ e ∈ g.edges, g.PointsBack e) :
    g.KeptApart n s ↔ (g.spots n s).Nodup := by
  rw [nodup_spots]
  constructor
  · exact fun h k l i x hk hl => h k l i x x hk hl
  · rintro h k l i x y ⟨e, hk, he⟩ ⟨e', hl, he'⟩
    have hx := (hpoints e (List.mem_of_getElem? hk)).getElem?_ports he
    have hy := (hpoints e' (List.mem_of_getElem? hl)).getElem?_ports he'
    obtain rfl := Option.some.inj (hx.symm.trans hy)
    exact h k l i x ⟨e, hk, he⟩ ⟨e', hl, he'⟩

/-! ## Pointing and counting -/

section
variable (hpoints : ∀ e ∈ g.edges, g.PointsBack e)
include hpoints

theorem spots_subset : g.spots n s ⊆ (g.ports n s).zipIdx := by
  rintro ⟨x, i⟩ hmem
  obtain ⟨k, e, hk, hspot⟩ := mem_spots.1 hmem
  exact List.mem_zipIdx_iff_getElem?.2 ((hpoints e (List.mem_of_getElem? hk)).getElem?_ports hspot)

variable (hcount : (g.ports n s).length = (g.spots n s).length)
include hcount

/-- As many spots as ports are a rearrangement of them if they differ. -/
theorem perm_iff_keptApart :
    (g.spots n s).Perm (g.ports n s).zipIdx ↔ g.KeptApart n s := by
  rw [keptApart_iff hpoints]
  constructor
  · exact fun hperm => hperm.nodup_iff.2 (nodup_zipIdx _)
  · intro hnodup
    refine (hnodup.subperm (spots_subset hpoints)).perm_of_length_le ?_
    rw [List.length_zipIdx]
    exact Nat.le_of_eq hcount

omit hpoints in
/-- They are also one if they miss no port. -/
theorem perm_iff_covered : (g.spots n s).Perm (g.ports n s).zipIdx ↔
    ∀ i x, (g.ports n s)[i]? = some x → ∃ k, g.Accounts k n s i x := by
  constructor
  · intro hperm i x hx
    exact mem_spots.1 (hperm.symm.subset (List.mem_zipIdx_iff_getElem?.2 hx))
  · intro hcovered
    have hsub : (g.ports n s).zipIdx ⊆ g.spots n s := by
      rintro ⟨x, i⟩ hmem
      exact mem_spots.2 (hcovered i x (List.mem_zipIdx_iff_getElem?.1 hmem))
    refine (((nodup_zipIdx _).subperm hsub).perm_of_length_le ?_).symm
    rw [List.length_zipIdx]
    exact Nat.le_of_eq hcount.symm

theorem accountedFor_iff : g.AccountedFor n s ↔ g.KeptApart n s := by
  constructor
  · intro h
    rw [← perm_iff_keptApart hpoints hcount, perm_iff_covered hcount]
    exact fun i x hx => (h i x hx).exists
  · intro h i x hx
    have hperm := (perm_iff_keptApart hpoints hcount).2 h
    obtain ⟨k, hk⟩ := (perm_iff_covered hcount).1 hperm i x hx
    exact ⟨k, hk, fun l hl => h l k i x x hl hk⟩

end

/-- Being in step is what the check tests, and that no two edges record one position. -/
theorem inStep_iff : g.InStep ↔ g.checkPorts = .ok () ∧ ∀ n s, g.KeptApart n s := by
  constructor
  · intro hg
    have hcheck := hg.checkPorts_eq
    obtain ⟨hpoints, hcount⟩ := checkPorts_eq_ok_iff.1 hcheck
    exact ⟨hcheck, fun n s => (perm_iff_keptApart hpoints (hcount n s)).1 (hg n s)⟩
  · rintro ⟨hcheck, hapart⟩ n s
    obtain ⟨hpoints, hcount⟩ := checkPorts_eq_ok_iff.1 hcheck
    exact (perm_iff_keptApart hpoints (hcount n s)).2 (hapart n s)

/-- **What the port check shows.** In a graph that passes it every edge accounts for a port on each
side, and as many edges land in a slot as it has ports. The ports of a slot are accounted for by
exactly one edge each if, and only if, no two edges record one position there; otherwise some port of
the slot has no edge. -/
theorem checkPorts_accounts (hcheck : g.checkPorts = .ok ()) :
    (∀ k e, g.edges[k]? = some e → g.PointsBack e ∧
      g.Accounts k e.src e.kind.sourceSlot e.srcPort e.dst ∧
      g.Accounts k e.dst e.kind.targetSlot e.dstPort e.src) ∧
    ∀ n s, (g.spots n s).length = (g.ports n s).length ∧
      (g.AccountedFor n s ↔ g.KeptApart n s) ∧
      (¬ g.KeptApart n s ↔ ∃ i x, (g.ports n s)[i]? = some x ∧ ∀ k, ¬ g.Accounts k n s i x) := by
  obtain ⟨hpoints, hcount⟩ := checkPorts_eq_ok_iff.1 hcheck
  refine ⟨fun k e hk => ?_, fun n s => ⟨(hcount n s).symm, accountedFor_iff hpoints (hcount n s), ?_⟩⟩
  · exact ⟨hpoints e (List.mem_of_getElem? hk), ⟨e, hk, e.spot?_source⟩, ⟨e, hk, e.spot?_target⟩⟩
  · rw [← perm_iff_keptApart hpoints (hcount n s), perm_iff_covered (hcount n s)]
    simp only [not_forall, not_exists, exists_prop]

/-- A constant is added to itself. The sum has two inputs and the constant two outputs, but both edges
between them record the first. -/
def recordedTwice : Graph where
  name := "recordedTwice"
  nodes := [
    { uid := 0, kind := .split [], ports := { ctrlOut := [1] } },
    { uid := 1, kind := .block { block := 0, mode := .plain, activate := some 0, instructions := [2] }
      ports := { ctrlIn := [0], ctrlOut := [2] } },
    { uid := 2, kind := .instr ⟨.binary .add, 1, some 0⟩, ports := { ctrlIn := [1], dataIn := [3, 3] } },
    { uid := 3, kind := .const (.ofWord32 7), ports := { dataOut := [2, 2] } }]
  edges := [⟨.control, 0, 1, 0, 0⟩, ⟨.control, 1, 2, 0, 0⟩, ⟨.data, 3, 2, 0, 0⟩, ⟨.data, 3, 2, 0, 0⟩]
  entry := 0

theorem checkPorts_accounts_recordedTwice :
    recordedTwice.checkPorts = .ok () ∧ recordedTwice.audit = .ok () ∧
    (∀ e ∈ recordedTwice.edges,
      e.src < recordedTwice.nodes.length ∧ e.dst < recordedTwice.nodes.length) ∧
    (recordedTwice.ports 2 .dataIn)[1]? = some 3 ∧ (∀ k, ¬ recordedTwice.Accounts k 2 .dataIn 1 3) ∧
    ¬ recordedTwice.AccountedFor 2 .dataIn ∧ recordedTwice.AccountedFor 2 .ctrlIn := by
  have hcheck : recordedTwice.checkPorts = .ok () := by decide
  obtain ⟨-, hslots⟩ := checkPorts_accounts hcheck
  have hmissed : ∀ k, ¬ recordedTwice.Accounts k 2 .dataIn 1 3 := fun k hk =>
    absurd (mem_spots.2 ⟨k, hk⟩) (by decide)
  have hapart : recordedTwice.KeptApart 2 .ctrlIn :=
    (keptApart_iff (checkPorts_eq_ok_iff.1 hcheck).1).2 (by decide)
  refine ⟨hcheck, by decide, by decide, rfl, hmissed, ?_, (hslots 2 .ctrlIn).2.1.2 hapart⟩
  rw [(hslots 2 .dataIn).2.1]
  exact (hslots 2 .dataIn).2.2.2 ⟨1, 3, rfl, hmissed⟩

end Dataflow.Graph
