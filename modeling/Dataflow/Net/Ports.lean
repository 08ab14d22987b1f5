import Dataflow.Net.Slot

/-!
# Ports of a node

`Ports` holds the port lists of one node, one for each slot. `Ports.get` reads a list and
`Ports.modify` changes one; everything else goes through these two.
-/

namespace Dataflow

structure Ports where
  dataIn : List NodeId := []
  dataOut : List NodeId := []
  ctrlIn : List NodeId := []
  ctrlOut : List NodeId := []
  depIn : List NodeId := []
  depOut : List NodeId := []
  memReq : List NodeId := []
  memResp : List NodeId := []
  readReq : List NodeId := []
  readResp : List NodeId := []
  writeReq : List NodeId := []
  writeResp : List NodeId := []
deriving DecidableEq

namespace Ports

/-- The neighbours in a slot. -/
def get (p : Ports) : Slot → List NodeId
  | .dataIn => p.dataIn
  | .dataOut => p.dataOut
  | .ctrlIn => p.ctrlIn
  | .ctrlOut => p.ctrlOut
  | .depIn => p.depIn
  | .depOut => p.depOut
  | .memReq => p.memReq
  | .memResp => p.memResp
  | .readReq => p.readReq
  | .readResp => p.readResp
  | .writeReq => p.writeReq
  | .writeResp => p.writeResp

/-- Changes the neighbours in one slot. -/
def modify (p : Ports) (s : Slot) (f : List NodeId → List NodeId) : Ports :=
  match s with
  | .dataIn => { p with dataIn := f p.dataIn }
  | .dataOut => { p with dataOut := f p.dataOut }
  | .ctrlIn => { p with ctrlIn := f p.ctrlIn }
  | .ctrlOut => { p with ctrlOut := f p.ctrlOut }
  | .depIn => { p with depIn := f p.depIn }
  | .depOut => { p with depOut := f p.depOut }
  | .memReq => { p with memReq := f p.memReq }
  | .memResp => { p with memResp := f p.memResp }
  | .readReq => { p with readReq := f p.readReq }
  | .readResp => { p with readResp := f p.readResp }
  | .writeReq => { p with writeReq := f p.writeReq }
  | .writeResp => { p with writeResp := f p.writeResp }

@[simp] theorem get_modify_self (p : Ports) (s : Slot) (f : List NodeId → List NodeId) :
    (p.modify s f).get s = f (p.get s) := by
  cases s <;> rfl

theorem get_modify_of_ne (p : Ports) {s t : Slot} (f : List NodeId → List NodeId) (h : s ≠ t) :
    (p.modify s f).get t = p.get t := by
  cases s <;> cases t <;> first | rfl | exact absurd rfl h

/-- Ports are known by their lists. -/
theorem ext_get {p q : Ports} (h : ∀ s, p.get s = q.get s) : p = q := by
  cases p
  cases q
  simp only [Ports.mk.injEq]
  exact ⟨h .dataIn, h .dataOut, h .ctrlIn, h .ctrlOut, h .depIn, h .depOut, h .memReq, h .memResp,
    h .readReq, h .readResp, h .writeReq, h .writeResp⟩

/-- The number of ports in all slots together. -/
def total (p : Ports) : Nat := Slot.all.foldl (fun n s => n + (p.get s).length) 0

end Ports

end Dataflow
