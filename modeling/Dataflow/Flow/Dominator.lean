import Dataflow.Fault

/-!
# Immediate dominators

The iteration keeps for every block the best dominator found so far and sweeps over the blocks in
reverse postorder until a sweep changes nothing. `order` gives a block's position in that order.
Two candidates are joined by `meet`, which walks the later of the two up its chain of recorded
dominators until both walks stand on one block.

The entry is recorded as its own dominator while the iteration runs.
-/

namespace Dataflow.Flow

/-- The dominator recorded for each block. -/
abbrev Idoms := List (Option BlockId)

namespace Idoms

/-- The dominator recorded for a block. -/
def get (idom : Idoms) (b : BlockId) : Option BlockId := idom[b]?.join

/-- One step up from a block; a block without a record stays where it is. -/
def up (idom : Idoms) (b : BlockId) : BlockId := (idom.get b).getD b

/-- The block where the chains of `a` and `b` meet. -/
def meet (order : BlockId → Nat) (idom : Idoms) : Nat → BlockId → BlockId → Except Fault BlockId
  | 0, a, b => if a = b then .ok a else .error .endless
  | fuel + 1, a, b =>
    if a = b then .ok a
    else if order b < order a then meet order idom fuel (idom.up a) b
    else meet order idom fuel a (idom.up b)

/-- Joins a predecessor into the candidate. -/
def join (order : BlockId → Nat) (idom : Idoms) (candidate : Option BlockId) (pred : BlockId) :
    Except Fault (Option BlockId) :=
  match candidate with
  | none => .ok (some pred)
  | some other => some <$> meet order idom (idom.length * idom.length) pred other

/-- The dominator that the recorded predecessors of a block agree on. -/
def candidate (order : BlockId → Nat) (preds : BlockId → List BlockId) (idom : Idoms)
    (b : BlockId) : Except Fault (Option BlockId) :=
  ((preds b).filter fun p => (idom.get p).isSome).foldlM (join order idom) none

/-- Brings one block up to date and remembers whether anything has changed. -/
def update (order : BlockId → Nat) (preds : BlockId → List BlockId) (s : Idoms × Bool)
    (b : BlockId) : Except Fault (Idoms × Bool) := do
  let new ← candidate order preds s.1 b
  return if new.isSome ∧ s.1.get b ≠ new then (s.1.set b new, true) else s

/-- Brings every block up to date, once. -/
def sweep (order : BlockId → Nat) (preds : BlockId → List BlockId) (blocks : List BlockId)
    (idom : Idoms) : Except Fault (Idoms × Bool) :=
  blocks.foldlM (update order preds) (idom, false)

/-- Sweeps until nothing changes. -/
def settle (order : BlockId → Nat) (preds : BlockId → List BlockId) (blocks : List BlockId) :
    Nat → Idoms → Except Fault Idoms
  | 0, _ => .error .endless
  | fuel + 1, idom => do
    let (idom, changed) ← sweep order preds blocks idom
    if changed then settle order preds blocks fuel idom else return idom

/-- Nothing is recorded but the entry. -/
def start (count : Nat) (entry : BlockId) : Idoms :=
  (List.replicate count none).set entry (some entry)

end Idoms

/-- The immediate dominators of `count` blocks, given their reverse postorder. In every sweep but
the last some record moves towards the entry, which bounds their number. -/
def dominators (count : Nat) (rpo : List BlockId) (preds : BlockId → List BlockId) :
    Except Fault Idoms :=
  match rpo with
  | [] => .ok (List.replicate count none)
  | entry :: blocks => do
    let idom ← Idoms.settle rpo.idxOf preds blocks (count * count + 2) (.start count entry)
    return idom.set entry none

end Dataflow.Flow
