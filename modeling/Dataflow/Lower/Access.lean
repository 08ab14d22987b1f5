import Dataflow.Net.Node

/-!
# Memory accesses and what is known of them

Lowering does not analyse addresses. It asks a `Disambiguator` which region an access goes to and
which pairs of accesses may touch the same memory. Answers may depend on earlier questions, so a
disambiguator has a state.
-/

namespace Dataflow

/-- A load or store. -/
structure Access where
  kind : AccessKind
  node : NodeId
  block : BlockId
  /-- The position in its block. -/
  index : Nat
  addr : Value
deriving DecidableEq

structure Disambiguator (σ : Type) where
  /-- The region an access goes to, if it is known. -/
  region : Access → σ → Option Region × σ
  /-- Whether the second access may touch what the first one touched. -/
  mayAlias : Access → Access → σ → Bool × σ

namespace Disambiguator

variable {σ : Type}

/-- All memory is one region in which everything may alias. -/
def single : Disambiguator Unit where
  region _ s := (some 0, s)
  mayAlias _ _ s := (true, s)

/-- All memory is one region in which nothing aliases. -/
def noAlias : Disambiguator Unit where
  region _ s := (some 0, s)
  mayAlias _ _ s := (false, s)

/-! ## Asking -/

/-- The regions of some accesses. -/
def regions (d : Disambiguator σ) : List Access → σ → List (Option Region) × σ
  | [], s => ([], s)
  | a :: rest, s =>
    let (r, s) := d.region a s
    let (rs, s) := d.regions rest s
    (r :: rs, s)

/-- The pairs, of those asked about, that may alias. -/
def aliasing (d : Disambiguator σ) : List (Access × Access) → σ → List (Access × Access) × σ
  | [], s => ([], s)
  | p :: rest, s =>
    let (yes, s) := d.mayAlias p.1 p.2 s
    let (ps, s) := d.aliasing rest s
    (if yes then p :: ps else ps, s)

/-! ## Keeping a record -/

inductive Question
  | region (access : Access)
  | alias (earlier later : Access)
deriving DecidableEq

/-- The same answers, with a record of the questions. -/
def recorded (d : Disambiguator σ) : Disambiguator (σ × List Question) where
  region a s :=
    let (r, s') := d.region a s.1
    (r, s', s.2 ++ [.region a])
  mayAlias a b s :=
    let (yes, s') := d.mayAlias a b s.1
    (yes, s', s.2 ++ [.alias a b])

/-! ## Answers from a table -/

/-- Which pairs of accesses alias, by the order in which their regions were asked for. -/
inductive AliasRule
  | always (answer : Bool)
  | listed (pairs : List (Nat × Nat))
deriving DecidableEq

structure Table where
  regions : List (Option Region)
  /-- The answer once `regions` is used up. -/
  otherwise : Option Region
  rule : AliasRule
deriving DecidableEq

/-- Reads the answers off a table. The state is the list of accesses whose region was asked for. -/
def ofTable (t : Table) : Disambiguator (List NodeId) where
  region a asked := (t.regions.getD asked.length t.otherwise, asked ++ [a.node])
  mayAlias a b asked :=
    (match t.rule with
      | .always answer => answer
      | .listed pairs => (asked.idxOf a.node, asked.idxOf b.node) ∈ pairs,
    asked)

end Disambiguator

end Dataflow
