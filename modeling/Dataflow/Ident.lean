/-!
# Identifiers

Everything the library refers to by number: results of instructions, blocks, globals, nodes,
unique node numbers and memory regions. Blocks, globals and nodes are numbered by their position in
the list that holds them. All identifiers live in 32 bits, and `idLimit` is the largest of them.

Two places check against it: `Supply.take`, which gives a draft its results and nodes their unique
numbers, and `Function.addPreheader`, for the results of the phis that it adds. Positions are not
checked. `Draft.block`, `Draft.param`, `Draft.global` and `Function.addPreheader` number what they
add by the length of the list, which says what a machine does as long as that length fits 32 bits. A
node has a position that fits, because it takes a unique number as well.
-/

namespace Dataflow

/-- The result of an instruction. -/
abbrev InstId := Nat

/-- A block's position in its function. -/
abbrev BlockId := Nat

/-- A global's position in its function. -/
abbrev GlobalId := Nat

/-- A node's position in its graph. -/
abbrev NodeId := Nat

/-- A number that names a node across graphs. -/
abbrev Uid := Nat

/-- A region of memory that is served by one memory unit. -/
abbrev Region := Nat

/-- The largest identifier, with all 32 bits set. -/
def idLimit : Nat := 0xFFFFFFFF

def InstId.text (i : InstId) : String := s!"%{i}"

def BlockId.text (b : BlockId) : String := s!"bb{b}"

def GlobalId.text (g : GlobalId) : String := s!"@{g}"

def NodeId.text (n : NodeId) : String := s!"n{n}"

def Region.text (r : Region) : String := s!"region{r}"

end Dataflow
