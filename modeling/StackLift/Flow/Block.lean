import StackLift.Flow.Graph

/-!
Basic blocks: the longest runs of instructions with one way in, one way out and the same catchers.
-/

namespace StackLift

/-- A run of instructions; `stop` is the last of them. -/
structure Block where
  start : Nat
  stop : Nat
deriving DecidableEq

namespace Block

def length (b : Block) : Nat :=
  b.stop - b.start + 1

def contains (b : Block) (i : Nat) : Bool :=
  b.start ≤ i && i ≤ b.stop

/-- The places of the instructions of a block. -/
def members (b : Block) : List Nat :=
  List.range' b.start b.length

end Block

structure BlockGraph where
  graph : FlowGraph
  blocks : Array Block

namespace BlockGraph

/-- Does a block start at an instruction? -/
def startsBlock (g : FlowGraph) (i : Nat) : Bool :=
  match g.previous? i with
  | none => true
  | some previous =>
    (g.code.inst? previous).any (fun p => p.isBranching || p.isTerminating)
      || (g.code.inst? i).any Inst.isCatch
      || 1 < (g.predecessors i).length
      || g.catchers i ≠ g.catchers previous

/-- The blocks with the given starts; the last one goes to the end of the code. -/
def blocksAt (size : Nat) : List Nat → List Block
  | [] => []
  | [start] => [{ start, stop := size - 1 }]
  | start :: next :: rest => { start, stop := next - 1 } :: blocksAt size (next :: rest)

def ofGraph (g : FlowGraph) : BlockGraph :=
  { graph := g
    blocks := (blocksAt g.size (g.indices.filter (startsBlock g))).toArray }

def size (b : BlockGraph) : Nat :=
  b.blocks.size

def indices (b : BlockGraph) : List Nat :=
  List.range b.size

/-- The block of an instruction. -/
def blockOf (b : BlockGraph) (i : Nat) : Nat :=
  (b.blocks.findIdx? fun block => block.contains i).getD 0

/-- The blocks of some instructions, without repeats. -/
def blocksOf (b : BlockGraph) (insts : List Nat) : List Nat :=
  (insts.map b.blockOf).eraseDups

def instructions (b : BlockGraph) (i : Nat) : List Inst :=
  ((b.blocks[i]?).map Block.members |>.getD []).filterMap b.graph.code.inst?

/-- The blocks after the last instruction of a block. -/
def successors (b : BlockGraph) (i : Nat) : List Nat :=
  b.blocksOf (((b.blocks[i]?).map fun block => b.graph.successors block.stop).getD [])

/-- The blocks before the first instruction of a block. -/
def predecessors (b : BlockGraph) (i : Nat) : List Nat :=
  b.blocksOf (((b.blocks[i]?).map fun block => b.graph.predecessors block.start).getD [])

/-- The blocks of the handlers that protect a block. -/
def catchers (b : BlockGraph) (i : Nat) : List Nat :=
  b.blocksOf (((b.blocks[i]?).map fun block => b.graph.catchers block.start).getD [])

/-- The blocks that a handler block protects. -/
def throwers (b : BlockGraph) (i : Nat) : List Nat :=
  b.indices.filter fun j => i ∈ b.catchers j

def entry? (b : BlockGraph) : Option Nat :=
  b.indices.head?

/-- The blocks without successors. -/
def exits (b : BlockGraph) : List Nat :=
  b.indices.filter fun i => (b.successors i).isEmpty

end BlockGraph

end StackLift
