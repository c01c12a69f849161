import TreeWalk.Mix.Lowering

/-!
# Scratch layout of a kernel

A frame holds every scratch address that a kernel uses. Laying it out emits the operations that
load the header of the memory image and materialise the constants. Constants stand between the
regions, each where it is first asked for.
-/

namespace TreeWalk

/-- The shape of a workload, as far as the layout depends on it. -/
structure FrameShape where
  height : Nat
  batch : Nat
  /-- Chunks that may be in flight. -/
  workSets : Nat
  deriving DecidableEq, Repr

/-- Full vector blocks in the batch. -/
def FrameShape.chunks (s : FrameShape) : Nat := s.batch / laneCount

/-- Scalars with the first words of the memory image. -/
structure HeaderRegs where
  rounds : Addr
  nodeCount : Addr
  batch : Addr
  height : Addr
  nodesAt : Addr
  indicesAt : Addr
  valuesAt : Addr
  deriving DecidableEq, Repr

namespace HeaderRegs

/-- How many header words a kernel reads. -/
def wordCount : Nat := 7

/-- The scalars in the order of the image. -/
def words (h : HeaderRegs) : List Addr :=
  [h.rounds, h.nodeCount, h.batch, h.height, h.nodesAt, h.indicesAt, h.valuesAt]

theorem length_words (h : HeaderRegs) : h.words.length = wordCount := rfl

/-- Load memory words `first`, `first + 1`, … into the given scalars. -/
def loadFrom (first : Nat) : List Addr → Drafting Unit
  | [] => pure ()
  | dest :: rest => do
    let addr ← Draft.constant (UInt32.ofNat first)
    Draft.emit (.loadWord dest addr)
    loadFrom (first + 1) rest

def load : Drafting HeaderRegs := do
  let rounds ← Draft.scalar "rounds"
  let nodeCount ← Draft.scalar "n_nodes"
  let batch ← Draft.scalar "batch_size"
  let height ← Draft.scalar "forest_height"
  let nodesAt ← Draft.scalar "forest_values_p"
  let indicesAt ← Draft.scalar "inp_indices_p"
  let valuesAt ← Draft.scalar "inp_values_p"
  let header : HeaderRegs := ⟨rounds, nodeCount, batch, height, nodesAt, indicesAt, valuesAt⟩
  loadFrom 0 header.words
  pure header

end HeaderRegs

/-- The blocks that one chunk in flight works on. -/
structure WorkSet where
  /-- Node values of the eight lanes. -/
  nodes : Addr
  left : Addr
  right : Addr
  /-- Memory addresses of the node values, one scalar to a lane. -/
  gather : Addr
  spare : Addr
  deriving DecidableEq, Repr, Inhabited

def WorkSet.reserve (i : Nat) : Drafting WorkSet := do
  let nodes ← Draft.vector s!"node_val_{i}"
  let left ← Draft.vector s!"tmp1_{i}"
  let right ← Draft.vector s!"tmp2_{i}"
  let gather ← Draft.region s!"gather_addr_{i}" laneCount
  let spare ← Draft.vector s!"tmp3_{i}"
  pure ⟨nodes, left, right, gather, spare⟩

/-- Registers that hold the top of the tree. -/
structure TopNodes where
  /-- One scalar to a node. -/
  scalars : Addr
  /-- The memory address of each of them. -/
  addrs : Addr
  /-- The deepest level held. -/
  depth : Nat
  /-- Vector blocks of the two nodes of level 1. -/
  level1 : Option (Addr × Addr)
  /-- Vector blocks of the four nodes of level 2. -/
  level2 : Option (Addr × Addr × Addr × Addr)
  deriving DecidableEq, Repr

namespace TopNodes

/-- The deepest level that is ever held. -/
def maxDepth : Nat := 2

/-- The deepest level held of a tree of height `height`. -/
def depthFor (height : Nat) : Nat := min height maxDepth

/-- How many nodes the levels down to `depth` have. -/
def countFor (depth : Nat) : Nat := 1 <<< (depth + 1) - 1

def count (t : TopNodes) : Nat := countFor t.depth

/-- Whether lanes at `depth` find their nodes in registers. -/
def covers (t : TopNodes) (depth : Nat) : Bool := depth ≤ t.depth

/-- The scalar that holds node `i`. -/
def node (t : TopNodes) (i : Nat) : Addr := t.scalars.offset i

def reserveLevel1 : Drafting (Addr × Addr) := do
  let n1 ← Draft.vector "v_node_d1_1"
  let n2 ← Draft.vector "v_node_d1_2"
  pure (n1, n2)

def reserveLevel2 : Drafting (Addr × Addr × Addr × Addr) := do
  let n0 ← Draft.vector "v_node_d2_0"
  let n1 ← Draft.vector "v_node_d2_1"
  let n2 ← Draft.vector "v_node_d2_2"
  let n3 ← Draft.vector "v_node_d2_3"
  pure (n0, n1, n2, n3)

/-- Do a step only under a condition. -/
def reserveIf {α : Type} (condition : Bool) (step : Drafting α) : Drafting (Option α) :=
  if condition then do
    let a ← step
    pure (some a)
  else pure none

def reserve (height : Nat) : Drafting TopNodes := do
  let depth := depthFor height
  let scalars ← Draft.region "shallow_node" (countFor depth)
  let addrs ← Draft.region "shallow_addr" (countFor depth)
  let level1 ← reserveIf (1 ≤ depth) reserveLevel1
  let level2 ← reserveIf (2 ≤ depth) reserveLevel2
  pure ⟨scalars, addrs, depth, level1, level2⟩

end TopNodes

/-- Every scratch address that a kernel uses. -/
structure Frame where
  header : HeaderRegs
  /-- Vector constants one, two and three. -/
  one : Addr
  two : Addr
  three : Addr
  /-- The node count in every lane. -/
  nodeCount : Addr
  stages : List Mix.Lowered
  /-- A scalar with the first lane number of each chunk. -/
  chunkOffsets : List Addr
  /-- The batch's node indices. -/
  indices : Addr
  /-- The batch's values. -/
  values : Addr
  workSets : List WorkSet
  top : TopNodes
  /-- A scalar with the number of each node in `top`. -/
  topOffsets : List Addr
  /-- A scalar with the memory address of each index chunk, then of each value chunk. -/
  transferAddrs : Addr
  chunks : Nat
  deriving DecidableEq, Repr

namespace Frame

/-- The block with the indices of a chunk. -/
def indexBlock (f : Frame) (chunk : Nat) : Addr := f.indices.offset (chunk * laneCount)

/-- The block with the values of a chunk. -/
def valueBlock (f : Frame) (chunk : Nat) : Addr := f.values.offset (chunk * laneCount)

/-- The work set with number `i`. -/
def workSet (f : Frame) (i : Nat) : WorkSet := f.workSets.getD i default

/-- A scalar with number `n` as its value. -/
def numberConstant (n : Nat) : Drafting Addr := Draft.constant (UInt32.ofNat n)

def lowerStages : List Mix.Stage → Drafting (List Mix.Lowered)
  | [] => pure []
  | stage :: rest => do
    let lowered ← (Mix.Form.ofStage stage).lower
    let more ← lowerStages rest
    pure (lowered :: more)

def reserve (shape : FrameShape) : Drafting Frame := do
  let header ← HeaderRegs.load
  let _ ← Draft.forRange numberConstant 0 4
  let one ← Draft.vectorConstant 1
  let two ← Draft.vectorConstant 2
  let three ← Draft.vectorConstant 3
  let nodeCount ← Draft.vector "v_n_nodes"
  Draft.emit (.broadcast nodeCount header.nodeCount)
  let stages ← lowerStages Mix.standard
  let chunkOffsets ←
    Draft.forRange (fun chunk => numberConstant (chunk * laneCount)) 0 shape.chunks
  let topOffsets ←
    Draft.forRange numberConstant 0 (TopNodes.countFor (TopNodes.depthFor shape.height))
  let indices ← Draft.region "s_idx" shape.batch
  let values ← Draft.region "s_val" shape.batch
  let workSets ← Draft.forRange WorkSet.reserve 0 shape.workSets
  let top ← TopNodes.reserve shape.height
  let transferAddrs ← Draft.region "io_addr" (2 * shape.chunks)
  pure
    { header, one, two, three, nodeCount, stages, chunkOffsets, indices, values, workSets, top,
      topOffsets, transferAddrs, chunks := shape.chunks }

end Frame

end TreeWalk
