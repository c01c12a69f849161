import TreeWalk.Kernel.Frame

/-!
# Node values of a chunk

All lanes of a chunk are on one tree level, which is known when the code is generated. On the top
levels the node values are blended from registers without a branch; below them each lane loads its
own node.
-/

namespace TreeWalk

namespace NodeValues

/-- Level 0: every lane has the root. -/
def rootOps (f : Frame) (w : WorkSet) : List Op :=
  [.broadcast w.nodes (f.top.node 0)]

/-- Level 1: with `b` the low bit of the index, `b * n1 + (1 - b) * n2`. -/
def level1Ops (f : Frame) (w : WorkSet) (chunk : Nat) (blocks : Addr × Addr) : List Op :=
  let (n1, n2) := blocks
  let index := f.indexBlock chunk
  [.vector .and w.left index f.one,
   .vector .mul w.nodes w.left n1,
   .vector .sub w.right f.one w.left,
   .multiplyAdd w.nodes w.right n2 w.nodes]

/-- Level 2: with `b` and `c` the two low bits of the index less three, blend the four nodes in
pairs by `b` and the results by `c`. -/
def level2Ops (f : Frame) (w : WorkSet) (chunk : Nat) (blocks : Addr × Addr × Addr × Addr) :
    List Op :=
  let (n0, n1, n2, n3) := blocks
  let index := f.indexBlock chunk
  [.vector .sub w.left index f.three,
   .vector .and w.right w.left f.one,
   .vector .shr w.left w.left f.one,
   .vector .sub w.nodes f.one w.right,
   .vector .mul w.nodes w.nodes n0,
   .multiplyAdd w.nodes w.right n1 w.nodes,
   .vector .sub w.spare f.one w.right,
   .vector .mul w.spare w.spare n2,
   .multiplyAdd w.spare w.right n3 w.spare,
   .vector .sub w.right f.one w.left,
   .vector .mul w.nodes w.nodes w.right,
   .multiplyAdd w.nodes w.left w.spare w.nodes]

/-- The memory address of each lane's node. -/
def gatherAddrOps (f : Frame) (w : WorkSet) (chunk : Nat) : List Op :=
  (List.range laneCount).map fun lane =>
    .scalar .add (w.gather.offset lane) f.header.nodesAt ((f.indexBlock chunk).offset lane)

/-- Load the nodes of the given lanes. -/
def gatherLoadOps (w : WorkSet) (lanes : List Nat) : List Op :=
  lanes.map fun lane => .loadWord (w.nodes.offset lane) (w.gather.offset lane)

def gatherOps (f : Frame) (w : WorkSet) (chunk : Nat) : List Op :=
  gatherAddrOps f w chunk ++ gatherLoadOps w (List.range laneCount)

/-- The node values of a chunk whose lanes are on level `depth`. -/
def ops (f : Frame) (w : WorkSet) (chunk depth : Nat) : List Op :=
  match depth, f.top.level1, f.top.level2 with
  | 0, _, _ => rootOps f w
  | 1, some blocks, _ => level1Ops f w chunk blocks
  | 2, _, some blocks => level2Ops f w chunk blocks
  | _, _, _ => gatherOps f w chunk

/-- Load the top of the tree and broadcast the nodes that blends read. -/
def preloadOps (f : Frame) : List Op :=
  let top := f.top
  let addrs := f.topOffsets.zipIdx.map fun (offset, i) =>
    Op.scalar .add (top.addrs.offset i) f.header.nodesAt offset
  let loads := (List.range top.count).map fun i =>
    Op.loadWord (top.scalars.offset i) (top.addrs.offset i)
  let level1 := match top.level1 with
    | some (n1, n2) => [Op.broadcast n1 (top.node 1), .broadcast n2 (top.node 2)]
    | none => []
  let level2 := match top.level2 with
    | some (n0, n1, n2, n3) =>
      [Op.broadcast n0 (top.node 3), .broadcast n1 (top.node 4),
       .broadcast n2 (top.node 5), .broadcast n3 (top.node 6)]
    | none => []
  addrs ++ loads ++ level1 ++ level2

end NodeValues

end TreeWalk
