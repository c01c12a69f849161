import TreeWalk.Kernel.Pipeline
import TreeWalk.Kernel.NodeValues

/-!
# The round loop

The passes are taken in groups of consecutive ones and fully unrolled. In each step the current
group takes its node values into the batch values, mixes them and moves on to a child. With
prefetch, the next group's node values are fetched into the other half of the work sets: gathers
beside the mixing stages, two lanes of a member at a time, and top nodes after them.

A lane goes to the left child on an even value and to the right child on an odd one, and back to
the root where there is no child. That step is free of branches: the child's index is multiplied by
one if it is inside the tree and by zero if not.
-/

namespace TreeWalk

namespace IndexUpdate

/-- Step every lane of a chunk, given its mixed values. -/
def ops (f : Frame) (w : WorkSet) (chunk : Nat) : List Op :=
  let index := f.indexBlock chunk
  let value := f.valueBlock chunk
  [.vector .and w.left value f.one,
   .vector .add w.left w.left f.one,
   .vector .mul index index f.two,
   .vector .add index index w.left,
   .vector .lt w.left index f.nodeCount,
   .vector .mul index index w.left]

/-- What the operations make of one lane. -/
def next (index value nodeCount : Word) : Word :=
  let child := index * 2 + ((value &&& 1) + 1)
  child * Word.ofBool (child < nodeCount)

end IndexUpdate

namespace RoundLoop

/-- One pass in flight. -/
structure Member where
  workSet : WorkSet
  chunk : Nat
  depth : Nat
  deriving DecidableEq, Repr

/-- The `count` passes from `start` on, in the work sets from `firstSet` on. -/
def members (f : Frame) (space : Iterations) (firstSet start count : Nat) : List Member :=
  (List.range count).map fun m =>
    ⟨f.workSet (firstSet + m), space.chunk (start + m), space.depth (start + m)⟩

/-- How many of the passes from `start` on make up one group. -/
def groupSize (p : Pipeline) (space : Iterations) (start : Nat) : Nat :=
  min p.groupWidth (space.total - start)

/-- The first work set of the group of a step. Two sets of groups alternate under prefetch. -/
def firstSet (p : Pipeline) (step : Nat) : Nat :=
  if p.prefetches then step % 2 * p.groupWidth else 0

/-- The group that a step works on. -/
def group (f : Frame) (p : Pipeline) (space : Iterations) (step : Nat) : List Member :=
  let start := step * p.groupWidth
  members f space (firstSet p step) start (groupSize p space start)

def nodeValueOps (f : Frame) (m : Member) : List Op :=
  NodeValues.ops f m.workSet m.chunk m.depth

/-- Take the node value into the chunk's values. -/
def takeNodeOp (f : Frame) (m : Member) : Op :=
  let values := f.valueBlock m.chunk
  .vector .xor values values m.workSet.nodes

def pairLanes (pair : Nat) : List Nat :=
  (List.range Pipeline.lanesPerStage).map (pair * Pipeline.lanesPerStage + ·)

/-- The gather operations of the next group for which the stage is due. -/
def fetchOps (f : Frame) (due : Nat → Bool) (next : List Member) : List Op :=
  next.zipIdx.flatMap fun (m, i) =>
    if f.top.covers m.depth then []
    else
      (if due (Pipeline.addressStage i) then NodeValues.gatherAddrOps f m.workSet m.chunk
        else []) ++
      (List.range Pipeline.pairCount).flatMap fun pair =>
        if due (Pipeline.loadStage i pair) then
          NodeValues.gatherLoadOps m.workSet (pairLanes pair)
        else []

/-- Mix the current group by one stage, and fetch what is due for the next. -/
def stageOps (f : Frame) (current next : List Member) (stage : Mix.Lowered × Nat) : List Op :=
  let (lowered, i) := stage
  (current.flatMap fun m =>
    lowered.parallelOps (f.valueBlock m.chunk) m.workSet.left m.workSet.right) ++
  fetchOps f (· == i) next ++
  current.flatMap fun m =>
    lowered.combineOps (f.valueBlock m.chunk) m.workSet.left m.workSet.right

/-- One step: work on `current` and fetch for `next`. -/
def stepOps (f : Frame) (current next : List Member) : List Op :=
  current.map (takeNodeOp f) ++
  f.stages.zipIdx.flatMap (stageOps f current next) ++
  fetchOps f (f.stages.length ≤ ·) next ++
  (next.filter fun m => f.top.covers m.depth).flatMap (nodeValueOps f) ++
  current.flatMap fun m => IndexUpdate.ops f m.workSet m.chunk

/-- How many steps the passes take. -/
def stepCount (p : Pipeline) (space : Iterations) : Nat :=
  (space.total + p.groupWidth - 1) / p.groupWidth

/-- All passes. -/
def ops (f : Frame) (p : Pipeline) (space : Iterations) : List Op :=
  if p.prefetches then
    (group f p space 0).flatMap (nodeValueOps f) ++
    (List.range (stepCount p space)).flatMap fun step =>
      stepOps f (group f p space step) (group f p space (step + 1))
  else
    (List.range (stepCount p space)).flatMap fun step =>
      let current := group f p space step
      current.flatMap (nodeValueOps f) ++ stepOps f current []

end RoundLoop

end TreeWalk
