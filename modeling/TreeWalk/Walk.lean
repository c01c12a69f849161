import TreeWalk.Mix

/-!
# Walking down a tree

A lane stands at a node of a complete binary tree and carries a value. In every round it mixes the
node into the value and goes to the left child if the new value is even, to the right child if it
is odd, and back to the root where the tree has no such child.
-/

namespace TreeWalk

/-- A complete binary tree, level by level from the root on. -/
structure Tree where
  height : Nat
  values : Array Word
  deriving DecidableEq, Repr

namespace Tree

/-- The nodes of a complete tree, unless there are more than a word can count. -/
def nodeCount? (height : Nat) : Option Nat :=
  if height < 32 then some (1 <<< (height + 1) - 1) else none

def size (t : Tree) : Nat := t.values.size

end Tree

/-- Where the lanes stand, what they carry, and how many rounds they go. -/
structure Batch where
  indices : List Word
  values : List Word
  rounds : Nat
  deriving DecidableEq, Repr

namespace Walk

/-- One round of one lane: its next index and value. -/
def step (node index value : Word) (nodeCount : Nat) : Word × Word :=
  let value := Mix.hash (value ^^^ node)
  let child := index * 2 + (if value % 2 = 0 then 1 else 2)
  (if nodeCount ≤ child.toNat then 0 else child, value)

/-- One round of all lanes. There is none if a lane stands outside the tree. -/
def round (t : Tree) : List Word → List Word → Option (List Word × List Word)
  | index :: indices, value :: values => do
    let node ← t.values[index.toNat]?
    let (index, value) := step node index value t.size
    let (indices, values) ← round t indices values
    pure (index :: indices, value :: values)
  | indices, values => some (indices, values)

def rounds (t : Tree) : Nat → List Word → List Word → Option (List Word × List Word)
  | 0, indices, values => some (indices, values)
  | n + 1, indices, values => do
    let (indices, values) ← round t indices values
    rounds t n indices values

end Walk

/-- The batch after all of its rounds. -/
def Batch.walk (b : Batch) (t : Tree) : Option Batch := do
  let (indices, values) ← Walk.rounds t b.rounds b.indices b.values
  pure { b with indices, values }

end TreeWalk
