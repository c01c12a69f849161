import TreeWalk.Mix
import TreeWalk.Scratch.Draft

/-!
# Mixing stages on vector blocks

A stage `(a + c) + (a << k)` is `a * (1 + 2 ^ k) + c` modulo `2 ^ 32`, so one multiply-add does it
when the shift keeps a bit. Every other stage takes two independent operations and a combining
one.

A lowered stage knows the vector constants that its operations read. It changes the block of
values in place and, when it is split, uses two further blocks for the words it combines.
-/

namespace TreeWalk

namespace Mix

/-- How a stage is computed. -/
inductive Form where
  | fused (multiplier addend : Word)
  | split (left : Opcode) (leftValue : Word) (combine right : Opcode) (rightValue : Word)
  deriving DecidableEq, Repr

namespace Form

/-- The form with the fewest operations. -/
def ofStage (s : Stage) : Form :=
  if s.left = .add ∧ s.combine = .add ∧ s.right = .shl ∧ s.rightValue < 32 then
    fused (1 + (1 : Word) <<< s.rightValue) s.leftValue
  else
    split s.left.opcode s.leftValue s.combine.opcode s.right.opcode s.rightValue

def isFused : Form → Bool
  | fused .. => true
  | split .. => false

/-- The form's value on a word, worked out as its operations do. A missing value counts as zero. -/
def apply : Form → Word → Word
  | fused multiplier addend, a => a * multiplier + addend
  | split left leftValue combine right rightValue, a =>
    let value (op : Opcode) (x y : Word) : Word := (op.apply x y).getD 0
    value combine (value left a leftValue) (value right a rightValue)

end Form

/-- A form whose immediates live in vector constants. -/
inductive Lowered where
  | fused (multiplier addend : Addr)
  | split (left : Opcode) (leftValue : Addr) (combine right : Opcode) (rightValue : Addr)
  deriving DecidableEq, Repr

/-- Materialise the constants of a form, in the order in which the form names its immediates. -/
def Form.lower : Form → Drafting Lowered
  | .fused multiplier addend => do
    let a ← Draft.vectorConstant addend
    let m ← Draft.vectorConstant multiplier
    pure (.fused m a)
  | .split left leftValue combine right rightValue => do
    let l ← Draft.vectorConstant leftValue
    let r ← Draft.vectorConstant rightValue
    pure (.split left l combine right r)

namespace Lowered

/-- The part that reads the values. A fused stage is finished by it. -/
def parallelOps (values left right : Addr) : Lowered → List Op
  | fused multiplier addend => [.multiplyAdd values values multiplier addend]
  | split leftOp leftValue _ rightOp rightValue =>
    [.vector leftOp left values leftValue, .vector rightOp right values rightValue]

/-- The part that combines the two words of a split stage. -/
def combineOps (values left right : Addr) : Lowered → List Op
  | fused .. => []
  | split _ _ combine _ _ => [.vector combine values left right]

end Lowered

end Mix

end TreeWalk
