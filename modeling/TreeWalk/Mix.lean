import TreeWalk.Opcode

/-!
# The mixing function

A word is mixed in six stages. A stage works out two words from its input and combines them, all
modulo `2 ^ 32`.
-/

namespace TreeWalk

namespace Mix

inductive Operator where
  | add | xor | shl | shr
  deriving DecidableEq, Repr

def Operator.apply : Operator → Word → Word → Word
  | .add, a, b => a + b
  | .xor, a, b => a ^^^ b
  | .shl, a, b => a.shiftUp b
  | .shr, a, b => a.shiftDown b

def Operator.opcode : Operator → Opcode
  | .add => .add
  | .xor => .xor
  | .shl => .shl
  | .shr => .shr

theorem Operator.apply_opcode (op : Operator) (a b : Word) :
    op.opcode.apply a b = some (op.apply a b) := by
  cases op <;> rfl

/-- One stage: `combine (left a leftValue) (right a rightValue)`. -/
structure Stage where
  left : Operator
  leftValue : Word
  combine : Operator
  right : Operator
  rightValue : Word
  deriving DecidableEq, Repr

def Stage.apply (s : Stage) (a : Word) : Word :=
  s.combine.apply (s.left.apply a s.leftValue) (s.right.apply a s.rightValue)

/-- The six stages of the walk. -/
def standard : List Stage :=
  [⟨.add, 0x7ED55D16, .add, .shl, 12⟩,
   ⟨.xor, 0xC761C23C, .xor, .shr, 19⟩,
   ⟨.add, 0x165667B1, .add, .shl, 5⟩,
   ⟨.add, 0xD3A2646C, .xor, .shl, 9⟩,
   ⟨.add, 0xFD7046C5, .add, .shl, 3⟩,
   ⟨.xor, 0xB55A4F09, .xor, .shr, 16⟩]

/-- All six stages in order. -/
def hash (a : Word) : Word := standard.foldl (fun b s => s.apply b) a

/-- The word after each of the stages. -/
def steps : List Stage → Word → List Word
  | [], _ => []
  | s :: rest, a => s.apply a :: steps rest (s.apply a)

theorem steps_getLast? (stages : List Stage) (a : Word) :
    (steps stages a).getLast?.getD a = stages.foldl (fun b s => s.apply b) a := by
  induction stages generalizing a with
  | nil => rfl
  | cons s rest ih =>
    rw [List.foldl_cons, ← ih (s.apply a)]
    cases rest <;> simp [steps, List.getLast?_cons]

end Mix

end TreeWalk
