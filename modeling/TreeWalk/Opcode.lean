import TreeWalk.Word

/-!
# Binary opcodes

The opcodes that the scalar and the vector engine share, with their written symbols and their
value on two words.
-/

namespace TreeWalk

inductive Opcode where
  | add | sub | mul
  /-- Quotient rounded down. -/
  | div
  /-- Quotient rounded up. -/
  | ceilDiv
  | xor | and | or | shl | shr
  /-- Remainder. -/
  | rem
  /-- One when the first word is the smaller, else zero. -/
  | lt
  /-- One when the words are equal, else zero. -/
  | eq
  deriving DecidableEq, Repr

namespace Opcode

def all : List Opcode :=
  [add, sub, mul, div, ceilDiv, xor, and, or, shl, shr, rem, lt, eq]

def symbol : Opcode → String
  | add => "+"
  | sub => "-"
  | mul => "*"
  | div => "//"
  | ceilDiv => "cdiv"
  | xor => "^"
  | and => "&"
  | or => "|"
  | shl => "<<"
  | shr => ">>"
  | rem => "%"
  | lt => "<"
  | eq => "=="

/-- The opcode written as `s`, if there is one. -/
def ofSymbol? (s : String) : Option Opcode :=
  all.find? fun op => op.symbol == s

/-- The value on two words. Division and remainder by zero have none. -/
def apply (op : Opcode) (a b : Word) : Option Word :=
  match op with
  | add => some (a + b)
  | sub => some (a - b)
  | mul => some (a * b)
  | div => if b = 0 then none else some (a / b)
  | ceilDiv => if b = 0 then none else some (if a % b = 0 then a / b else a / b + 1)
  | xor => some (a ^^^ b)
  | and => some (a &&& b)
  | or => some (a ||| b)
  | shl => some (a.shiftUp b)
  | shr => some (a.shiftDown b)
  | rem => if b = 0 then none else some (a % b)
  | lt => some (Word.ofBool (a < b))
  | eq => some (Word.ofBool (a = b))

theorem mem_all (op : Opcode) : op ∈ all := by cases op <;> decide

theorem ofSymbol?_symbol (op : Opcode) : ofSymbol? op.symbol = some op := by
  cases op <;> decide

/-- Only the three dividing opcodes have no value, and only on a zero divisor. -/
theorem apply_eq_none_iff {op : Opcode} {a b : Word} :
    op.apply a b = none ↔ (op = div ∨ op = ceilDiv ∨ op = rem) ∧ b = 0 := by
  cases op <;> simp [apply]

end Opcode

end TreeWalk
