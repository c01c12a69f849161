import TreeWalk.Engine
import TreeWalk.Opcode

/-!
# Operations

An operation is tagged with the engine that issues it. Operands are scratch addresses: a scalar
operand names one word, a vector operand the block of `laneCount` words that starts there, and the
address operand of a memory transfer is a scalar that holds a memory address.
-/

namespace TreeWalk

/-- An index into a core's scratch. -/
structure Addr where
  index : Word
  deriving DecidableEq, Repr, Inhabited

namespace Addr

def ofNat (n : Nat) : Addr := ⟨UInt32.ofNat n⟩

def toNat (a : Addr) : Nat := a.index.toNat

/-- The address `delta` words past `a`, within 32 bits. -/
def offset (a : Addr) (delta : Nat) : Addr := ⟨a.index + UInt32.ofNat delta⟩

def block (a : Addr) : List Addr := (List.range laneCount).map a.offset

def text (a : Addr) : String := "s" ++ toString a.toNat

@[simp] theorem offset_zero (a : Addr) : a.offset 0 = a := by
  simp [offset]

theorem toNat_injective {a b : Addr} (h : a.toNat = b.toNat) : a = b := by
  cases a; cases b
  simpa [toNat, UInt32.toNat_inj] using h

@[simp] theorem length_block (a : Addr) : a.block.length = laneCount := by
  simp [block]

end Addr

/-- Scalar arithmetic: `dest` takes the opcode's value on `a` and `b`. -/
structure ScalarOp where
  code : Opcode
  dest : Addr
  a : Addr
  b : Addr
  deriving DecidableEq, Repr

/-- Lane-wise arithmetic on vector blocks. -/
inductive VectorOp where
  /-- Copy one scalar into every lane. -/
  | broadcast (dest src : Addr)
  /-- `a * b + c` in every lane. -/
  | multiplyAdd (dest a b c : Addr)
  | binary (code : Opcode) (dest a b : Addr)
  deriving DecidableEq, Repr

/-- Transfers into scratch. -/
inductive LoadOp where
  | word (dest addr : Addr)
  /-- Load one lane: both operands are taken `n` words on. -/
  | lane (dest addr : Addr) (n : Word)
  | block (dest addr : Addr)
  | const (dest : Addr) (value : Word)
  deriving DecidableEq, Repr

/-- Transfers from scratch to memory. -/
inductive StoreOp where
  | word (addr src : Addr)
  | block (addr src : Addr)
  deriving DecidableEq, Repr

/-- Choices, control and the core's surroundings. -/
inductive FlowOp where
  /-- `a` if the condition is not zero, else `b`. -/
  | select (dest cond a b : Addr)
  | addImm (dest a : Addr) (imm : Word)
  /-- `select` in every lane. -/
  | blockSelect (dest cond a b : Addr)
  /-- Stop the core. -/
  | halt
  /-- Rest until the machine is resumed. -/
  | pause
  /-- Append a word to the core's trace. -/
  | trace (src : Addr)
  /-- Jump to a bundle if the condition is not zero. -/
  | jumpIf (cond : Addr) (target : Word)
  /-- Jump from the next bundle by a signed distance if the condition is not zero. -/
  | jumpByIf (cond : Addr) (distance : Int32)
  | jump (target : Word)
  /-- Jump to the bundle whose index a scalar holds. -/
  | jumpTo (addr : Addr)
  | coreId (dest : Addr)
  deriving DecidableEq, Repr

/-- One operation. A note has no effect. -/
inductive Op where
  | alu (op : ScalarOp)
  | valu (op : VectorOp)
  | load (op : LoadOp)
  | store (op : StoreOp)
  | flow (op : FlowOp)
  | note (text : String)
  deriving DecidableEq, Repr

namespace Op

/-- The engine that issues the operation. -/
def engine : Op → Engine
  | alu _ => .alu
  | valu _ => .valu
  | load _ => .load
  | store _ => .store
  | flow _ => .flow
  | note _ => .debug

def isNote : Op → Bool
  | note _ => true
  | _ => false

theorem engine_eq_debug_iff (op : Op) : op.engine = .debug ↔ op.isNote = true := by
  cases op <;> simp [engine, isNote]

def scalar (code : Opcode) (dest a b : Addr) : Op := alu ⟨code, dest, a, b⟩

def vector (code : Opcode) (dest a b : Addr) : Op := valu (.binary code dest a b)

def multiplyAdd (dest a b c : Addr) : Op := valu (.multiplyAdd dest a b c)

def broadcast (dest src : Addr) : Op := valu (.broadcast dest src)

def loadWord (dest addr : Addr) : Op := load (.word dest addr)

def loadBlock (dest addr : Addr) : Op := load (.block dest addr)

def const (dest : Addr) (value : Word) : Op := load (.const dest value)

def storeWord (addr src : Addr) : Op := store (.word addr src)

def storeBlock (addr src : Addr) : Op := store (.block addr src)

def pause : Op := flow .pause

end Op

end TreeWalk
