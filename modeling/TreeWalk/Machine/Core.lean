import TreeWalk.Op

/-!
# Cores and faults

A core owns its scratch and its control state. The control state is what an operation changes at
once; scratch and memory change only when a whole bundle has been carried out.
-/

namespace TreeWalk

/-- What can go wrong while a machine runs or a memory image is read. -/
inductive Fault where
  | scratchOutOfBounds (addr size : Nat)
  | memoryOutOfBounds (addr size : Nat)
  /-- Quotient or remainder by zero in the bundle `pc`. -/
  | divisionByZero (pc : Nat)
  /-- A bundle issues more operations on an engine than it takes. -/
  | tooManyOps (pc : Nat) (engine : Engine) (count limit : Nat)
  /-- A jump to before the first bundle. -/
  | invalidJumpTarget (pc : Nat) (target : Int)
  /-- The header of a memory image contradicts itself. -/
  | malformedImage (reason : String)
  deriving DecidableEq, Repr

def Fault.message : Fault → String
  | scratchOutOfBounds addr size => s!"scratch address {addr} out of bounds (size {size})"
  | memoryOutOfBounds addr size => s!"memory address {addr} out of bounds (size {size})"
  | divisionByZero pc => s!"division by zero at bundle {pc}"
  | tooManyOps pc engine count limit =>
    s!"bundle {pc} issues {count} {engine.name} slots (limit {limit})"
  | invalidJumpTarget pc target => s!"invalid jump target {target} at bundle {pc}"
  | malformedImage reason => "malformed memory image: " ++ reason

inductive RunState where
  /-- Issues one bundle a cycle. -/
  | running
  /-- Rests until the machine is resumed. -/
  | paused
  /-- Halted, or ran off the end of the program. -/
  | stopped
  deriving DecidableEq, Repr

structure Control where
  /-- The bundle to issue next. -/
  pc : Nat := 0
  state : RunState := .running
  /-- The words traced so far. -/
  trace : Array Word := #[]
  deriving DecidableEq, Repr

structure Core where
  id : Nat
  scratch : Array Word
  control : Control := {}
  deriving DecidableEq, Repr

namespace Scratch

/-- The word at a scratch address. -/
def read (scratch : Array Word) (a : Addr) : Except Fault Word :=
  match scratch[a.toNat]? with
  | some w => .ok w
  | none => .error (.scratchOutOfBounds a.toNat scratch.size)

/-- The words of the vector block at `a`. A block that does not fit is blamed on its last word. -/
def readBlock (scratch : Array Word) (a : Addr) : Except Fault (List Word) :=
  if a.toNat + laneCount ≤ scratch.size then
    .ok ((List.range laneCount).map fun lane => scratch.getD (a.toNat + lane) 0)
  else
    .error (.scratchOutOfBounds (a.toNat + laneCount - 1) scratch.size)

/-- `length` words from `a` on. A stretch that does not fit is blamed on the address behind it. -/
def readRange (scratch : Array Word) (a : Addr) (length : Nat) : Except Fault (Array Word) :=
  if a.toNat + length ≤ scratch.size then
    .ok (scratch.extract a.toNat (a.toNat + length))
  else
    .error (.scratchOutOfBounds (a.toNat + length) scratch.size)

/-- Apply writes in order, up to the first that is out of bounds. -/
def write : List (Addr × Word) → Array Word → Array Word × Option Fault
  | [], scratch => (scratch, none)
  | (a, w) :: rest, scratch =>
    if h : a.toNat < scratch.size then write rest (scratch.set a.toNat w h)
    else (scratch, some (.scratchOutOfBounds a.toNat scratch.size))

theorem size_write (writes : List (Addr × Word)) (scratch : Array Word) :
    (write writes scratch).1.size = scratch.size := by
  induction writes generalizing scratch with
  | nil => rfl
  | cons x rest ih =>
    simp only [write]
    split
    · rw [ih, Array.size_set]
    · rfl

end Scratch

namespace Memory

def read (mem : Array Word) (addr : Nat) : Except Fault Word :=
  match mem[addr]? with
  | some w => .ok w
  | none => .error (.memoryOutOfBounds addr mem.size)

/-- Whether a word can be stored at a memory address. -/
def check (mem : Array Word) (addr : Nat) : Except Fault Unit :=
  if addr < mem.size then .ok () else .error (.memoryOutOfBounds addr mem.size)

def write (writes : List (Nat × Word)) (mem : Array Word) : Array Word :=
  writes.foldl (fun m (addr, w) => m.setIfInBounds addr w) mem

theorem size_write (writes : List (Nat × Word)) (mem : Array Word) :
    (write writes mem).size = mem.size := by
  induction writes generalizing mem with
  | nil => rfl
  | cons x rest ih =>
    simp only [write, List.foldl_cons] at ih ⊢
    rw [ih, Array.size_setIfInBounds]

end Memory

/-- A running core at the first bundle, its scratch all zero. -/
def Core.fresh (id scratchWords : Nat) : Core :=
  { id, scratch := Array.replicate scratchWords 0 }

end TreeWalk
