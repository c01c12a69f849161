import TreeWalk.Machine.Core

/-!
# Effects of operations

An operation reads scratch and memory as they were before its bundle. Its effect is a list of
scratch writes, a list of memory writes and the control state after it. An operation that faults
has no effect.
-/

namespace TreeWalk

/-- What the operations of a bundle see. -/
structure View where
  coreId : Nat
  scratch : Array Word
  mem : Array Word
  /-- The bundle being issued. -/
  pc : Nat
  /-- Whether `pause` pauses. -/
  honorPause : Bool

structure Effect where
  scratch : List (Addr × Word) := []
  mem : List (Nat × Word) := []
  control : Control

namespace View

def read (v : View) (a : Addr) : Except Fault Word := Scratch.read v.scratch a

def readBlock (v : View) (a : Addr) : Except Fault (List Word) := Scratch.readBlock v.scratch a

def compute (v : View) (code : Opcode) (a b : Word) : Except Fault Word :=
  match code.apply a b with
  | some w => .ok w
  | none => .error (.divisionByZero v.pc)

end View

/-- One write to each lane of the block at `dest`. -/
def blockWrites (dest : Addr) (values : List Word) : List (Addr × Word) := dest.block.zip values

/-- Opcode on pairs of lanes. -/
def computeLanes (v : View) (code : Opcode) : List Word → List Word → Except Fault (List Word)
  | a :: as, b :: bs => do
    let w ← v.compute code a b
    let rest ← computeLanes v code as bs
    pure (w :: rest)
  | _, _ => pure []

/-- The `count` memory words from the address held in a word on. Addresses wrap like words. -/
def loadLanes (mem : Array Word) (base : Word) : (count : Nat) → Except Fault (List Word)
  | 0 => pure []
  | count + 1 => do
    let w ← Memory.read mem base.toNat
    let rest ← loadLanes mem (base + 1) count
    pure (w :: rest)

/-- One write to each memory word from `base` on. Addresses do not wrap. -/
def storeLanes (mem : Array Word) (base : Nat) : List Word → Except Fault (List (Nat × Word))
  | [] => pure []
  | w :: ws => do
    Memory.check mem base
    let rest ← storeLanes mem (base + 1) ws
    pure ((base, w) :: rest)

def ScalarOp.writesIn (v : View) (op : ScalarOp) : Except Fault (List (Addr × Word)) := do
  let a ← v.read op.a
  let b ← v.read op.b
  let w ← v.compute op.code a b
  pure [(op.dest, w)]

def VectorOp.writesIn (v : View) : VectorOp → Except Fault (List (Addr × Word))
  | .broadcast dest src => do
    let w ← v.read src
    pure (blockWrites dest (List.replicate laneCount w))
  | .multiplyAdd dest a b c => do
    let as ← v.readBlock a
    let bs ← v.readBlock b
    let cs ← v.readBlock c
    pure (blockWrites dest (List.zipWith (· + ·) (List.zipWith (· * ·) as bs) cs))
  | .binary code dest a b => do
    let as ← v.readBlock a
    let bs ← v.readBlock b
    let ws ← computeLanes v code as bs
    pure (blockWrites dest ws)

def LoadOp.writesIn (v : View) : LoadOp → Except Fault (List (Addr × Word))
  | .word dest addr => do
    let target ← v.read addr
    let w ← Memory.read v.mem target.toNat
    pure [(dest, w)]
  | .lane dest addr n => do
    let target ← v.read (addr.offset n.toNat)
    let w ← Memory.read v.mem target.toNat
    pure [(dest.offset n.toNat, w)]
  | .block dest addr => do
    let base ← v.read addr
    let ws ← loadLanes v.mem base laneCount
    pure (blockWrites dest ws)
  | .const dest value => pure [(dest, value)]

def StoreOp.writesIn (v : View) : StoreOp → Except Fault (List (Nat × Word))
  | .word addr src => do
    let target ← v.read addr
    Memory.check v.mem target.toNat
    let w ← v.read src
    pure [(target.toNat, w)]
  | .block addr src => do
    let base ← v.read addr
    let ws ← v.readBlock src
    storeLanes v.mem base.toNat ws

/-- Continue with the bundle `target`. -/
def Control.jump (v : View) (c : Control) (target : Int) : Except Fault Control :=
  if 0 ≤ target then .ok { c with pc := target.toNat }
  else .error (.invalidJumpTarget v.pc target)

def FlowOp.effect (v : View) (c : Control) : FlowOp → Except Fault Effect
  | .select dest cond a b => do
    let choice ← v.read cond
    let w ← v.read (if choice ≠ 0 then a else b)
    pure { scratch := [(dest, w)], control := c }
  | .addImm dest a imm => do
    let w ← v.read a
    pure { scratch := [(dest, w + imm)], control := c }
  | .blockSelect dest cond a b => do
    let choices ← v.readBlock cond
    let as ← v.readBlock a
    let bs ← v.readBlock b
    let ws := List.zipWith (fun choice (x, y) => if choice ≠ 0 then x else y) choices (as.zip bs)
    pure { scratch := blockWrites dest ws, control := c }
  | .halt => pure { control := { c with state := .stopped } }
  | .pause => pure { control := if v.honorPause then { c with state := .paused } else c }
  | .trace src => do
    let w ← v.read src
    pure { control := { c with trace := c.trace.push w } }
  | .jumpIf cond target => do
    let choice ← v.read cond
    let control ← if choice ≠ 0 then c.jump v target.toNat else pure c
    pure { control }
  | .jumpByIf cond distance => do
    let choice ← v.read cond
    let control ← if choice ≠ 0 then c.jump v (c.pc + distance.toInt) else pure c
    pure { control }
  | .jump target => do
    let control ← c.jump v target.toNat
    pure { control }
  | .jumpTo addr => do
    let target ← v.read addr
    let control ← c.jump v target.toNat
    pure { control }
  | .coreId dest => pure { scratch := [(dest, UInt32.ofNat v.coreId)], control := c }

/-- The effect of one operation in control state `c`. -/
def Op.effect (v : View) (c : Control) : Op → Except Fault Effect
  | .alu op => do
    let scratch ← op.writesIn v
    pure { scratch, control := c }
  | .valu op => do
    let scratch ← op.writesIn v
    pure { scratch, control := c }
  | .load op => do
    let scratch ← op.writesIn v
    pure { scratch, control := c }
  | .store op => do
    let mem ← op.writesIn v
    pure { mem, control := c }
  | .flow op => op.effect v c
  | .note _ => pure { control := c }

end TreeWalk
