/-!
# Engines and their widths

A bundle issues in one cycle. Each engine takes at most its width of the bundle's ops; `debug` ops
have no effect and are free.
-/

namespace TreeWalk

/-- Lanes of a vector block. -/
def laneCount : Nat := 8

/-- Scratch words of a core, unless a machine says otherwise. -/
def scratchSize : Nat := 1536

/-- Cores of a machine, unless it says otherwise. -/
def coreCount : Nat := 1

inductive Engine where
  | alu | valu | load | store | flow | debug
  deriving DecidableEq, Repr

namespace Engine

/-- The engines in issue order. -/
def all : List Engine := [alu, valu, load, store, flow, debug]

/-- The engines whose ops have an effect, in issue order. -/
def issuing : List Engine := [alu, valu, load, store, flow]

def name : Engine → String
  | alu => "alu"
  | valu => "valu"
  | load => "load"
  | store => "store"
  | flow => "flow"
  | debug => "debug"

theorem mem_all (e : Engine) : e ∈ all := by cases e <;> decide

theorem mem_issuing {e : Engine} : e ∈ issuing ↔ e ≠ debug := by cases e <;> decide

end Engine

/-- How many ops each engine takes in one bundle. -/
structure Widths where
  alu : Nat := 12
  valu : Nat := 6
  load : Nat := 2
  store : Nat := 2
  flow : Nat := 1
  debug : Nat := 64
  deriving DecidableEq, Repr

namespace Widths

def of (w : Widths) : Engine → Nat
  | .alu => w.alu
  | .valu => w.valu
  | .load => w.load
  | .store => w.store
  | .flow => w.flow
  | .debug => w.debug

def set (w : Widths) (e : Engine) (width : Nat) : Widths :=
  match e with
  | .alu => { w with alu := width }
  | .valu => { w with valu := width }
  | .load => { w with load := width }
  | .store => { w with store := width }
  | .flow => { w with flow := width }
  | .debug => { w with debug := width }

theorem of_set (w : Widths) (e f : Engine) (width : Nat) :
    (w.set e width).of f = if f = e then width else w.of f := by
  cases e <;> cases f <;> rfl

theorem one_le_default (e : Engine) : 1 ≤ ({} : Widths).of e := by
  cases e <;> decide

end Widths

end TreeWalk
