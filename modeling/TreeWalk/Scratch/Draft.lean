import TreeWalk.Scratch.Arena

/-!
# Drafts

A draft is what one build has allocated and emitted so far: the arena, the pooled constants and
the pending operations. A step of a build may run out of scratch; what it did before that stays.

Each constant is materialised at most once as a scalar and at most once as a vector block.
-/

namespace TreeWalk

/-- Where the constants that are already materialised live. -/
structure ConstPool where
  scalars : List (Word × Addr) := []
  vectors : List (Word × Addr) := []
  deriving DecidableEq, Repr

structure Draft where
  arena : Arena
  pool : ConstPool := {}
  pending : Array Op := #[]
  deriving DecidableEq, Repr

/-- A step of a build. -/
abbrev Drafting := ExceptT OutOfScratch (StateM Draft)

namespace Draft

def ofCapacity (capacity : Nat) : Draft := { arena := .ofCapacity capacity }

def used (d : Draft) : Nat := d.arena.used

def count (d : Draft) (e : Engine) : Nat := d.pending.countP fun op => op.engine == e

/-- Take the pending operations out. -/
def take (d : Draft) : List Op × Draft := (d.pending.toList, { d with pending := #[] })

def emit (op : Op) : Drafting Unit :=
  modify fun d => { d with pending := d.pending.push op }

def reserve (name : Option String) (length : Nat) : Drafting Addr := do
  let d ← get
  match d.arena.reserve name length with
  | .ok (start, arena) =>
    set { d with arena }
    pure start
  | .error e => throw e

def region (name : String) (length : Nat) : Drafting Addr := reserve (some name) length

def scalar (name : String) : Drafting Addr := region name 1

def vector (name : String) : Drafting Addr := region name laneCount

/-- A scalar that holds `value`. -/
def constant (value : Word) : Drafting Addr := do
  match (← get).pool.scalars.lookup value with
  | some addr => pure addr
  | none =>
    let addr ← scalar s!"const_{value.toNat}"
    emit (.const addr value)
    modify fun d => { d with pool.scalars := (value, addr) :: d.pool.scalars }
    pure addr

/-- A vector block that holds `value` in every lane, broadcast from the scalar that holds it. -/
def vectorConstant (value : Word) : Drafting Addr := do
  match (← get).pool.vectors.lookup value with
  | some addr => pure addr
  | none =>
    let source ← constant value
    let addr ← vector s!"vconst_{value.toNat}"
    emit (.broadcast addr source)
    modify fun d => { d with pool.vectors := (value, addr) :: d.pool.vectors }
    pure addr

/-- The results of `step` at `start`, `start + 1`, …, `count` of them. -/
def forRange {α : Type} (step : Nat → Drafting α) : (start count : Nat) → Drafting (List α)
  | _, 0 => pure []
  | start, count + 1 => do
    let x ← step start
    let rest ← forRange step (start + 1) count
    pure (x :: rest)

/-- Do a step. The draft that is left shows also what a failing step did. -/
def perform {α : Type} (step : Drafting α) (d : Draft) : Except OutOfScratch α × Draft := step.run d

end Draft

end TreeWalk
