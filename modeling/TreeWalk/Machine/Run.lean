import TreeWalk.Scratch.Regions
import TreeWalk.Machine.Issue

/-!
# Running a machine

The cores of a machine share the program and the memory. In a cycle every running core issues one
bundle, in the order of the cores. A cycle counts only if some core issued an effective bundle. A
run goes on until no core is running or a bundle faults; a fault leaves everything as it is then.
-/

namespace TreeWalk

structure Machine where
  cores : List Core
  mem : Array Word
  program : Program
  regions : Regions := []
  widths : Widths := {}
  /-- Cycles so far. -/
  cycle : Nat := 0
  /-- Whether `pause` pauses. -/
  honorPause : Bool := true

/-- How a run ended. -/
inductive RunEnd where
  /-- No core is running any more. -/
  | settled
  | faulted (fault : Fault)
  /-- The step limit was reached first. -/
  | unfinished
  deriving DecidableEq, Repr

/-- Some cores and the memory after one cycle. -/
structure Swept where
  cores : List Core
  mem : Array Word
  /-- Whether an effective bundle was issued. -/
  effective : Bool
  fault : Option Fault

namespace Machine

def freshCores (count scratchWords : Nat) : List Core :=
  (List.range count).map fun id => Core.fresh id scratchWords

/-- A machine of the usual make. -/
def standard (mem : Array Word) (program : Program) (regions : Regions) : Machine :=
  { cores := freshCores coreCount scratchSize, mem, program, regions }

def isFinished (m : Machine) : Bool := m.cores.all fun c => c.control.state = .stopped

def isActive (m : Machine) : Bool := m.cores.any fun c => c.control.state = .running

/-- Let the paused cores run again. -/
def resume (m : Machine) : Machine :=
  let wake (c : Core) : Core :=
    if c.control.state = .paused then { c with control.state := .running } else c
  { m with cores := m.cores.map wake }

/-- One core's part of a cycle. A running core that has no bundle left stops. -/
def advance (program : Program) (widths : Widths) (honorPause : Bool) (core : Core)
    (mem : Array Word) : Issued × Bool :=
  if core.control.state ≠ .running then (⟨core, mem, none⟩, false)
  else
    let pc := core.control.pc
    match program.get? pc with
    | none => (⟨{ core with control.state := .stopped }, mem, none⟩, false)
    | some b =>
      (Core.issue { core with control.pc := pc + 1 } mem b widths honorPause pc, b.isEffective)

/-- One cycle of the given cores. -/
def sweep (program : Program) (widths : Widths) (honorPause : Bool) :
    List Core → Array Word → Swept
  | [], mem => ⟨[], mem, false, none⟩
  | core :: rest, mem =>
    match advance program widths honorPause core mem with
    | (⟨core, mem, some fault⟩, effective) => ⟨core :: rest, mem, effective, some fault⟩
    | (⟨core, mem, none⟩, effective) =>
      let s := sweep program widths honorPause rest mem
      ⟨core :: s.cores, s.mem, effective || s.effective, s.fault⟩

/-- One cycle. A cycle that faults is not counted. -/
def step (m : Machine) : Machine × Option Fault :=
  let ⟨cores, mem, program, regions, widths, cycle, honorPause⟩ := m
  match sweep program widths honorPause cores mem with
  | ⟨cores, mem, _, some fault⟩ =>
    (⟨cores, mem, program, regions, widths, cycle, honorPause⟩, some fault)
  | ⟨cores, mem, effective, none⟩ =>
    let cycle := if effective then cycle + 1 else cycle
    (⟨cores, mem, program, regions, widths, cycle, honorPause⟩, none)

/-- Run for at most `limit` cycles. -/
def runFor : (limit : Nat) → Machine → RunEnd × Machine
  | 0, m => (if m.isActive then .unfinished else .settled, m)
  | limit + 1, m =>
    if m.isActive then
      match m.step with
      | (m, some fault) => (.faulted fault, m)
      | (m, none) => runFor limit m
    else (.settled, m)

/-- More cycles than a run is ever given time for. -/
def stepLimit : Nat := 1 <<< 48

/-- Resume the paused cores and run. -/
def run (m : Machine) : RunEnd × Machine := m.resume.runFor stepLimit

theorem runFor_of_not_isActive {m : Machine} (h : m.isActive = false) (limit : Nat) :
    m.runFor limit = (.settled, m) := by
  cases limit <;> simp [runFor, h]

/-- A run that ended within a limit ends in the same way within a larger one. -/
theorem runFor_mono {m n : Machine} {e : RunEnd} {limit : Nat} (h : m.runFor limit = (e, n))
    (he : e ≠ .unfinished) (more : Nat) : m.runFor (limit + more) = (e, n) := by
  induction limit generalizing m with
  | zero =>
    cases ha : m.isActive
    · rw [runFor_of_not_isActive ha] at h ⊢
      exact h
    · simp only [runFor, ha, if_true, Prod.mk.injEq] at h
      exact absurd h.1.symm he
  | succ limit ih =>
    rw [Nat.succ_add]
    cases ha : m.isActive
    · rw [runFor_of_not_isActive ha] at h ⊢
      exact h
    · simp only [runFor, ha, if_true] at h ⊢
      split at h <;> rename_i hs
      · exact h
      · exact ih h

end Machine

end TreeWalk
