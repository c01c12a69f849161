import TreeWalk.CommandLine.Options
import TreeWalk.Kernel.Build
import TreeWalk.Machine.Core

/-!
# Failures

What ends a checked run early, how it is told and with which exit code.
-/

namespace TreeWalk

/-- The first lane on which the machine and the walk disagree. -/
structure Mismatch where
  /-- The pause, counted from zero. -/
  pause : Nat
  /-- The region of the image. -/
  region : String
  lane : Nat
  got : Word
  expected : Word
  deriving DecidableEq, Repr

def Mismatch.message (m : Mismatch) : String :=
  s!"{m.region} differ at pause {m.pause} lane {m.lane}: got {m.got.toNat}, " ++
    s!"expected {m.expected.toNat}"

inductive Failure where
  | usage (e : UsageError)
  /-- A batch that is not made of full vector blocks. -/
  | invalidBatch (batch : Nat)
  /-- A tree whose memory image a word cannot address. -/
  | invalidHeight (height : Nat)
  | build (e : BuildError)
  | fault (f : Fault)
  | mismatch (m : Mismatch)
  /-- Output that could not be written. -/
  | output (reason : String)
  deriving DecidableEq, Repr

namespace Failure

def exitMismatch : Nat := 1

/-- Options or a workload that are not supported. -/
def exitUsage : Nat := 2

def exitInternal : Nat := 120

def exitCode : Failure → Nat
  | usage _ | invalidBatch _ | invalidHeight _ => exitUsage
  | build (.outOfScratch _) => exitUsage
  | build (.unfitPipeline ..) | fault _ | output _ => exitInternal
  | mismatch _ => exitMismatch

def message : Failure → String
  | usage e => e.message
  | invalidBatch batch => s!"batch size {batch} is not a multiple of {laneCount}"
  | invalidHeight height => s!"forest height {height} is too large to address"
  | build e => "kernel build failed: " ++ e.message
  | fault f => "simulation failed: " ++ f.message
  | mismatch m => "incorrect output: " ++ m.message
  | output reason => reason

/-- What lies behind the failure, in its own words. -/
def cause? : Failure → Option String
  | usage e => some e.message
  | invalidBatch _ | invalidHeight _ => none
  | build e => some e.message
  | fault f => some f.message
  | mismatch m => some m.message
  | output reason => some reason

end Failure

end TreeWalk
