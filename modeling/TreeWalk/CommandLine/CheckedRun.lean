import TreeWalk.Bundle.Text
import TreeWalk.CommandLine.Failure
import TreeWalk.CommandLine.Settings
import TreeWalk.Machine.Run
import TreeWalk.Walk.ImageWalk
import TreeWalk.Walk.Sample

/-!
# Checked runs

A kernel is built for a sample workload and run on a machine. At every pause the machine's indices
and values are compared with those of the walk on the same memory image.
-/

namespace TreeWalk

/-- The first lane from `lane` on at which two lists of words differ. -/
def firstDifference (lane : Nat) : List Word → List Word → Option (Nat × Word × Word)
  | g :: got, e :: expected =>
    if g = e then firstDifference (lane + 1) got expected else some (lane, g, e)
  | _, _ => none

/-- Compare one region. There is no answer if it does not lie inside both memories. -/
def compareRegion (got expected : Array Word) (pause : Nat) (region : String)
    (start length : Nat) : Option (Except Mismatch Unit) :=
  let stop := start + length
  if got.size < stop ∨ expected.size < stop then none
  else
    match firstDifference 0 (got.extract start stop).toList (expected.extract start stop).toList with
    | some (lane, g, e) => some (.error ⟨pause, region, lane, g, e⟩)
    | none => some (.ok ())

/-- Compare the indices and, if they agree, the values. -/
def compareAtPause (got expected : Array Word) (l : Image.Layout) (pause : Nat) :
    Option (Except Mismatch Unit) :=
  match compareRegion got expected pause "indices" l.indicesAt l.batch with
  | some (.ok ()) => compareRegion got expected pause "values" l.valuesAt l.batch
  | other => other

structure Report where
  cycles : Nat
  stats : KernelStats
  /-- The pauses compared. -/
  pauses : Nat
  deriving DecidableEq, Repr

/-- Cycles of a scalar kernel on the usual workload. -/
def baselineCycles : Nat := 147734

/-- How many times the report's cycles go into the baseline. -/
def Report.speedup (r : Report) (places : Nat) : String :=
  (Decimal.Binary.quotient baselineCycles (max r.cycles 1)).fixed places

/-- The scratch map, one named region to a line. -/
def Kernel.scratchLines (k : Kernel) : List String :=
  s!"# scratch ({k.stats.scratchUsed} words)" ::
    k.regions.map fun r =>
      Decimal.column 5 r.start.toNat ++ " " ++ Decimal.column 4 r.length ++ " " ++ r.name

/-- The program, one bundle to a line. -/
def Kernel.programLines (k : Kernel) : List String :=
  s!"# program ({k.program.size} bundles)" ::
    k.program.bundles.toList.zipIdx.map fun (b, i) => Decimal.column 6 i ++ " " ++ b.text

/-- The lines that were asked for. -/
def Settings.dumpLines (s : Settings) (k : Kernel) : List String :=
  (if s.dumpScratch then k.scratchLines else []) ++
    (if s.dumpProgram then k.programLines else [])

namespace CheckedRun

/-- What a run wrote, and how it ended. -/
structure Outcome where
  lines : List String
  result : Except Failure Report

/-- Whether the image for some nodes and lanes can be addressed. -/
def isAddressable (height batch : Nat) : Bool :=
  ((Tree.nodeCount? height).bind fun nodes => Image.length? nodes batch).isSome

/-- A lane that left the image, or a region outside it. -/
def leftImage : Fault := .malformedImage "a lane or region lies outside the image"

/-- How often the walk is still to be shown. -/
def showsLeft (w : ImageWalk) : Nat :=
  match w.phase with
  | .fresh => 2
  | .begun => 1
  | .done => 0

theorem showsLeft_next {w rest : ImageWalk} (h : w.next = .shown rest) :
    showsLeft rest < showsLeft w := by
  unfold ImageWalk.next at h
  split at h <;> rename_i hp
  · simp only [ImageWalk.Next.shown.injEq] at h
    subst h
    simp [showsLeft, hp]
  · split at h
    · simp only [ImageWalk.Next.shown.injEq] at h
      subst h
      simp [showsLeft, hp]
    · simp at h
  · simp at h

/-- Run to the next pause and compare, until the walk has nothing more to show. The answer is how
many pauses were compared, and the machine behind the last. -/
def check (m : Machine) (w : ImageWalk) (pause : Nat) : Except Failure (Nat × Machine) :=
  match _h : w.next with
  | .exhausted => .ok (pause, m)
  | .outside => .error (.fault leftImage)
  | .shown rest =>
    match m.run with
    | (.faulted f, _) => .error (.fault f)
    | (_, m) =>
      match compareAtPause m.mem rest.mem rest.layout pause with
      | none => .error (.fault leftImage)
      | some (.error e) => .error (.mismatch e)
      | some (.ok ()) => check m rest (pause + 1)
  termination_by showsLeft w
  decreasing_by exact showsLeft_next _h

def runKernel (k : Kernel) (mem : Array Word) : Except Failure Report :=
  match ImageWalk.start mem with
  | .error d => .error (.fault (.malformedImage d.message))
  | .ok w => do
    let (pauses, m) ← check (.standard mem k.program k.regions) w 0
    pure ⟨m.cycle, k.stats, pauses⟩

def run (s : Settings) : Outcome :=
  if s.batch % laneCount ≠ 0 then ⟨[], .error (.invalidBatch s.batch)⟩
  else if !isAddressable s.height s.batch then ⟨[], .error (.invalidHeight s.height)⟩
  else
    match Kernel.build s.buildConfig s.workload with
    | .error e => ⟨[], .error (.build e)⟩
    | .ok kernel =>
      match sampleWorkload? s.seed s.height s.batch s.rounds with
      | none => ⟨[], .error (.invalidHeight s.height)⟩
      | some (tree, batch) => ⟨s.dumpLines kernel, runKernel kernel (Image.encode tree batch)⟩

end CheckedRun

end TreeWalk
