import TreeWalk.Packing
import TreeWalk.Kernel.RoundLoop

/-!
# Kernels

A kernel first lays out its frame and sets it up, then loads the batch, walks all rounds and stores
the batch. Each of the two phases is packed by itself and ends with a bundle that only pauses, so
that memory can be compared with a reference at both points.

All memory addresses of the batch are worked out before the first of its transfers, so that the
additions pack densely and the transfers keep their engine busy.
-/

namespace TreeWalk

namespace BatchTransfer

/-- The scalar with the memory address of an index chunk. -/
def indexAddr (f : Frame) (chunk : Nat) : Addr := f.transferAddrs.offset chunk

/-- The scalar with the memory address of a value chunk. -/
def valueAddr (f : Frame) (chunk : Nat) : Addr := f.transferAddrs.offset (f.chunks + chunk)

def addressOps (f : Frame) : List Op :=
  f.chunkOffsets.zipIdx.flatMap fun (offset, chunk) =>
    [Op.scalar .add (indexAddr f chunk) f.header.indicesAt offset,
     Op.scalar .add (valueAddr f chunk) f.header.valuesAt offset]

def loadOps (f : Frame) : List Op :=
  addressOps f ++ (List.range f.chunks).flatMap fun chunk =>
    [Op.loadBlock (f.indexBlock chunk) (indexAddr f chunk),
     Op.loadBlock (f.valueBlock chunk) (valueAddr f chunk)]

def storeOps (f : Frame) : List Op :=
  addressOps f ++ (List.range f.chunks).flatMap fun chunk =>
    [Op.storeBlock (indexAddr f chunk) (f.indexBlock chunk),
     Op.storeBlock (valueAddr f chunk) (f.valueBlock chunk)]

end BatchTransfer

/-- Why there is no kernel. -/
inductive BuildError where
  | outOfScratch (e : OutOfScratch)
  | unfitPipeline (pipeline : Pipeline) (chunks : Nat)
  deriving DecidableEq, Repr

def BuildError.message : BuildError → String
  | outOfScratch e => e.message
  | unfitPipeline p chunks =>
    s!"pipeline of group width {p.groupWidth} with {p.prefetchGroups} prefetch group(s) " ++
      s!"cannot run over {chunks} chunk(s)"

structure BuildConfig where
  /-- The shape of the round loop; none is the widest that the batch allows. -/
  pipeline : Option Pipeline := none
  mode : Packing.Mode := .wide
  widths : Widths := {}
  /-- Scratch words available. -/
  capacity : Nat := scratchSize
  deriving DecidableEq, Repr

namespace BuildConfig

/-- The usual configuration with one operation in each bundle. -/
def unit : BuildConfig := { mode := .unit }

/-- The shape of the round loop for a batch of `chunks` chunks. -/
def pipelineFor (c : BuildConfig) (chunks : Nat) : Except BuildError Pipeline :=
  match c.pipeline with
  | none => .ok (.choose chunks)
  | some p => if p.fits chunks then .ok p else .error (.unfitPipeline p chunks)

end BuildConfig

/-- The workload that a kernel is built for. -/
structure Workload where
  height : Nat
  batch : Nat
  rounds : Nat
  deriving DecidableEq, Repr

namespace Workload

def chunks (w : Workload) : Nat := w.batch / laneCount

def iterations (w : Workload) : Iterations := ⟨w.chunks, w.rounds, w.height⟩

end Workload

structure KernelStats where
  /-- Operations of the first phase. -/
  setupOps : Nat
  /-- Operations of the second phase. -/
  bodyOps : Nat
  /-- Bundles of the program, the pausing ones included. -/
  bundles : Nat
  scratchUsed : Nat
  pipeline : Pipeline
  deriving DecidableEq, Repr

structure Kernel where
  program : Program
  regions : Regions
  stats : KernelStats
  deriving DecidableEq

namespace Kernel

/-- The operations of the second phase. -/
def bodyOps (f : Frame) (p : Pipeline) (space : Iterations) : List Op :=
  .note "pipelined tree walk" ::
    (NodeValues.preloadOps f ++ BatchTransfer.loadOps f ++ RoundLoop.ops f p space ++
      BatchTransfer.storeOps f)

/-- Pack both phases, each with a pause behind it. -/
def programOf (c : BuildConfig) (setup body : List Op) : Program :=
  let pack := Packing.pack c.mode c.widths
  .ofList (pack setup ++ [.single .pause] ++ pack body ++ [.single .pause])

def build (c : BuildConfig) (w : Workload) : Except BuildError Kernel := do
  let pipeline ← c.pipelineFor w.chunks
  let shape : FrameShape := ⟨w.height, w.batch, pipeline.bufferCount⟩
  match Draft.perform (Frame.reserve shape) (.ofCapacity c.capacity) with
  | (.error e, _) => throw (.outOfScratch e)
  | (.ok frame, draft) =>
    let setup := draft.pending.toList
    let body := bodyOps frame pipeline w.iterations
    let program := programOf c setup body
    pure
      { program
        regions := draft.arena.regions
        stats := ⟨setup.length, body.length, program.size, draft.used, pipeline⟩ }

end Kernel

end TreeWalk
