import TreeWalk.Word
import TreeWalk.Engine

/-!
# Shape of the round loop

Chunks are worked on in groups. With a group of prefetch, the node values of the next group are
fetched while the current one is mixed. `Iterations` numbers the passes of all chunks through all
rounds.
-/

namespace TreeWalk

/-- Chunks in a group, and groups fetched ahead of the one being mixed (none or one). -/
structure Pipeline where
  groupWidth : Nat
  prefetchGroups : Nat
  deriving DecidableEq, Repr

namespace Pipeline

/-- Gather lanes that one mixing stage issues. -/
def lanesPerStage : Nat := 2

/-- Lane pairs of a gather. -/
def pairCount : Nat := laneCount / lanesPerStage

/-- The widest group that is chosen without being asked for. -/
def maxChosenWidth : Nat := 3

/-- The shape for large batches. -/
def standard : Pipeline := ⟨maxChosenWidth, 1⟩

/-- The widest prefetching shape for `chunks` chunks, or one chunk at a time where none fits. -/
def choose (chunks : Nat) : Pipeline :=
  if 2 ≤ chunks then ⟨min maxChosenWidth (chunks / 2), 1⟩ else ⟨1, 0⟩

/-- Work sets needed, as a size. -/
def bufferCount (p : Pipeline) : Nat := Size.wrap (p.groupWidth * (1 + p.prefetchGroups))

def prefetches (p : Pipeline) : Bool := 0 < p.prefetchGroups

/-- Whether a batch of `chunks` chunks can be run: there are groups, at most one of them ahead, and
the chunks in flight are all different unless there are no chunks. -/
def fits (p : Pipeline) (chunks : Nat) : Bool :=
  p.groupWidth ≠ 0 && p.prefetchGroups ≤ 1 && (chunks = 0 || p.bufferCount ≤ chunks)

/-- The mixing stage beside which a member of the next group works out its gather addresses. -/
def addressStage (member : Nat) : Nat := member

/-- The mixing stage beside which a member of the next group gathers a lane pair. -/
def loadStage (member pair : Nat) : Nat := member + 1 + pair

theorem choose_fits (chunks : Nat) : (choose chunks).fits chunks = true := by
  have hm : maxChosenWidth = 3 := rfl
  unfold choose
  split
  · have hw : Size.wrap (min 3 (chunks / 2) * 2) = min 3 (chunks / 2) * 2 :=
      Size.wrap_of_lt (by simp only [Size.limit]; omega)
    simp [fits, bufferCount, hm, hw]
    omega
  · simp [fits, bufferCount, Size.wrap, Size.limit]
    omega

end Pipeline

/-- The passes of `chunks` chunks through `rounds` rounds, down a tree of height `height`. -/
structure Iterations where
  chunks : Nat
  rounds : Nat
  height : Nat
  deriving DecidableEq, Repr

namespace Iterations

/-- How many passes there are, as a size. -/
def total (s : Iterations) : Nat := Size.wrap (s.rounds * s.chunks)

/-- The chunk of pass `i`. -/
def chunk (s : Iterations) (i : Nat) : Nat := i % s.chunks

/-- The tree level at which all lanes of pass `i` are, given that all start at the root. -/
def depth (s : Iterations) (i : Nat) : Nat := i / s.chunks % (s.height + 1)

/-- Chunk and depth of pass `i`. Without chunks there are none. -/
def at? (s : Iterations) (i : Nat) : Option (Nat × Nat) :=
  if s.chunks = 0 then none else some (s.chunk i, s.depth i)

end Iterations

end TreeWalk
