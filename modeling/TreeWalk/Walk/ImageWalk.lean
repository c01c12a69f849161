import TreeWalk.Walk.Image

/-!
# Walking on a memory image

The same walk as on a tree and a batch, on the flat image. It shows the image as a kernel should
leave it at its pauses: untouched, and after all rounds.
-/

namespace TreeWalk

/-- How much has been shown. -/
inductive WalkPhase where
  | fresh | begun | done
  deriving DecidableEq, Repr

structure ImageWalk where
  mem : Array Word
  layout : Image.Layout
  phase : WalkPhase
  deriving DecidableEq, Repr

namespace ImageWalk

/-- The first of the given words that is not below `nodes`, with its lane. -/
def strayLane? (nodes lane : Nat) : List Word → Option (Nat × Nat)
  | [] => none
  | index :: rest =>
    if nodes ≤ index.toNat then some (lane, index.toNat) else strayLane? nodes (lane + 1) rest

def start (mem : Array Word) : Except Image.Defect ImageWalk := do
  let l ← Image.decode mem
  match strayLane? l.nodeCount 0 (mem.extract l.indicesAt (l.indicesAt + l.batch)).toList with
  | some (lane, index) => throw (.laneOutside lane index l.nodeCount)
  | none => pure ⟨mem, l, .fresh⟩

/-- One round of one lane. There is none if the lane reads outside the image. -/
def stepLane (l : Image.Layout) (mem : Array Word) (lane : Nat) : Option (Array Word) := do
  let index ← mem[l.indicesAt + lane]?
  let value ← mem[l.valuesAt + lane]?
  let node ← mem[l.nodesAt + index.toNat]?
  let (index, value) := Walk.step node index value l.nodeCount
  pure ((mem.setIfInBounds (l.indicesAt + lane) index).setIfInBounds (l.valuesAt + lane) value)

/-- One round of all lanes, in order. -/
def roundOn (l : Image.Layout) (mem : Array Word) : Option (Array Word) :=
  (List.range l.batch).foldlM (stepLane l) mem

/-- Some rounds of all lanes. -/
def roundsOn (l : Image.Layout) : Nat → Array Word → Option (Array Word)
  | 0, mem => some mem
  | n + 1, mem => do
    let mem ← roundOn l mem
    roundsOn l n mem

def round (w : ImageWalk) : Option ImageWalk := do
  let mem ← roundOn w.layout w.mem
  pure { w with mem }

/-- What comes next. -/
inductive Next where
  /-- The image of the walk is to be shown. -/
  | shown (w : ImageWalk)
  | exhausted
  /-- A lane read outside the image. -/
  | outside

/-- Go on to the next point at which the image is shown. -/
def next (w : ImageWalk) : Next :=
  match w.phase with
  | .fresh => .shown { w with phase := .begun }
  | .begun =>
    match roundsOn w.layout w.layout.rounds w.mem with
    | some mem => .shown { w with mem, phase := .done }
    | none => .outside
  | .done => .exhausted

end ImageWalk

end TreeWalk
