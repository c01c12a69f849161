import TreeWalk.Walk

/-!
# Memory images

A machine finds its workload in memory: a header of eight words, then the tree, the indices, the
values and some room of zeros. The header holds the sizes and says where each part starts.
-/

namespace TreeWalk

namespace Image

def headerLength : Nat := 8

/-- Room behind the data, beyond its own length again. -/
def slack : Nat := 2 * 8 + 32

/-- What the header of an image says. -/
structure Layout where
  rounds : Nat
  nodeCount : Nat
  batch : Nat
  height : Nat
  nodesAt : Nat
  indicesAt : Nat
  valuesAt : Nat
  roomAt : Nat
  deriving DecidableEq, Repr

namespace Layout

def toList (l : Layout) : List Nat :=
  [l.rounds, l.nodeCount, l.batch, l.height, l.nodesAt, l.indicesAt, l.valuesAt, l.roomAt]

end Layout

/-- The parts of an image that have to lie inside it. -/
inductive Part where
  | nodes | indices | values
  deriving DecidableEq, Repr

def Part.name : Part → String
  | nodes => "forest values"
  | indices => "indices"
  | values => "values"

/-- Why an image cannot be walked. -/
inductive Defect where
  | tooShort (words : Nat)
  | partOutside (part : Part) (start length words : Nat)
  | incompleteTree (nodes height : Nat)
  | laneOutside (lane index nodes : Nat)
  deriving DecidableEq, Repr

def Defect.message : Defect → String
  | tooShort words => s!"image has {words} words, header needs {headerLength}"
  | partOutside part start length words =>
    s!"{part.name} region [{start}, +{length}) exceeds image of {words} words"
  | incompleteTree nodes height => s!"{nodes} nodes do not form a complete tree of height {height}"
  | laneOutside lane index nodes =>
    s!"lane {lane} starts at index {index} outside a tree of {nodes} nodes"

/-- The header word `i`, as a size. -/
def headerWord (mem : Array Word) (i : Nat) : Nat := (mem.getD i 0).toNat

def readHeader (mem : Array Word) : Layout :=
  let w := headerWord mem
  ⟨w 0, w 1, w 2, w 3, w 4, w 5, w 6, w 7⟩

/-- Where the parts lie that have to be inside the image. -/
def Layout.parts (l : Layout) : List (Part × Nat × Nat) :=
  [(.nodes, l.nodesAt, l.nodeCount), (.indices, l.indicesAt, l.batch),
   (.values, l.valuesAt, l.batch)]

/-- Read the header, check that the parts lie inside the image and that the tree is complete. -/
def decode (mem : Array Word) : Except Defect Layout :=
  if mem.size < headerLength then .error (.tooShort mem.size)
  else
    let l := readHeader mem
    match l.parts.find? fun (_, start, length) => mem.size < start + length with
    | some (part, start, length) => .error (.partOutside part start length mem.size)
    | none =>
      if Tree.nodeCount? l.height = some l.nodeCount then .ok l
      else .error (.incompleteTree l.nodeCount l.height)

/-- The length of the image for a tree of `nodes` nodes and a batch of `batch` lanes, unless it is
longer than a word can address. -/
def length? (nodes batch : Nat) : Option Nat := do
  let lanes ← Size.mul? batch 2
  let data ← Size.add? nodes lanes
  let room ← Size.add? data slack
  let front ← Size.add? headerLength data
  let length ← Size.add? front room
  if length ≤ Word.maxSize then some length else none

/-- The layout for a tree and a batch. -/
def layoutFor (t : Tree) (b : Batch) : Layout :=
  let batch := b.indices.length
  let indicesAt := headerLength + t.size
  { rounds := b.rounds
    nodeCount := t.size
    batch
    height := t.height
    nodesAt := headerLength
    indicesAt
    valuesAt := indicesAt + batch
    roomAt := indicesAt + 2 * batch }

/-- Cut off or fill up with zeros to a given length. -/
def resize (mem : Array Word) (length : Nat) : Array Word :=
  mem.take length ++ Array.replicate (length - mem.size) 0

/-- Lay out a tree and a batch. Header words keep the low 32 bits. -/
def encode (t : Tree) (b : Batch) : Array Word :=
  let l := layoutFor t b
  let header := (l.toList.map UInt32.ofNat).toArray
  let data := header ++ t.values ++ b.indices.toArray ++ b.values.toArray
  resize data (l.roomAt + t.size + 2 * l.batch + slack)

end Image

end TreeWalk
