import TreeWalk.Walk

/-!
# Sample workloads

Trees and batches with pseudo-random values. All lanes start at the root. The words come from the
key stream of a stream cipher in twelve rounds, under a key spread out from a 64-bit seed. A block
has sixteen words; the block number is the counter.
-/

namespace TreeWalk

/-- The key, the number of the next block, and the words left of the current one. -/
structure Keystream where
  key : List Word
  counter : Nat
  left : List Word

namespace Keystream

/-- One step of the generator that spreads a seed. -/
def seedStep (s : UInt64) : UInt64 := s * 6364136223846793005 + 11634580027462260723

def rotateRight (w amount : Word) : Word := (w >>> amount) ||| (w <<< ((32 - amount) % 32))

def rotateLeft (w amount : Word) : Word := (w <<< amount) ||| (w >>> ((32 - amount) % 32))

/-- The key word that a generator state gives. -/
def keyWord (s : UInt64) : Word :=
  rotateRight (((s >>> 18) ^^^ s) >>> 27).toUInt32 (s >>> 59).toUInt32

/-- `count` key words from a state on. -/
def keyWords : (count : Nat) → UInt64 → List Word
  | 0, _ => []
  | count + 1, s =>
    let s := seedStep s
    keyWord s :: keyWords count s

def ofSeed (seed : Nat) : Keystream := ⟨keyWords 8 (UInt64.ofNat seed), 0, []⟩

/-- Mix four words of the state. -/
def quarter (state : Array Word) (i j k l : Nat) : Array Word :=
  let a := state.getD i 0
  let b := state.getD j 0
  let c := state.getD k 0
  let d := state.getD l 0
  let a := a + b
  let d := rotateLeft (d ^^^ a) 16
  let c := c + d
  let b := rotateLeft (b ^^^ c) 12
  let a := a + b
  let d := rotateLeft (d ^^^ a) 8
  let c := c + d
  let b := rotateLeft (b ^^^ c) 7
  (((state.setIfInBounds i a).setIfInBounds j b).setIfInBounds k c).setIfInBounds l d

/-- A round on the columns and a round on the diagonals. -/
def doubleRound (state : Array Word) : Array Word :=
  let s := quarter (quarter state 0 4 8 12) 1 5 9 13
  let s := quarter (quarter s 2 6 10 14) 3 7 11 15
  let s := quarter (quarter s 0 5 10 15) 1 6 11 12
  quarter (quarter s 2 7 8 13) 3 4 9 14

def iterate {α : Type} (f : α → α) : Nat → α → α
  | 0, a => a
  | n + 1, a => iterate f n (f a)

/-- The words of the block with a given number. -/
def block (key : List Word) (counter : Nat) : List Word :=
  let constants : List Word := [0x61707865, 0x3320646e, 0x79622d32, 0x6b206574]
  let position : List Word := [UInt32.ofNat counter, UInt32.ofNat (counter >>> 32), 0, 0]
  let start := constants ++ key ++ position
  List.zipWith (· + ·) (iterate doubleRound 6 start.toArray).toList start

def next (k : Keystream) : Word × Keystream :=
  match k.left with
  | w :: left => (w, { k with left })
  | [] =>
    match block k.key k.counter with
    | w :: left => (w, ⟨k.key, k.counter + 1, left⟩)
    | [] => (0, k)

/-- Drawn values are below this number. -/
def drawLimit : Word := 0x40000000

/-- Draw a value below `drawLimit`: the upper 30 bits of the first word whose bit 1 is zero. No more
than `patience` words are passed over. -/
def drawWithin : (patience : Nat) → Keystream → Word × Keystream
  | 0, k =>
    let (w, k) := k.next
    (w >>> 2, k)
  | patience + 1, k =>
    let (w, k) := k.next
    if w <<< 30 < 0x80000000 then (w >>> 2, k) else drawWithin patience k

def draw (k : Keystream) : Word × Keystream := k.drawWithin (1 <<< 16)

/-- Draw `count` values behind those in `drawn`. -/
def drawMore : (count : Nat) → Array Word → Keystream → Array Word × Keystream
  | 0, drawn, k => (drawn, k)
  | count + 1, drawn, k =>
    let (w, k) := k.draw
    drawMore count (drawn.push w) k

def drawMany (count : Nat) (k : Keystream) : Array Word × Keystream := drawMore count #[] k

end Keystream

/-- A tree with drawn values, unless it has more nodes than a word can count. -/
def Tree.sample? (height : Nat) (k : Keystream) : Option (Tree × Keystream) := do
  let count ← Tree.nodeCount? height
  let (values, k) := k.drawMany count
  pure (⟨height, values⟩, k)

def Batch.sample (lanes rounds : Nat) (k : Keystream) : Batch × Keystream :=
  let (values, k) := k.drawMany lanes
  (⟨List.replicate lanes 0, values.toList, rounds⟩, k)

/-- The tree and the batch that a seed stands for. -/
def sampleWorkload? (seed height lanes rounds : Nat) : Option (Tree × Batch) := do
  let (tree, k) ← Tree.sample? height (.ofSeed seed)
  pure (tree, (Batch.sample lanes rounds k).1)

end TreeWalk
