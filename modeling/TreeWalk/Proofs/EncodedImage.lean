import TreeWalk.Proofs.LaneWalk

/-!
# The image of a batch

An image is a list of parts one after the other, so a position is found by the lengths before it.
Changing one lane's word in the image is changing it in the batch. The header of an image that a
word can address is read back as it was laid out.
-/

namespace TreeWalk

/-- Every lane has a value, and an index inside the tree. -/
structure Batch.Inside (t : Tree) (b : Batch) : Prop where
  paired : b.indices.length = b.values.length
  index_lt : ∀ index ∈ b.indices, index.toNat < t.size

namespace Image

theorem length?_eq_some_iff {nodes batch length : Nat} :
    length? nodes batch = some length ↔
      length = headerLength + 2 * (nodes + 2 * batch) + slack ∧ length ≤ Word.maxSize := by
  have hword : Word.maxSize < Size.limit := by decide
  have hheader : headerLength = 8 := rfl
  have hslack : slack = 48 := rfl
  simp only [length?, Option.bind_eq_bind, Option.bind_eq_some_iff, Size.mul?_eq_some_iff,
    Size.add?_eq_some_iff, Option.ite_none_right_eq_some, Option.some.injEq]
  constructor
  · rintro ⟨_, ⟨-, rfl⟩, _, ⟨-, rfl⟩, _, ⟨-, rfl⟩, _, ⟨-, rfl⟩, _, ⟨-, rfl⟩, hle, rfl⟩
    omega
  · rintro ⟨rfl, hle⟩
    exact ⟨_, ⟨by omega, rfl⟩, _, ⟨by omega, rfl⟩, _, ⟨by omega, rfl⟩, _, ⟨by omega, rfl⟩, _,
      ⟨by omega, rfl⟩, by omega, by omega⟩

def headerOf (t : Tree) (b : Batch) : List Word := (layoutFor t b).toList.map UInt32.ofNat

def roomFor (t : Tree) (b : Batch) : List Word :=
  List.replicate (t.size + 2 * b.indices.length + slack) 0

section

variable {t : Tree} {b : Batch} {lane : Nat} {x : Word}

theorem partsApart_layoutFor : (layoutFor t b).PartsApart := by
  simp only [Layout.PartsApart, Layout.parts, layoutFor, List.pairwise_cons, List.mem_cons,
    List.not_mem_nil, or_false, forall_eq_or_imp, forall_eq]
  refine ⟨⟨fun i hi => ?_, fun i hi => ?_⟩, fun i hi => ?_, by simp⟩ <;> omega

@[simp] theorem length_headerOf : (headerOf t b).length = headerLength := rfl

@[simp] theorem length_roomFor :
    (roomFor t b).length = t.size + 2 * b.indices.length + slack :=
  List.length_replicate

theorem resize_of_size_le {mem : Array Word} {length : Nat} (h : mem.size ≤ length) :
    resize mem length = mem ++ Array.replicate (length - mem.size) 0 := by
  rw [resize, Array.take_eq_extract, Array.extract_eq_self_of_le h]

theorem toList_encode (h : b.indices.length = b.values.length) :
    (encode t b).toList =
      headerOf t b ++ t.values.toList ++ b.indices ++ b.values ++ roomFor t b := by
  set data := (headerOf t b).toArray ++ t.values ++ b.indices.toArray ++ b.values.toArray with hdata
  have hsize : data.size = headerLength + t.size + 2 * b.indices.length := by
    simp only [hdata, Array.size_append, List.size_toArray, length_headerOf, Tree.size]
    omega
  have hroom : (layoutFor t b).roomAt = headerLength + t.size + 2 * b.indices.length := rfl
  have hencode : encode t b =
      resize data ((layoutFor t b).roomAt + t.size + 2 * b.indices.length + slack) := rfl
  rw [hencode, resize_of_size_le (by omega), hsize, hroom, Array.toList_append,
    Array.toList_replicate, show headerLength + t.size + 2 * b.indices.length + t.size
      + 2 * b.indices.length + slack - (headerLength + t.size + 2 * b.indices.length)
      = t.size + 2 * b.indices.length + slack by omega]
  simp only [hdata, Array.toList_append]
  rfl

theorem size_encode (h : b.indices.length = b.values.length) :
    (encode t b).size = headerLength + 2 * (t.size + 2 * b.indices.length) + slack := by
  rw [← Array.length_toList, toList_encode h]
  simp only [List.length_append, length_headerOf, Array.length_toList, length_roomFor]
  simp only [Tree.size]
  omega

/-- A word is found by the length of what stands before its part. -/
theorem getElem?_part {front part back : List Word} {start i : Nat} (hstart : front.length = start)
    (hi : i < part.length) : (front ++ part ++ back)[start + i]? = part[i]? := by
  subst hstart
  rw [List.getElem?_append_left (by simpa using hi), List.getElem?_append_right (by omega),
    Nat.add_sub_cancel_left]

theorem set_part {front part back : List Word} {start i : Nat} (hstart : front.length = start)
    (hi : i < part.length) :
    (front ++ part ++ back).set (start + i) x = front ++ part.set i x ++ back := by
  subst hstart
  rw [List.set_append_left _ _ (by simpa using hi), List.set_append_right _ _ (by omega),
    Nat.add_sub_cancel_left]

theorem length_upToTree :
    (headerOf t b ++ t.values.toList).length = (layoutFor t b).indicesAt := by
  simp only [List.length_append, length_headerOf, Array.length_toList]
  rfl

theorem length_upToIndices :
    (headerOf t b ++ t.values.toList ++ b.indices).length = (layoutFor t b).valuesAt := by
  rw [List.length_append, length_upToTree]
  rfl

theorem getElem?_encode_node (h : b.indices.length = b.values.length) {i : Nat} (hi : i < t.size) :
    (encode t b)[(layoutFor t b).nodesAt + i]? = t.values[i]? := by
  rw [← Array.getElem?_toList, toList_encode h, List.append_assoc, List.append_assoc,
    getElem?_part (by rfl) (by exact hi), Array.getElem?_toList]

theorem getElem?_encode_index (h : b.indices.length = b.values.length)
    (hlane : lane < b.indices.length) :
    (encode t b)[(layoutFor t b).indicesAt + lane]? = b.indices[lane]? := by
  rw [← Array.getElem?_toList, toList_encode h, List.append_assoc,
    getElem?_part length_upToTree hlane]

theorem getElem?_encode_value (h : b.indices.length = b.values.length)
    (hlane : lane < b.indices.length) :
    (encode t b)[(layoutFor t b).valuesAt + lane]? = b.values[lane]? := by
  rw [← Array.getElem?_toList, toList_encode h, getElem?_part length_upToIndices (h ▸ hlane)]

theorem layoutFor_congr {b' : Batch} (hlanes : b'.indices.length = b.indices.length)
    (hrounds : b'.rounds = b.rounds) : layoutFor t b' = layoutFor t b := by
  simp only [layoutFor, hlanes, hrounds]

theorem setIfInBounds_encode_index (h : b.indices.length = b.values.length)
    (hlane : lane < b.indices.length) :
    (encode t b).setIfInBounds ((layoutFor t b).indicesAt + lane) x =
      encode t { b with indices := b.indices.set lane x } := by
  apply Array.toList_inj.mp
  rw [Array.toList_setIfInBounds, toList_encode h, toList_encode (by simpa using h),
    List.append_assoc _ b.values, set_part length_upToTree hlane]
  simp only [headerOf, roomFor, layoutFor, List.length_set, List.append_assoc]

theorem setIfInBounds_encode_value (h : b.indices.length = b.values.length)
    (hlane : lane < b.indices.length) :
    (encode t b).setIfInBounds ((layoutFor t b).valuesAt + lane) x =
      encode t { b with values := b.values.set lane x } := by
  apply Array.toList_inj.mp
  rw [Array.toList_setIfInBounds, toList_encode h, toList_encode (by simpa using h),
    set_part length_upToIndices (h ▸ hlane)]
  rfl

theorem getElem?_encode_congr {b' : Batch} (h : b.indices.length = b.values.length)
    (h' : b'.indices.length = b'.values.length) (hlanes : b'.indices.length = b.indices.length)
    (hrounds : b'.rounds = b.rounds) {i : Nat}
    (hi : i < (layoutFor t b).indicesAt ∨ (layoutFor t b).roomAt ≤ i) :
    (encode t b')[i]? = (encode t b)[i]? := by
  have hfront : headerOf t b' = headerOf t b := by
    rw [headerOf, headerOf, layoutFor_congr hlanes hrounds]
  have hroom : roomFor t b' = roomFor t b := by rw [roomFor, roomFor, hlanes]
  have hindicesAt := length_upToTree (t := t) (b := b)
  have hroomAt : (layoutFor t b).roomAt = (layoutFor t b).indicesAt + 2 * b.indices.length := rfl
  rw [← Array.getElem?_toList, ← Array.getElem?_toList, toList_encode h, toList_encode h', hfront,
    hroom]
  generalize headerOf t b ++ t.values.toList = front at hindicesAt ⊢
  rcases hi with hi | hi
  · simp only [List.append_assoc]
    rw [List.getElem?_append_left (by omega), List.getElem?_append_left (by omega)]
  · have hbehind : (front ++ b'.indices ++ b'.values).length =
        (front ++ b.indices ++ b.values).length := by
      simp only [List.length_append, hlanes, ← h, ← h']
    have hle : (front ++ b.indices ++ b.values).length ≤ i := by
      simp only [List.length_append]
      omega
    rw [List.getElem?_append_right hle, List.getElem?_append_right (hbehind ▸ hle), hbehind]

theorem extract_encode_indices (h : b.indices.length = b.values.length) :
    ((encode t b).extract (layoutFor t b).indicesAt
      ((layoutFor t b).indicesAt + b.indices.length)).toList = b.indices := by
  rw [Array.toList_extract, List.extract_eq_take_drop, toList_encode h, Nat.add_sub_cancel_left,
    ← length_upToTree, List.append_assoc _ b.values, List.append_assoc _ b.indices,
    List.drop_left, List.take_left]

theorem extract_encode_values (h : b.indices.length = b.values.length) :
    ((encode t b).extract (layoutFor t b).valuesAt
      ((layoutFor t b).valuesAt + b.indices.length)).toList = b.values := by
  rw [Array.toList_extract, List.extract_eq_take_drop, toList_encode h, Nat.add_sub_cancel_left,
    ← length_upToIndices, List.append_assoc _ b.values, List.drop_left, h, List.take_left]

theorem readHeader_encode (h : b.indices.length = b.values.length) (hrounds : b.rounds < 2 ^ 32)
    (hheight : t.height < 32) (hsize : (encode t b).size ≤ Word.maxSize) :
    readHeader (encode t b) = layoutFor t b := by
  have hword (n i : Nat) (hn : n < 2 ^ 32) (hi : (layoutFor t b).toList[i]? = some n) :
      headerWord (encode t b) i = n := by
    have hheader : (headerOf t b)[i]? = some (UInt32.ofNat n) := by
      rw [headerOf, List.getElem?_map, hi, Option.map_some]
    have hlength : i < (headerOf t b).length := (List.getElem?_eq_some_iff.mp hheader).1
    rw [headerWord, Array.getD_eq_getD_getElem?, ← Array.getElem?_toList, toList_encode h,
      List.append_assoc, List.append_assoc, List.append_assoc,
      List.getElem?_append_left hlength, hheader, Option.getD_some, UInt32.toNat_ofNat_of_lt' hn]
  rw [size_encode h] at hsize
  have hmax : Word.maxSize = 2 ^ 32 - 1 := rfl
  have hlength : headerLength = 8 := rfl
  have hslack : slack = 48 := rfl
  unfold readHeader
  simp only [hword t.size 1 (by omega) rfl, hword b.rounds 0 hrounds rfl,
    hword b.indices.length 2 (by omega) rfl, hword t.height 3 (by omega) rfl,
    hword headerLength 4 (by omega) rfl, hword (headerLength + t.size) 5 (by omega) rfl,
    hword (headerLength + t.size + b.indices.length) 6 (by omega) rfl,
    hword (headerLength + t.size + 2 * b.indices.length) 7 (by omega) rfl]
  rfl

/-- An addressable image of a complete tree is accepted. -/
theorem decode_encode (h : b.indices.length = b.values.length)
    (hcomplete : Tree.nodeCount? t.height = some t.size) (hrounds : b.rounds < 2 ^ 32)
    (hsize : (encode t b).size ≤ Word.maxSize) : decode (encode t b) = .ok (layoutFor t b) := by
  have hheight : t.height < 32 := by
    unfold Tree.nodeCount? at hcomplete
    split at hcomplete
    · assumption
    · cases hcomplete
  have hparts : ∀ p ∈ (layoutFor t b).parts, p.2.1 + p.2.2 ≤ (encode t b).size := by
    simp only [Layout.parts, layoutFor, List.mem_cons, List.not_mem_nil, or_false,
      forall_eq_or_imp, forall_eq, size_encode h]
    omega
  have hheader : headerLength ≤ (encode t b).size := by
    rw [size_encode h]
    omega
  unfold decode
  rw [if_neg (by omega), readHeader_encode h hrounds hheight hsize]
  dsimp only
  split
  · rename_i part start length hfind
    have hle : start + length ≤ (encode t b).size :=
      hparts _ (List.mem_of_find?_eq_some hfind)
    have hfound := List.find?_some hfind
    have hlt : (encode t b).size < start + length := of_decide_eq_true hfound
    omega
  · exact if_pos hcomplete

/-! ## Reading an image back -/

theorem extract_encode_nodes (h : b.indices.length = b.values.length) :
    (encode t b).extract (layoutFor t b).nodesAt ((layoutFor t b).nodesAt + t.size) = t.values := by
  have hheader : (headerOf t b).length = (layoutFor t b).nodesAt := rfl
  have hsize : t.size = t.values.toList.length := rfl
  apply Array.toList_inj.mp
  rw [Array.toList_extract, List.extract_eq_take_drop, toList_encode h, Nat.add_sub_cancel_left,
    ← hheader, List.append_assoc, List.append_assoc, List.append_assoc, List.drop_left, hsize,
    List.take_left]

theorem getElem?_encode_room (h : b.indices.length = b.values.length) {i : Nat}
    (hroom : (layoutFor t b).roomAt ≤ i) (hi : i < (encode t b).size) :
    (encode t b)[i]? = some 0 := by
  have hdata : (headerOf t b ++ t.values.toList ++ b.indices ++ b.values).length =
      (layoutFor t b).roomAt := by
    rw [List.length_append, length_upToIndices, ← h]
    simp only [layoutFor]
    omega
  have hlt : i - (layoutFor t b).roomAt < t.size + 2 * b.indices.length + slack := by
    rw [size_encode h] at hi
    simp only [layoutFor] at hroom ⊢
    omega
  rw [← Array.getElem?_toList, toList_encode h, List.getElem?_append_right (hdata ▸ hroom), hdata,
    roomFor, List.getElem?_replicate_of_lt hlt]

/-- The header has room for the low bits of the rounds only. -/
theorem encode_rounds_mod (t : Tree) (b : Batch) :
    encode t { b with rounds := b.rounds % 2 ^ 32 } = encode t b := by
  simp only [encode, layoutFor, Layout.toList, List.map_cons, UInt32.ofNat_mod_size]

theorem decode_encode_mod (h : b.indices.length = b.values.length)
    (hcomplete : Tree.nodeCount? t.height = some t.size)
    (hsize : (encode t b).size ≤ Word.maxSize) :
    decode (encode t b) = .ok (layoutFor t { b with rounds := b.rounds % 2 ^ 32 }) := by
  have hlow : b.rounds % 2 ^ 32 < 2 ^ 32 := Nat.mod_lt _ (by decide)
  rw [← encode_rounds_mod] at hsize ⊢
  exact decode_encode (b := { b with rounds := b.rounds % 2 ^ 32 }) h hcomplete hlow hsize

/-- An image with a length is accepted and read back as it was laid out: the sizes, the pointers and
the parts, with zeros behind them. Of the rounds, which no length depends on, it has the low 32
bits. A length there is just where a word can address all of the image. -/
theorem decode_recovers_encode (hcomplete : Tree.nodeCount? t.height = some t.size)
    (hpaired : b.indices.length = b.values.length) {length : Nat}
    (hlength : length? t.size b.indices.length = some length) :
    let mem := encode t b
    let batch := b.indices.length
    let l : Layout :=
      { rounds := b.rounds % 2 ^ 32
        nodeCount := t.size
        batch
        height := t.height
        nodesAt := 8
        indicesAt := 8 + t.size
        valuesAt := 8 + t.size + batch
        roomAt := 8 + t.size + 2 * batch }
    mem.size = length ∧ decode mem = .ok l ∧
      mem.extract l.nodesAt (l.nodesAt + l.nodeCount) = t.values ∧
      (mem.extract l.indicesAt (l.indicesAt + l.batch)).toList = b.indices ∧
      (mem.extract l.valuesAt (l.valuesAt + l.batch)).toList = b.values ∧
      (∀ i, l.roomAt ≤ i → i < length → mem[i]? = some 0) ∧
      ∀ nodes lanes n, length? nodes lanes = some n ↔
        n = 8 + 2 * (nodes + 2 * lanes) + 48 ∧ n ≤ 2 ^ 32 - 1 := by
  intro mem batch l
  obtain ⟨hvalue, hmax⟩ := length?_eq_some_iff.mp hlength
  have hsize : mem.size = length := (size_encode hpaired).trans hvalue.symm
  have hdecode : decode mem = .ok l := decode_encode_mod hpaired hcomplete (hsize ▸ hmax)
  refine ⟨hsize, hdecode, extract_encode_nodes hpaired, extract_encode_indices hpaired,
    extract_encode_values hpaired, ?_, ?_⟩
  · intro i hroom hi
    exact getElem?_encode_room hpaired hroom (hsize.symm ▸ hi)
  · intro nodes lanes n
    exact length?_eq_some_iff

/-- A tree of three nodes and a batch of two lanes. -/
theorem decode_recovers_encode_two_lanes :
    let t : Tree := ⟨1, #[3, 5, 8]⟩
    let b : Batch := ⟨[0, 2], [6, 7], 4⟩
    length? 3 2 = some 70 ∧ (encode t b).size = 70 ∧
      decode (encode t b) = .ok ⟨4, 3, 2, 1, 8, 11, 13, 15⟩ ∧ (encode t b)[69]? = some 0 := by
  intro t b
  have hlength : length? t.size b.indices.length = some 70 := by decide
  obtain ⟨hsize, hdecode, -, -, -, hroom, -⟩ :=
    decode_recovers_encode (t := t) (b := b) rfl rfl hlength
  exact ⟨hlength, hsize, hdecode, hroom 69 (by decide) (by decide)⟩

/-- An image has the same length and is accepted for any number of rounds, but it comes back with
no rounds where there were `2 ^ 32` of them. -/
theorem decode_loses_rounds :
    let t : Tree := ⟨0, #[5]⟩
    let b : Batch := ⟨[], [], 2 ^ 32⟩
    Tree.nodeCount? t.height = some t.size ∧ b.indices.length = b.values.length ∧
      b.rounds < Size.limit ∧ length? t.size b.indices.length = some (encode t b).size ∧
      ∃ l, decode (encode t b) = .ok l ∧ l.rounds = 0 ∧ l.rounds ≠ b.rounds := by
  intro t b
  have hlength : length? t.size b.indices.length = some (encode t b).size := by decide +kernel
  have hmax : (encode t b).size ≤ Word.maxSize := (length?_eq_some_iff.mp hlength).2
  exact ⟨rfl, rfl, by decide, hlength, _, decode_encode_mod rfl rfl hmax, Nat.mod_self _, by decide⟩

end

end Image

end TreeWalk
