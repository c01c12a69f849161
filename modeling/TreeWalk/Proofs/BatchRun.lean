import TreeWalk.Kernel.Build
import TreeWalk.Proofs.BatchWalk
import TreeWalk.Proofs.TopPreload

/-!
# The batch in and out

The first transfer brings every lane's index and value into the blocks of its chunk, the last one
brings them back to where they came from.
-/

namespace TreeWalk

theorem NodeValues.execute_preload {f : Frame} {shape : FrameShape} {d : Draft} {mem : Array Word}
    {s : Contents} {layout : Image.Layout} (hf : f.Layout shape d.used)
    (hset : f.SetBy shape d) (hready : f.Ready mem s) (hmem : s.mem = mem)
    (hw : Image.InBounds layout mem) (hheight : layout.height = shape.height)
    (hs : d.used ≤ s.scratch.size) :
    ∃ t, execute (preloadOps f) s = some t ∧ t.scratch.size = s.scratch.size ∧
      f.Primed layout mem t := by
  obtain ⟨hle, -⟩ := hf.indices_le
  have hscalars := hf.top.scalars
  have hdepth : f.top.count = TopNodes.countFor (TopNodes.depthFor shape.height) := by
    rw [TopNodes.count, hf.top.depth]
  have hcount : f.top.count ≤ layout.nodeCount := by
    rw [hdepth, hw.nodeCount, hheight, TopNodes.countFor_eq]
    exact Nat.sub_le_sub_right
      (Nat.pow_le_pow_right (by decide) (Nat.succ_le_succ (Nat.min_le_left _ _))) 1
  obtain ⟨t, ht, hdiffers, htop⟩ := execute_preloadOps hf
    (hset.topOffsets_length.trans hdepth.symm) hready hmem hw hcount hs
  exact ⟨t, ht, hdiffers.size, hready.of_differs hf hdiffers fun i hi => by omega, htop,
    hdiffers.mem.trans hmem⟩

namespace BatchTransfer

variable {f : Frame} {shape : FrameShape} {used : Nat} {mem : Array Word} {s : Contents}
  {layout : Image.Layout}

theorem toNat_addrs (hf : f.Layout shape used) {chunk : Nat} (hchunk : chunk < shape.chunks) :
    (indexAddr f chunk).toNat = f.transferAddrs.toNat + chunk ∧
      (valueAddr f chunk).toNat = f.transferAddrs.toNat + shape.chunks + chunk := by
  have hstop := hf.stop
  have hlt := hf.stop_lt
  have hchunks := hf.chunks
  refine ⟨Addr.toNat_offset (by omega), ?_⟩
  rw [valueAddr, Addr.toNat_offset (by omega)]
  omega

/-- The scalars with the memory addresses of all chunks. -/
def Addressed (f : Frame) (layout : Image.Layout) (s : Contents) : Prop :=
  ∀ chunk < f.chunks,
    (s.word (indexAddr f chunk)).toNat = layout.indicesAt + chunk * laneCount ∧
      (s.word (valueAddr f chunk)).toNat = layout.valuesAt + chunk * laneCount

def addressFills (f : Frame) (s : Contents) (x : Addr × Nat) : List Filling :=
  let number := UInt32.ofNat (x.2 * laneCount)
  [.sum s (indexAddr f x.2) f.header.indicesAt x.1 number,
   .sum s (valueAddr f x.2) f.header.valuesAt x.1 number]

theorem lt_chunks_of_mem_zipIdx (hf : f.Layout shape used)
    (hlength : f.chunkOffsets.length = f.chunks) {x : Addr × Nat}
    (hx : x ∈ f.chunkOffsets.zipIdx) :
    f.chunkOffsets[x.2]? = some x.1 ∧ x.2 < shape.chunks := by
  have hget := List.mem_zipIdx_iff_getElem?.mp hx
  exact ⟨hget, hf.chunks ▸ hlength ▸ (List.getElem?_eq_some_iff.mp hget).1⟩

theorem addressFills_work (hf : f.Layout shape used) (hlength : f.chunkOffsets.length = f.chunks)
    (hready : f.Ready mem s) (hs : used ≤ s.scratch.size) :
    ∀ y ∈ f.chunkOffsets.zipIdx.flatMap (addressFills f s),
      y.Works (fun i => f.transferAddrs.toNat ≤ i ∧ i < used) s ∧
        f.transferAddrs.toNat ≤ y.start ∧ y.start + y.length ≤ used := by
  obtain ⟨hle, -⟩ := hf.indices_le
  have hstop := hf.stop
  have hlt := hf.stop_lt
  have hindicesAt : f.header.indicesAt.toNat < f.indices.toNat :=
    hf.header _ (by simp [HeaderRegs.words])
  have hvaluesAt : f.header.valuesAt.toNat < f.indices.toNat :=
    hf.header _ (by simp [HeaderRegs.words])
  intro y hy
  obtain ⟨x, hx, hy⟩ := List.mem_flatMap.mp hy
  obtain ⟨hget, hi⟩ := lt_chunks_of_mem_zipIdx hf hlength hx
  obtain ⟨hindex, hvalue⟩ := toNat_addrs hf hi
  have hoffset : x.1.toNat < f.indices.toNat := hf.chunkOffsets _ (List.mem_of_getElem? hget)
  have hnumber := hready.chunkOffsets x.2 x.1 hget
  rcases List.mem_pair.mp hy with rfl | rfl
  · refine ⟨Filling.sum_works hs (by omega) ⟨by omega, by omega⟩ (by omega) (by omega) hnumber, ?_⟩
    simp only [Filling.sum]
    omega
  · refine ⟨Filling.sum_works hs (by omega) ⟨by omega, by omega⟩ (by omega) (by omega) hnumber, ?_⟩
    simp only [Filling.sum]
    omega

theorem addressFills_apart (hf : f.Layout shape used) (hlength : f.chunkOffsets.length = f.chunks)
    (s : Contents) : (f.chunkOffsets.zipIdx.flatMap (addressFills f s)).Pairwise Filling.Apart := by
  refine List.pairwise_flatMap.mpr ⟨fun x hx => ?_,
    (pairwise_zipIdx _).imp_of_mem fun {x y} hx hy hxy => ?_⟩
  · have hi := (lt_chunks_of_mem_zipIdx hf hlength hx).2
    obtain ⟨hindex, hvalue⟩ := toNat_addrs hf hi
    exact List.pairwise_pair.mpr (.inl (by simp only [Filling.sum]; omega))
  · have hi := (lt_chunks_of_mem_zipIdx hf hlength hx).2
    have hi' := (lt_chunks_of_mem_zipIdx hf hlength hy).2
    obtain ⟨hindex, hvalue⟩ := toNat_addrs hf hi
    obtain ⟨hindex', hvalue'⟩ := toNat_addrs hf hi'
    intro a ha b hb
    rcases List.mem_pair.mp ha with rfl | rfl <;> rcases List.mem_pair.mp hb with rfl | rfl <;>
      simp only [Filling.Apart, Filling.sum] <;> omega

theorem execute_addressOps (hf : f.Layout shape used) (hlength : f.chunkOffsets.length = f.chunks)
    (hready : f.Ready mem s) (hw : Image.InBounds layout mem) (hbatch : shape.batch ≤ layout.batch)
    (hs : used ≤ s.scratch.size) :
    ∃ t, execute (addressOps f) s = some t ∧
      Contents.DiffersIn (fun i => f.transferAddrs.toNat ≤ i ∧ i < used) s t ∧
      Addressed f layout t := by
  have hworks := addressFills_work hf hlength hready hs
  have hwork : ∀ y ∈ f.chunkOffsets.zipIdx.flatMap (addressFills f s),
      (id y).Works (fun i => f.transferAddrs.toNat ≤ i ∧ i < used) s := fun y hy => (hworks y hy).1
  obtain ⟨t, ht, hdiffers, hwords⟩ := execute_map_fillings hs hwork (fun y hy => (hworks y hy).2)
    (addressFills_apart hf hlength s)
  refine ⟨t, ?_, hdiffers, fun chunk hchunk => ?_⟩
  · rw [← ht, List.map_flatMap]
    rfl
  obtain ⟨offset, hget⟩ : ∃ offset, f.chunkOffsets[chunk]? = some offset :=
    ⟨_, List.getElem?_eq_getElem (hlength ▸ hchunk)⟩
  have hmem : (offset, chunk) ∈ f.chunkOffsets.zipIdx := List.mem_zipIdx_iff_getElem?.mpr hget
  have hword (dest base : Addr) (hsum : Filling.sum s dest base offset
      (UInt32.ofNat (chunk * laneCount)) ∈ addressFills f s (offset, chunk)) :
      t.word dest = s.word base + UInt32.ofNat (chunk * laneCount) :=
    Contents.lane_eq_of_getElem?
      (hwords _ (List.mem_flatMap.mpr ⟨_, hmem, hsum⟩) 0 Nat.zero_lt_one)
  -- the sums do not wrap around, as the batch lies in memory
  have hlane := (hf.toNat_indexBlock (hf.chunks ▸ hchunk)).2
  have hsize := hw.size_le
  have hsum {base : Word} {start : Nat} (hbase : base.toNat = start)
      (hstart : start + layout.batch ≤ mem.size) :
      (base + UInt32.ofNat (chunk * laneCount)).toNat = start + chunk * laneCount := by
    have hpos : 0 < laneCount := by decide
    have hnumber : chunk * laneCount < UInt32.size := by
      simp only [UInt32.size]
      omega
    rw [UInt32.toNat_add, hbase, UInt32.toNat_ofNat_of_lt' hnumber]
    exact Nat.mod_eq_of_lt (by omega)
  rw [hword (indexAddr f chunk) f.header.indicesAt List.mem_cons_self,
    hword (valueAddr f chunk) f.header.valuesAt (List.mem_cons_of_mem _ List.mem_cons_self)]
  exact ⟨hsum (hready.indicesAt hw.header) hw.indices, hsum (hready.valuesAt hw.header) hw.values⟩

/-- The blocks of all chunks, each with the scalar that holds its memory address. -/
def blockPairs (f : Frame) : List (Addr × Addr) :=
  (List.range f.chunks).flatMap fun chunk =>
    [(indexAddr f chunk, f.indexBlock chunk), (valueAddr f chunk, f.valueBlock chunk)]

theorem loadOps_eq (f : Frame) :
    loadOps f = addressOps f ++ (blockPairs f).map fun x => .loadBlock x.2 x.1 := by
  rw [loadOps, blockPairs, List.map_flatMap]
  rfl

theorem storeOps_eq (f : Frame) :
    storeOps f = addressOps f ++ (blockPairs f).map fun x => .storeBlock x.1 x.2 := by
  rw [storeOps, blockPairs, List.map_flatMap]
  rfl

theorem forall_mem_blockPairs {P : Addr × Addr → Prop}
    (h : ∀ chunk < f.chunks, P (indexAddr f chunk, f.indexBlock chunk) ∧
      P (valueAddr f chunk, f.valueBlock chunk)) : ∀ x ∈ blockPairs f, P x := by
  intro x hx
  obtain ⟨chunk, hchunk, hx⟩ := List.mem_flatMap.mp hx
  obtain ⟨hindex, hvalue⟩ := h chunk (List.mem_range.mp hchunk)
  rcases List.mem_pair.mp hx with rfl | rfl
  · exact hindex
  · exact hvalue

theorem mem_blockPairs {chunk : Nat} (hchunk : chunk < f.chunks) :
    (indexAddr f chunk, f.indexBlock chunk) ∈ blockPairs f ∧
      (valueAddr f chunk, f.valueBlock chunk) ∈ blockPairs f :=
  ⟨List.mem_flatMap.mpr ⟨chunk, List.mem_range.mpr hchunk, by simp⟩,
    List.mem_flatMap.mpr ⟨chunk, List.mem_range.mpr hchunk, by simp⟩⟩

/-- A relation holds between all pairs in their order if it holds between those of one chunk and
between those of an earlier and a later chunk. -/
theorem pairwise_blockPairs {R : Addr × Addr → Addr × Addr → Prop}
    (hchunk : ∀ chunk < f.chunks,
      R (indexAddr f chunk, f.indexBlock chunk) (valueAddr f chunk, f.valueBlock chunk))
    (hchunks : ∀ i j, i < j → j < f.chunks →
      ∀ x ∈ [(indexAddr f i, f.indexBlock i), (valueAddr f i, f.valueBlock i)],
      ∀ y ∈ [(indexAddr f j, f.indexBlock j), (valueAddr f j, f.valueBlock j)], R x y) :
    (blockPairs f).Pairwise R :=
  List.pairwise_flatMap.mpr
    ⟨fun chunk hc => List.pairwise_pair.mpr (hchunk chunk (List.mem_range.mp hc)),
      List.pairwise_lt_range.imp_of_mem fun {i j} _ hj hij =>
        hchunks i j hij (List.mem_range.mp hj)⟩

theorem blockPairs_placed (hf : f.Layout shape used) (hw : Image.InBounds layout mem)
    (hbatch : shape.batch ≤ layout.batch) (haddressed : Addressed f layout s) :
    ∀ x ∈ blockPairs f, f.transferAddrs.toNat ≤ x.1.toNat ∧ x.1.toNat < used ∧
      (s.word x.1).toNat + laneCount ≤ mem.size ∧ f.indices.toNat ≤ x.2.toNat ∧
      x.2.toNat + laneCount ≤ f.indices.toNat + 2 * shape.batch := by
  have hstop := hf.stop
  have hchunks := hf.chunks
  have hindices := hw.indices
  have hvalues := hw.values
  refine forall_mem_blockPairs fun chunk hchunk => ?_
  obtain ⟨hindexAddr, hvalueAddr⟩ := toNat_addrs hf (hchunks ▸ hchunk)
  obtain ⟨hindex, hlane⟩ := hf.toNat_indexBlock (hchunks ▸ hchunk)
  have hvalue := hf.toNat_valueBlock (hchunks ▸ hchunk)
  obtain ⟨hfrom, hfrom'⟩ := haddressed chunk hchunk
  dsimp only
  omega

theorem pairwise_blocksApart (hf : f.Layout shape used) :
    (blockPairs f).Pairwise fun x y => x.2.BlocksApart y.2 := by
  have hchunks := hf.chunks
  unfold Addr.BlocksApart
  refine pairwise_blockPairs (fun chunk hchunk => ?_) fun i j hij hj x hx y hy => ?_
  · obtain ⟨hindex, hlane⟩ := hf.toNat_indexBlock (hchunks ▸ hchunk)
    have hvalue := hf.toNat_valueBlock (hchunks ▸ hchunk)
    dsimp only
    omega
  · have hi : i < shape.chunks := by omega
    obtain ⟨hindex, hlane⟩ := hf.toNat_indexBlock hi
    have hvalue := hf.toNat_valueBlock hi
    obtain ⟨hindex', hlane'⟩ := hf.toNat_indexBlock (hchunks ▸ hj)
    have hvalue' := hf.toNat_valueBlock (hchunks ▸ hj)
    have hnext : i * laneCount + laneCount ≤ j * laneCount := by
      rw [← Nat.succ_mul]
      exact Nat.mul_le_mul_right _ hij
    rcases List.mem_pair.mp hx with rfl | rfl <;> rcases List.mem_pair.mp hy with rfl | rfl <;>
      dsimp only <;> omega

theorem execute_loadBlocks (hf : f.Layout shape used) (hw : Image.InBounds layout mem)
    (hbatch : shape.batch ≤ layout.batch) (haddressed : Addressed f layout s) (hmem : s.mem = mem)
    (hs : used ≤ s.scratch.size) :
    ∃ t, execute ((blockPairs f).map fun x => .loadBlock x.2 x.1) s = some t ∧
      Contents.DiffersIn
        (fun i => f.indices.toNat ≤ i ∧ i < f.indices.toNat + 2 * shape.batch) s t ∧
      ∀ chunk < f.chunks, ∀ l < laneCount,
        (t.lane l (f.indexBlock chunk), t.lane l (f.valueBlock chunk)) =
          Image.laneAfter layout mem (chunk * laneCount + l) 0 := by
  obtain ⟨hle, hle'⟩ := hf.indices_le
  have hlt := hf.stop_lt
  let fill (x : Addr × Addr) : Filling :=
    ⟨.loadBlock x.2 x.1, x.2.toNat, laneCount, fun l => mem.getD ((s.word x.1).toNat + l) 0⟩
  have hplace := blockPairs_placed hf hw hbatch haddressed
  have hworks : ∀ x ∈ blockPairs f, (fill x).Works
      (fun i => f.indices.toNat ≤ i ∧ i < f.indices.toNat + 2 * shape.batch) s := by
    intro x hx u hu
    obtain ⟨haddr, haddr', hfrom, hblock, hblock'⟩ := hplace x hx
    have hword : u.word x.1 = s.word x.1 := hu.lane (by omega)
    have hexec := execute_loadBlock (s := u) (d := x.2) (a := x.1)
      (hu.holds.mpr ⟨by omega, by omega⟩) (hu.holds.mpr ⟨by omega, by omega⟩)
      (by rw [hword, hu.mem, hmem]; exact hfrom) (by rw [hu.mem, hmem]; exact hw.size_le)
    rw [hword, hu.mem, hmem] at hexec
    exact hexec
  have hin : ∀ x ∈ blockPairs f, f.indices.toNat ≤ (fill x).start ∧
      (fill x).start + (fill x).length ≤ f.indices.toNat + 2 * shape.batch := by
    intro x hx
    obtain ⟨-, -, -, hblock, hblock'⟩ := hplace x hx
    exact ⟨hblock, hblock'⟩
  obtain ⟨t, ht, hdiffers, hwords⟩ :=
    execute_map_fillings (by omega) hworks hin (pairwise_blocksApart hf)
  refine ⟨t, ht, hdiffers, fun chunk hchunk l hl => ?_⟩
  obtain ⟨hindex, hvalue⟩ := mem_blockPairs hchunk
  obtain ⟨hfrom, hfrom'⟩ := haddressed chunk hchunk
  have hloaded {x : Addr × Addr} (hx : x ∈ blockPairs f) :
      t.lane l x.2 = mem.getD ((s.word x.1).toNat + l) 0 :=
    Contents.lane_eq_of_getElem? (hwords x hx l hl)
  rw [hloaded hindex, hloaded hvalue, hfrom, hfrom', Nat.add_assoc, Nat.add_assoc]
  rfl

theorem execute_loadOps (hf : f.Layout shape used) (hlength : f.chunkOffsets.length = f.chunks)
    (h : f.Primed layout mem s) (hw : Image.InBounds layout mem)
    (hbatch : shape.batch ≤ layout.batch) (hs : used ≤ s.scratch.size) :
    ∃ t, execute (loadOps f) s = some t ∧ t.scratch.size = s.scratch.size ∧
      RoundLoop.Walked f layout mem (fun _ => 0) t := by
  obtain ⟨hle, hle'⟩ := hf.indices_le
  have hscalars := hf.top.scalars
  obtain ⟨t, ht, hdiffers, haddressed⟩ := execute_addressOps hf hlength h.ready hw hbatch hs
  obtain ⟨u, hu, hdiffers', hlanes⟩ := execute_loadBlocks hf hw hbatch haddressed
    (hdiffers.mem.trans h.mem_eq) (hdiffers.size.symm ▸ hs)
  have hall := hdiffers.trans' hdiffers'
  obtain ⟨hready, htop, hmem⟩ := h.of_differs hf hall (fun i hi => by omega) fun i hi hi' => by
    omega
  refine ⟨u, ?_, hall.size, hready, htop, hmem, hlanes⟩
  rw [loadOps_eq, execute_append, ht, Option.bind_some, hu]

theorem pairwise_storesTo (hf : f.Layout shape used) (hw : Image.Walkable layout mem)
    (hbatch : layout.batch = shape.batch) (haddressed : Addressed f layout s) :
    (blockPairs f).Pairwise fun x y => ∀ i, s.StoresTo x.1 i → ¬ s.StoresTo y.1 i := by
  have hchunks := hf.chunks
  unfold Contents.StoresTo
  refine pairwise_blockPairs (fun chunk hchunk k => ?_) fun i j hij hj x hx y hy k => ?_
  · obtain ⟨hto, hto'⟩ := haddressed chunk hchunk
    have hlane := (hf.toNat_indexBlock (hchunks ▸ hchunk)).2
    have hapart := (hw.apart_iff k).2
    dsimp only
    omega
  · have hi : i < f.chunks := by omega
    obtain ⟨hto, hto'⟩ := haddressed i hi
    obtain ⟨hto₂, hto₂'⟩ := haddressed j hj
    have hlane := (hf.toNat_indexBlock (hchunks ▸ hi)).2
    have hlane' := (hf.toNat_indexBlock (hchunks ▸ hj)).2
    have hapart := (hw.apart_iff k).2
    have hnext : i * laneCount + laneCount ≤ j * laneCount := by
      rw [← Nat.succ_mul]
      exact Nat.mul_le_mul_right _ hij
    rcases List.mem_pair.mp hx with rfl | rfl <;> rcases List.mem_pair.mp hy with rfl | rfl <;>
      dsimp only <;> omega

theorem exists_execute_storeBlocks (hf : f.Layout shape used) (hw : Image.Walkable layout mem)
    (hbatch : layout.batch = shape.batch) (haddressed : Addressed f layout s) (hmem : s.mem = mem)
    (hs : used ≤ s.scratch.size) :
    ∃ mem', execute ((blockPairs f).map fun x => .storeBlock x.1 x.2) s =
        some { s with mem := mem' } ∧ mem'.size = mem.size ∧
      (∀ x ∈ blockPairs f, ∀ l < laneCount,
        mem'[(s.word x.1).toNat + l]? = some (s.lane l x.2)) ∧
      ∀ i, (∀ x ∈ blockPairs f, ¬ s.StoresTo x.1 i) → mem'[i]? = mem[i]? := by
  obtain ⟨hle, hle'⟩ := hf.indices_le
  have hlt := hf.stop_lt
  have hplace := blockPairs_placed hf hw.inBounds (Nat.le_of_eq hbatch.symm) haddressed
  subst hmem
  exact execute_map_storeBlock
    (fun x (hx : x ∈ blockPairs f) => by
      obtain ⟨haddr, haddr', hto, hblock, hblock'⟩ := hplace x hx
      exact ⟨⟨by omega, by omega⟩, ⟨by omega, by omega⟩⟩)
    (fun x hx => (hplace x hx).2.2.1)
    (pairwise_storesTo hf hw hbatch haddressed)

/-- A batch can be stored, and one of full chunks comes back to the image whole. -/
theorem execute_storeBlocks (hf : f.Layout shape used) (hw : Image.Walkable layout mem)
    (hbatch : layout.batch = shape.batch) (haddressed : Addressed f layout s) {done : Nat → Nat}
    (hwalked : RoundLoop.Walked f layout mem done s) (hs : used ≤ s.scratch.size) :
    ∃ mem', execute ((blockPairs f).map fun x => .storeBlock x.1 x.2) s =
        some { s with mem := mem' } ∧
      (shape.batch % laneCount = 0 →
        Image.Shows layout mem (fun lane => done (lane / laneCount)) mem') := by
  obtain ⟨mem', hrun, hsize, hwords, hrest⟩ :=
    exists_execute_storeBlocks hf hw hbatch haddressed hwalked.mem_eq hs
  refine ⟨mem', hrun, fun hlanes => ?_⟩
  -- a lane is one of a full chunk
  have hlane {lane : Nat} (hlane : lane < layout.batch) : lane / laneCount < f.chunks ∧
      lane % laneCount < laneCount ∧ lane / laneCount * laneCount + lane % laneCount = lane := by
    refine ⟨?_, Nat.mod_lt _ (by decide), Nat.div_add_mod' lane laneCount⟩
    rw [hf.chunks, FrameShape.chunks]
    simp only [laneCount] at *
    omega
  refine ⟨hsize, fun lane hl => ?_, fun lane hl => ?_, fun i hindex hvalue => ?_⟩
  · obtain ⟨hchunk, hmod, hsplit⟩ := hlane hl
    have hword := hwords _ (mem_blockPairs hchunk).1 _ hmod
    have hwalk := congrArg Prod.fst (hwalked.lanes _ hchunk _ hmod)
    rw [(haddressed _ hchunk).1, Nat.add_assoc, hsplit] at hword
    rw [hsplit] at hwalk
    rw [hword]
    exact congrArg some hwalk
  · obtain ⟨hchunk, hmod, hsplit⟩ := hlane hl
    have hword := hwords _ (mem_blockPairs hchunk).2 _ hmod
    have hwalk := congrArg Prod.snd (hwalked.lanes _ hchunk _ hmod)
    rw [(haddressed _ hchunk).2, Nat.add_assoc, hsplit] at hword
    rw [hsplit] at hwalk
    rw [hword]
    exact congrArg some hwalk
  · refine hrest i (forall_mem_blockPairs fun chunk hchunk => ?_)
    obtain ⟨hto, hto'⟩ := haddressed chunk hchunk
    have hin := (hf.toNat_indexBlock (hf.chunks ▸ hchunk)).2
    unfold Contents.StoresTo
    dsimp only
    omega

end BatchTransfer

end TreeWalk
