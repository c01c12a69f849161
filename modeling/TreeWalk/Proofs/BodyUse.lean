import TreeWalk.Proofs.KernelPacking
import TreeWalk.Proofs.LoopUse

/-!
# The second phase in order

The second phase reads nothing but what the setup or an earlier operation of it has set. It writes
no word of the setup, and each register of the top nodes only once, before the batch is loaded.
-/

namespace TreeWalk

structure Frame.SetUp (f : Frame) (known : Addr → Prop) : Prop where
  header : ∀ a ∈ f.header.words, known a
  constants : ∀ b ∈ f.constantBlocks, ∀ a ∈ b.block, known a
  chunkOffsets : ∀ a ∈ f.chunkOffsets, known a
  chunkOffsets_length : f.chunkOffsets.length = f.chunks
  topOffsets : ∀ a ∈ f.topOffsets, known a
  topOffsets_length : f.topOffsets.length = f.top.count

theorem Frame.SetUp.mono {f : Frame} {known known' : Addr → Prop} (h : f.SetUp known)
    (hsub : ∀ a, known a → known' a) : f.SetUp known' :=
  ⟨fun a ha => hsub a (h.header a ha), fun b hb a ha => hsub a (h.constants b hb a ha),
    fun a ha => hsub a (h.chunkOffsets a ha), h.chunkOffsets_length,
    fun a ha => hsub a (h.topOffsets a ha), h.topOffsets_length⟩

theorem lt_length_of_mem_zipIdx {α : Type} {xs : List α} {x : α × Nat} (h : x ∈ xs.zipIdx) :
    x.1 ∈ xs ∧ x.2 < xs.length :=
  ⟨List.fst_mem_of_mem_zipIdx h,
    (List.getElem?_eq_some_iff.mp (List.mem_zipIdx_iff_getElem?.mp h)).1⟩

theorem exists_mem_zipIdx {α : Type} {xs : List α} {i : Nat} (h : i < xs.length) :
    ∃ x, (x, i) ∈ xs.zipIdx :=
  ⟨xs[i], List.mem_zipIdx_iff_getElem?.mpr (List.getElem?_eq_getElem h)⟩

section Use

variable {f : Frame} {shape : FrameShape} {used : Nat} {known : Addr → Prop}

namespace NodeValues

theorem mem_written_topAddrOps (hlength : f.topOffsets.length = f.top.count) {i : Nat}
    (hi : i < f.top.count) : f.top.addrs.offset i ∈ written (topAddrOps f) := by
  obtain ⟨offset, hmem⟩ := exists_mem_zipIdx (hlength ▸ hi)
  exact mem_written.mpr ⟨_, List.mem_map_of_mem hmem, List.mem_singleton.mpr rfl⟩

theorem mem_written_topLoadOps {i : Nat} (hi : i < f.top.count) :
    f.top.node i ∈ written (topLoadOps f) :=
  mem_written.mpr ⟨_, List.mem_map_of_mem (List.mem_range.mpr hi), List.mem_singleton.mpr rfl⟩

theorem usesDefined_preloadOps (hf : f.Layout shape used) (h : f.SetUp known) :
    UsesDefined known (preloadOps f) := by
  have haddrs : UsesDefined known (topAddrOps f) := by
    apply UsesDefined.of_reads_known
    intro op hop a ha
    obtain ⟨x, hx, rfl⟩ := List.mem_map.mp hop
    rcases List.mem_pair.mp ha with rfl | rfl
    · exact h.header _ (by simp [HeaderRegs.words])
    · exact h.topOffsets _ (lt_length_of_mem_zipIdx hx).1
  have hloads : UsesDefined (fun a => known a ∨ a ∈ written (topAddrOps f)) (topLoadOps f) := by
    apply UsesDefined.of_reads_known
    intro op hop a ha
    obtain ⟨i, hi, rfl⟩ := List.mem_map.mp hop
    rw [List.mem_singleton.mp ha]
    exact .inr (mem_written_topAddrOps h.topOffsets_length (List.mem_range.mp hi))
  have hcopies : UsesDefined
      (fun a => (known a ∨ a ∈ written (topAddrOps f)) ∨ a ∈ written (topLoadOps f))
      (f.top.copies.map fun x => Op.broadcast x.1 (f.top.node x.2)) := by
    apply UsesDefined.of_reads_known
    intro op hop a ha
    obtain ⟨x, hx, rfl⟩ := List.mem_map.mp hop
    rw [List.mem_singleton.mp ha]
    exact .inr (mem_written_topLoadOps (TopNodes.lt_count_of_mem_copies hf hx))
  rw [preloadOps_eq]
  exact UsesDefined.append_iff.mpr ⟨haddrs, UsesDefined.append_iff.mpr ⟨hloads, hcopies⟩⟩

end NodeValues

namespace BatchTransfer

theorem usesDefined_addressOps (h : f.SetUp known) : UsesDefined known (addressOps f) := by
  apply UsesDefined.of_reads_known
  intro op hop a ha
  obtain ⟨x, hx, hop⟩ := List.mem_flatMap.mp hop
  have hoffset := h.chunkOffsets _ (lt_length_of_mem_zipIdx hx).1
  rcases List.mem_pair.mp hop with rfl | rfl <;> rcases List.mem_pair.mp ha with rfl | rfl
  · exact h.header _ (by simp [HeaderRegs.words])
  · exact hoffset
  · exact h.header _ (by simp [HeaderRegs.words])
  · exact hoffset

theorem fst_mem_written_addressOps (hlength : f.chunkOffsets.length = f.chunks) :
    ∀ x ∈ blockPairs f, x.1 ∈ written (addressOps f) := by
  apply forall_mem_blockPairs
  intro chunk hchunk
  obtain ⟨offset, hmem⟩ := exists_mem_zipIdx (hlength ▸ hchunk)
  have hset {a : Addr} {op : Op} (ha : a ∈ op.writes)
      (hop : op ∈ [Op.scalar .add (indexAddr f chunk) f.header.indicesAt offset,
        Op.scalar .add (valueAddr f chunk) f.header.valuesAt offset]) :
      a ∈ written (addressOps f) :=
    mem_written.mpr ⟨op, List.mem_flatMap.mpr ⟨(offset, chunk), hmem, hop⟩, ha⟩
  exact ⟨hset (List.mem_singleton.mpr rfl) List.mem_cons_self,
    hset (List.mem_singleton.mpr rfl) (List.mem_cons_of_mem _ List.mem_cons_self)⟩

theorem usesDefined_loadOps (h : f.SetUp known) : UsesDefined known (loadOps f) := by
  rw [loadOps_eq, UsesDefined.append_iff]
  refine ⟨usesDefined_addressOps h, .of_reads_known fun op hop a ha => ?_⟩
  obtain ⟨x, hx, rfl⟩ := List.mem_map.mp hop
  rw [List.mem_singleton.mp ha]
  exact .inr (fst_mem_written_addressOps h.chunkOffsets_length x hx)

theorem mem_written_loadOps (f : Frame) : ∀ x ∈ blockPairs f, ∀ a ∈ x.2.block,
    a ∈ written (loadOps f) := by
  intro x hx a ha
  rw [loadOps_eq, written_append]
  exact List.mem_append_right _ (mem_written.mpr ⟨_, List.mem_map_of_mem hx, ha⟩)

theorem usesDefined_storeOps (h : f.SetUp known)
    (hbatch : ∀ x ∈ blockPairs f, ∀ a ∈ x.2.block, known a) : UsesDefined known (storeOps f) := by
  rw [storeOps_eq, UsesDefined.append_iff]
  refine ⟨usesDefined_addressOps h, .of_reads_known fun op hop a ha => ?_⟩
  obtain ⟨x, hx, rfl⟩ := List.mem_map.mp hop
  rcases List.mem_cons.mp ha with rfl | ha
  · exact .inr (fst_mem_written_addressOps h.chunkOffsets_length x hx)
  · exact .inl (hbatch x hx a ha)

end BatchTransfer

theorem Frame.SetUp.filled (h : f.SetUp known) :
    f.Filled fun a => (known a ∨ a ∈ written (NodeValues.preloadOps f)) ∨
      a ∈ written (BatchTransfer.loadOps f) := by
  have hpreload {a : Addr} (ha : a ∈ written (NodeValues.topLoadOps f) ∨
      a ∈ written (f.top.copies.map fun x => Op.broadcast x.1 (f.top.node x.2))) :
      a ∈ written (NodeValues.preloadOps f) := by
    rw [NodeValues.preloadOps_eq, written_append, written_append]
    exact List.mem_append_right _ (List.mem_append.mpr ha)
  refine ⟨.inl (.inl (h.header _ (by simp [HeaderRegs.words]))),
    .inl (.inr (hpreload (.inl (NodeValues.mem_written_topLoadOps f.top.count_pos)))),
    fun b hb a ha => .inl ?_, fun chunk hchunk b hb a ha => .inr ?_⟩
  · rcases List.mem_append.mp hb with hb | hb
    · exact .inl (h.constants b hb a ha)
    · rw [← f.top.map_fst_copies] at hb
      obtain ⟨x, hx, rfl⟩ := List.mem_map.mp hb
      exact .inr (hpreload (.inr (mem_written.mpr ⟨_, List.mem_map_of_mem hx, ha⟩)))
  · obtain ⟨hindex, hvalue⟩ := BatchTransfer.mem_blockPairs hchunk
    rcases List.mem_pair.mp hb with rfl | rfl
    · exact BatchTransfer.mem_written_loadOps f _ hindex a ha
    · exact BatchTransfer.mem_written_loadOps f _ hvalue a ha

/-- The second phase is in order behind the setup. -/
theorem Kernel.usesDefined_bodyOps {p : Pipeline} {space : Iterations} (hf : f.Layout shape used)
    (hp : p.Suits shape.chunks shape.workSets) (hchunks : space.chunks = shape.chunks)
    (h : f.SetUp known) : UsesDefined known (bodyOps f p space) := by
  have hfilled := h.filled
  have hbatch : ∀ x ∈ BatchTransfer.blockPairs f, ∀ a ∈ x.2.block,
      a ∈ written (BatchTransfer.loadOps f) := BatchTransfer.mem_written_loadOps f
  have hbody : UsesDefined known
      (NodeValues.preloadOps f ++ BatchTransfer.loadOps f ++ RoundLoop.ops f p space ++
        BatchTransfer.storeOps f) := by
    rw [UsesDefined.append_iff, UsesDefined.append_iff, UsesDefined.append_iff]
    refine ⟨⟨⟨NodeValues.usesDefined_preloadOps hf h,
      BatchTransfer.usesDefined_loadOps (h.mono fun a => Or.inl)⟩,
      RoundLoop.usesDefined_ops hf hp hchunks (hfilled.mono fun a ha => ?_)⟩,
      BatchTransfer.usesDefined_storeOps (h.mono fun a => Or.inl) fun x hx a ha => .inr ?_⟩
    · rwa [written_append, List.mem_append, ← or_assoc]
    · simp only [written_append, List.mem_append]
      exact .inl (.inr (hbatch x hx a ha))
  exact ⟨by simp [Op.reads], hbody.mono fun a => Or.inl⟩

end Use

end TreeWalk
