import TreeWalk.Proofs.BodyUse

/-!
# What the second phase writes

The second phase leaves alone what the setup has set. The registers of the top nodes are set by the
preload, each by one operation, and by nothing else.
-/

namespace TreeWalk

def Op.WritesWithin (lo hi : Nat) (op : Op) : Prop :=
  ∀ a ∈ op.writes, lo ≤ a.toNat ∧ a.toNat < hi

namespace Op.WritesWithin

variable {lo hi lo' hi' : Nat} {x y : Op}

theorem mono (h : x.WritesWithin lo hi) (hlo : lo' ≤ lo) (hhi : hi ≤ hi') :
    x.WritesWithin lo' hi' :=
  fun a ha => ⟨Nat.le_trans hlo (h a ha).1, Nat.lt_of_lt_of_le (h a ha).2 hhi⟩

theorem apart (hx : x.WritesWithin lo hi) (hy : y.WritesWithin lo' hi')
    (h : hi ≤ lo' ∨ hi' ≤ lo) : x.WritesApart y := by
  intro a ha ha'
  have := hx a ha
  have := hy a ha'
  omega

theorem word {dest : Addr} (h : x.writes = [dest]) :
    x.WritesWithin dest.toNat (dest.toNat + 1) := by
  intro a ha
  rw [h] at ha
  obtain rfl := List.mem_singleton.mp ha
  omega

theorem block {dest : Addr} (h : x.writes = dest.block) (hfit : dest.FitsBlock) :
    x.WritesWithin dest.toNat (dest.toNat + laneCount) := by
  intro a ha
  rw [h] at ha
  obtain ⟨lane, hlane, rfl⟩ := Addr.mem_block.mp ha
  rw [hfit.toNat_offset hlane]
  omega

end Op.WritesWithin

/-- The registers of the top nodes: a scalar to a node, the scalar with its address, and the blocks
of the nodes that blends read. -/
def TopNodes.registers (t : TopNodes) : List (List Addr) :=
  (List.range t.count).map (fun i => [t.node i]) ++
    (List.range t.count).map (fun i => [t.addrs.offset i]) ++ t.blocks.map Addr.block

section Writes

variable {f : Frame} {shape : FrameShape} {used : Nat}

namespace NodeValues

theorem writesWithin_topAddr (hf : f.Layout shape used)
    (hlength : f.topOffsets.length = f.top.count) {x : Addr × Nat} (hx : x ∈ f.topOffsets.zipIdx) :
    x.2 < f.top.count ∧
      (Op.scalar .add (f.top.addrs.offset x.2) f.header.nodesAt x.1).WritesWithin
        (f.top.scalars.toNat + f.top.count + x.2)
        (f.top.scalars.toNat + f.top.count + x.2 + 1) := by
  have hi : x.2 < f.top.count := hlength ▸ (lt_length_of_mem_zipIdx hx).2
  exact ⟨hi, (toNat_top hf hi).2 ▸ .word rfl⟩

theorem writesWithin_topLoad (hf : f.Layout shape used) {i : Nat}
    (hi : i ∈ List.range f.top.count) :
    i < f.top.count ∧ (Op.loadWord (f.top.node i) (f.top.addrs.offset i)).WritesWithin
      (f.top.scalars.toNat + i) (f.top.scalars.toNat + i + 1) := by
  have hi := List.mem_range.mp hi
  exact ⟨hi, (toNat_top hf hi).1 ▸ .word rfl⟩

theorem writesWithin_copy (hf : f.Layout shape used) {x : Addr × Nat} (hx : x ∈ f.top.copies) :
    (f.top.scalars.toNat + 2 * f.top.count ≤ x.1.toNat ∧
      x.1.toNat + laneCount ≤ f.transferAddrs.toNat) ∧
    (Op.broadcast x.1 (f.top.node x.2)).WritesWithin x.1.toNat (x.1.toNat + laneCount) := by
  have hscalars := hf.top.scalars
  have haddrs := hf.top.addrs
  have hblock := hf.topBlocks x.1 (f.top.map_fst_copies ▸ List.mem_map_of_mem hx)
  obtain ⟨-, hle⟩ := hf.indices_le
  have hlt := hf.stop_lt
  exact ⟨⟨by omega, hblock.2⟩, .block rfl (by unfold Addr.FitsBlock; omega)⟩

theorem writesWithin_preloadOps (hf : f.Layout shape used)
    (hlength : f.topOffsets.length = f.top.count) :
    ∀ op ∈ preloadOps f, op.WritesWithin f.top.scalars.toNat f.transferAddrs.toNat := by
  obtain ⟨hle, -⟩ := hf.indices_le
  have hscalars := hf.top.scalars
  rw [preloadOps_eq]
  intro op hop
  rcases List.mem_append.mp hop with hop | hop
  · obtain ⟨x, hx, rfl⟩ := List.mem_map.mp hop
    obtain ⟨hi, hwrites⟩ := writesWithin_topAddr hf hlength hx
    exact hwrites.mono (by omega) (by omega)
  rcases List.mem_append.mp hop with hop | hop
  · obtain ⟨i, hi, rfl⟩ := List.mem_map.mp hop
    obtain ⟨hi, hwrites⟩ := writesWithin_topLoad hf hi
    exact hwrites.mono (by omega) (by omega)
  · obtain ⟨x, hx, rfl⟩ := List.mem_map.mp hop
    obtain ⟨hplace, hwrites⟩ := writesWithin_copy hf hx
    exact hwrites.mono (by omega) (by omega)

theorem pairwise_preloadOps (hf : f.Layout shape used)
    (hlength : f.topOffsets.length = f.top.count) : (preloadOps f).Pairwise Op.WritesApart := by
  have haddrs : (topAddrOps f).Pairwise Op.WritesApart := by
    refine List.pairwise_map.mpr ((pairwise_zipIdx f.topOffsets).imp_of_mem ?_)
    intro x y hx hy hxy
    exact (writesWithin_topAddr hf hlength hx).2.apart (writesWithin_topAddr hf hlength hy).2
      (.inl (by omega))
  have hloads : (topLoadOps f).Pairwise Op.WritesApart := by
    refine List.pairwise_map.mpr (List.pairwise_lt_range.imp_of_mem ?_)
    intro i j hi hj hij
    exact (writesWithin_topLoad hf hi).2.apart (writesWithin_topLoad hf hj).2 (.inl (by omega))
  have hcopies : (f.top.copies.map fun x =>
      Op.broadcast x.1 (f.top.node x.2)).Pairwise Op.WritesApart := by
    have hblocks := TopNodes.pairwise_blocks hf
    rw [← f.top.map_fst_copies, List.pairwise_map] at hblocks
    refine List.pairwise_map.mpr (hblocks.imp_of_mem ?_)
    intro x y hx hy hxy
    exact (writesWithin_copy hf hx).2.apart (writesWithin_copy hf hy).2 hxy
  rw [preloadOps_eq]
  refine List.pairwise_append.mpr ⟨haddrs, List.pairwise_append.mpr ⟨hloads, hcopies, ?_⟩, ?_⟩
  · intro op hop op' hop'
    obtain ⟨i, hi, rfl⟩ := List.mem_map.mp hop
    obtain ⟨x, hx, rfl⟩ := List.mem_map.mp hop'
    obtain ⟨hlt, hwrites⟩ := writesWithin_topLoad hf hi
    obtain ⟨hplace, hwrites'⟩ := writesWithin_copy hf hx
    exact hwrites.apart hwrites' (.inl (by omega))
  · intro op hop op' hop'
    obtain ⟨x, hx, rfl⟩ := List.mem_map.mp hop
    obtain ⟨hlt, hwrites⟩ := writesWithin_topAddr hf hlength hx
    rcases List.mem_append.mp hop' with hop' | hop'
    · obtain ⟨i, hi, rfl⟩ := List.mem_map.mp hop'
      obtain ⟨hlt', hwrites'⟩ := writesWithin_topLoad hf hi
      exact hwrites.apart hwrites' (.inr (by omega))
    · obtain ⟨y, hy, rfl⟩ := List.mem_map.mp hop'
      obtain ⟨hplace, hwrites'⟩ := writesWithin_copy hf hy
      exact hwrites.apart hwrites' (.inl (by omega))

theorem setsOnce_preloadOps (hf : f.Layout shape used)
    (hlength : f.topOffsets.length = f.top.count) :
    ∀ register ∈ f.top.registers, SetsOnce (preloadOps f) register := by
  have hpairwise := pairwise_preloadOps hf hlength
  have hop {op : Op} (hop : op ∈ preloadOps f) : SetsOnce (preloadOps f) op.writes :=
    .of_pairwise hpairwise hop fun _ => id
  rw [preloadOps_eq] at hop ⊢
  intro register hregister
  rcases List.mem_append.mp hregister with hregister | hregister
  · rcases List.mem_append.mp hregister with hregister | hregister
    · obtain ⟨i, hi, rfl⟩ := List.mem_map.mp hregister
      have hmem := List.mem_map_of_mem (f := fun i =>
        Op.loadWord (f.top.scalars.offset i) (f.top.addrs.offset i)) hi
      exact hop (List.mem_append_right _ (List.mem_append_left _ hmem))
    · obtain ⟨i, hi, rfl⟩ := List.mem_map.mp hregister
      obtain ⟨offset, hmem⟩ := exists_mem_zipIdx (hlength ▸ List.mem_range.mp hi)
      have hmem := List.mem_map_of_mem (f := fun x : Addr × Nat =>
        Op.scalar .add (f.top.addrs.offset x.2) f.header.nodesAt x.1) hmem
      exact hop (List.mem_append_left _ hmem)
  · rw [← f.top.map_fst_copies, List.map_map] at hregister
    obtain ⟨x, hx, rfl⟩ := List.mem_map.mp hregister
    have hmem := List.mem_map_of_mem (f := fun x : Addr × Nat =>
      Op.broadcast x.1 (f.top.node x.2)) hx
    exact hop (List.mem_append_right _ (List.mem_append_right _ hmem))

end NodeValues

/-- The operation replaces words of the data, but none of the top nodes. -/
def Op.SkipsTop (f : Frame) (used : Nat) (op : Op) : Prop :=
  op.WritesWithin f.indices.toNat f.top.scalars.toNat ∨ op.WritesWithin f.transferAddrs.toNat used

namespace BatchTransfer

theorem skipsTop_addressOps (hf : f.Layout shape used)
    (hlength : f.chunkOffsets.length = f.chunks) :
    ∀ op ∈ addressOps f, op.SkipsTop f used := by
  have hstop := hf.stop
  intro op hop
  obtain ⟨x, hx, hop⟩ := List.mem_flatMap.mp hop
  have hchunk : x.2 < shape.chunks := hf.chunks ▸ hlength ▸ (lt_length_of_mem_zipIdx hx).2
  obtain ⟨hindex, hvalue⟩ := toNat_addrs hf hchunk
  have hword {dest a b : Addr} (hlow : f.transferAddrs.toNat ≤ dest.toNat)
      (hhigh : dest.toNat < used) : (Op.scalar .add dest a b).SkipsTop f used :=
    .inr ((Op.WritesWithin.word rfl).mono hlow hhigh)
  rcases List.mem_pair.mp hop with rfl | rfl
  · exact hword (by omega) (by omega)
  · exact hword (by omega) (by omega)

theorem skipsTop_loadOps (hf : f.Layout shape used) (hlength : f.chunkOffsets.length = f.chunks) :
    ∀ op ∈ loadOps f, op.SkipsTop f used := by
  rw [loadOps_eq]
  refine List.forall_mem_append.mpr ⟨skipsTop_addressOps hf hlength, List.forall_mem_map.mpr ?_⟩
  have hscalars := hf.top.scalars
  obtain ⟨hle, hle'⟩ := hf.indices_le
  have hlt := hf.stop_lt
  have hblock {a b : Addr} (hlow : f.indices.toNat ≤ b.toNat)
      (hhigh : b.toNat + laneCount ≤ f.top.scalars.toNat) :
      (Op.loadBlock b a).SkipsTop f used :=
    .inl ((Op.WritesWithin.block rfl (by unfold Addr.FitsBlock; omega)).mono hlow hhigh)
  apply forall_mem_blockPairs
  intro chunk hchunk
  obtain ⟨hindex, hlane⟩ := hf.toNat_indexBlock (hf.chunks ▸ hchunk)
  have hvalue := hf.toNat_valueBlock (hf.chunks ▸ hchunk)
  dsimp only
  exact ⟨hblock (by omega) (by omega), hblock (by omega) (by omega)⟩

theorem skipsTop_storeOps (hf : f.Layout shape used) (hlength : f.chunkOffsets.length = f.chunks) :
    ∀ op ∈ storeOps f, op.SkipsTop f used := by
  rw [storeOps_eq]
  refine List.forall_mem_append.mpr ⟨skipsTop_addressOps hf hlength, List.forall_mem_map.mpr ?_⟩
  intro x _
  exact .inl fun a ha => absurd ha List.not_mem_nil

end BatchTransfer

section Body

variable {p : Pipeline} {space : Iterations}

theorem RoundLoop.skipsTop_ops (hf : f.Layout shape used)
    (hp : p.Suits shape.chunks shape.workSets) (hchunks : space.chunks = shape.chunks) :
    ∀ op ∈ ops f p space, op.SkipsTop f used := by
  intro op hop
  obtain ⟨m, set, hm, hstays⟩ := exists_staysIn_of_mem_ops hf hp hchunks hop
  exact .inl fun a ha => Member.own_bounds hf hm (hstays.writes a ha)

namespace Kernel

theorem skipsTop_behind_preload (hf : f.Layout shape used)
    (hp : p.Suits shape.chunks shape.workSets) (hchunks : space.chunks = shape.chunks)
    (hlength : f.chunkOffsets.length = f.chunks) :
    ∀ op ∈ BatchTransfer.loadOps f ++ RoundLoop.ops f p space ++ BatchTransfer.storeOps f,
      op.SkipsTop f used :=
  List.forall_mem_append.mpr ⟨List.forall_mem_append.mpr
    ⟨BatchTransfer.skipsTop_loadOps hf hlength, RoundLoop.skipsTop_ops hf hp hchunks⟩,
    BatchTransfer.skipsTop_storeOps hf hlength⟩

theorem bodyOps_eq (f : Frame) (p : Pipeline) (space : Iterations) :
    bodyOps f p space = [.note "pipelined tree walk"] ++ (NodeValues.preloadOps f ++
      (BatchTransfer.loadOps f ++ RoundLoop.ops f p space ++ BatchTransfer.storeOps f)) := by
  simp [bodyOps]

theorem writesWithin_bodyOps (hf : f.Layout shape used)
    (hp : p.Suits shape.chunks shape.workSets) (hchunks : space.chunks = shape.chunks)
    (hsetup : f.chunkOffsets.length = f.chunks ∧ f.topOffsets.length = f.top.count) :
    ∀ op ∈ bodyOps f p space, op.WritesWithin f.indices.toNat used := by
  obtain ⟨hle, hle'⟩ := hf.indices_le
  have hscalars := hf.top.scalars
  rw [bodyOps_eq]
  intro op hop
  rcases List.mem_append.mp hop with hop | hop
  · obtain rfl := List.mem_singleton.mp hop
    exact fun a ha => absurd ha List.not_mem_nil
  rcases List.mem_append.mp hop with hop | hop
  · exact (NodeValues.writesWithin_preloadOps hf hsetup.2 op hop).mono (by omega) (by omega)
  · rcases skipsTop_behind_preload hf hp hchunks hsetup.1 op hop with hwrites | hwrites
    · exact hwrites.mono (by omega) (by omega)
    · exact hwrites.mono (by omega) (by omega)

/-- Every register of the top nodes is set by one operation of the second phase. -/
theorem setsOnce_bodyOps (hf : f.Layout shape used)
    (hp : p.Suits shape.chunks shape.workSets) (hchunks : space.chunks = shape.chunks)
    (hsetup : f.chunkOffsets.length = f.chunks ∧ f.topOffsets.length = f.top.count) :
    ∀ register ∈ f.top.registers, SetsOnce (bodyOps f p space) register := by
  intro register hregister
  have honce := NodeValues.setsOnce_preloadOps hf hsetup.2 register hregister
  have hwithin := NodeValues.writesWithin_preloadOps hf hsetup.2
  rw [bodyOps_eq]
  refine (honce.append_right fun a ha hwritten => ?_).append_left fun a ha hwritten => ?_
  · -- the register lies among the top nodes, which nothing behind the preload replaces
    obtain ⟨before, op, after, hops, hop, -⟩ := honce
    have hbounds := hwithin op (by simp [hops]) a (hop a ha)
    obtain ⟨x, hx, hw⟩ := mem_written.mp hwritten
    rcases skipsTop_behind_preload hf hp hchunks hsetup.1 x hx with hwrites | hwrites
    · have := hwrites a hw
      omega
    · have := hwrites a hw
      omega
  · obtain ⟨x, hx, hw⟩ := mem_written.mp hwritten
    obtain rfl := List.mem_singleton.mp hx
    exact absurd hw List.not_mem_nil

end Kernel

end Body

end Writes

end TreeWalk
