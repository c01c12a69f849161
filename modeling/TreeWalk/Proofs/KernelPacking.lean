import TreeWalk.Kernel.Build
import TreeWalk.Proofs.BatchRun

/-!
# Kernels may be packed

The second phase of a kernel is straight code within the address space. It loads from memory until
all rounds are done and only then stores.
-/

namespace TreeWalk

/-- The operation replaces scratch words only, and none of its addresses wraps around. -/
def Op.IsPlain (op : Op) : Prop := op.isQuiet = true ∧ op.Fits

namespace RoundLoop

variable {f : Frame} {shape : FrameShape} {used : Nat} {p : Pipeline} {space : Iterations}

/-- Every operation of the round loop is one of a pass and stays in its words. -/
theorem exists_staysIn_of_mem_ops (hf : f.Layout shape used)
    (hp : p.Suits shape.chunks shape.workSets) (hchunks : space.chunks = shape.chunks) {op : Op}
    (h : op ∈ ops f p space) :
    ∃ (m : Member) (set : Nat), m.InFrame f shape set ∧ op.StaysIn (m.Own f) (Shared f) := by
  rw [(perm_ops hf hp.groupWidth_pos space).mem_iff] at h
  obtain ⟨i, hi, hop⟩ := List.mem_flatMap.mp h
  have hm := inFrame_passMember (f := f) hp hchunks (List.mem_range.mp hi)
  exact ⟨_, _, hm, runs_passOps hf hm op hop⟩

theorem isPlain_ops (hf : f.Layout shape used) (hp : p.Suits shape.chunks shape.workSets)
    (hchunks : space.chunks = shape.chunks) : ∀ op ∈ ops f p space, op.IsPlain := by
  intro op hop
  obtain ⟨m, set, -, hstays⟩ := exists_staysIn_of_mem_ops hf hp hchunks hop
  exact ⟨hstays.isQuiet, hstays.fits⟩

end RoundLoop

section Transfers

variable {f : Frame} {shape : FrameShape} {used : Nat}

theorem isPlain_preloadOps (hf : f.Layout shape used) :
    ∀ op ∈ NodeValues.preloadOps f, op.IsPlain := by
  obtain ⟨hle, hle'⟩ := hf.indices_le
  have hlt := hf.stop_lt
  rw [NodeValues.preloadOps_eq]
  refine List.forall_mem_append.mpr ⟨List.forall_mem_map.mpr fun x _ => ⟨rfl, trivial⟩,
    List.forall_mem_append.mpr ⟨List.forall_mem_map.mpr fun i _ => ⟨rfl, trivial⟩,
      List.forall_mem_map.mpr fun x hx => ⟨rfl, ?_⟩⟩⟩
  have hblock := (hf.topBlocks x.1 (f.top.map_fst_copies ▸ List.mem_map_of_mem hx)).2
  show x.1.toNat + laneCount ≤ 2 ^ 32
  omega

namespace BatchTransfer

theorem isPlain_addressOps (f : Frame) : ∀ op ∈ addressOps f, op.IsPlain := by
  intro op hop
  obtain ⟨x, -, hop⟩ := List.mem_flatMap.mp hop
  rcases List.mem_pair.mp hop with rfl | rfl <;> exact ⟨rfl, trivial⟩

theorem fits_blockPairs (hf : f.Layout shape used) :
    ∀ x ∈ blockPairs f, x.2.FitsBlock := by
  obtain ⟨hle, hle'⟩ := hf.indices_le
  have hlt := hf.stop_lt
  refine forall_mem_blockPairs fun chunk hchunk => ?_
  obtain ⟨hindex, hlane⟩ := hf.toNat_indexBlock (hf.chunks ▸ hchunk)
  have hvalue := hf.toNat_valueBlock (hf.chunks ▸ hchunk)
  unfold Addr.FitsBlock
  dsimp only
  omega

theorem isPlain_loadOps (hf : f.Layout shape used) : ∀ op ∈ loadOps f, op.IsPlain := by
  rw [loadOps_eq]
  exact List.forall_mem_append.mpr ⟨isPlain_addressOps f,
    List.forall_mem_map.mpr fun x hx => ⟨rfl, fits_blockPairs hf x hx⟩⟩

end BatchTransfer

end Transfers

namespace Packing

theorem packable_append {loads stores : List Op}
    (hloads : ∀ op ∈ loads, op.isStraight = true ∧ op.Fits ∧ op.writesMemory = false)
    (hstores : ∀ op ∈ stores, op.isStraight = true ∧ op.Fits ∧ op.readsMemory = false) :
    Packable (loads ++ stores) := by
  refine ⟨List.forall_mem_append.mpr ⟨fun op hop => (hloads op hop).1,
      fun op hop => (hstores op hop).1⟩,
    List.forall_mem_append.mpr ⟨fun op hop => (hloads op hop).2.1,
      fun op hop => (hstores op hop).2.1⟩,
    List.pairwise_append.mpr ⟨?_, ?_, fun x _ y hy _ => (hstores y hy).2.2⟩⟩
  · exact List.pairwise_of_forall_mem_list fun x hx y _ hw =>
      absurd hw (by simp [(hloads x hx).2.2])
  · exact List.pairwise_of_forall_mem_list fun x _ y hy _ => (hstores y hy).2.2

end Packing

namespace Kernel

/-- The second phase up to where it turns to the stores. -/
def walkOps (f : Frame) (p : Pipeline) (space : Iterations) : List Op :=
  .note "pipelined tree walk" ::
    (NodeValues.preloadOps f ++ BatchTransfer.loadOps f ++ RoundLoop.ops f p space)

theorem bodyOps_eq_walkOps (f : Frame) (p : Pipeline) (space : Iterations) :
    bodyOps f p space = walkOps f p space ++ BatchTransfer.addressOps f ++
      (BatchTransfer.blockPairs f).map fun x => .storeBlock x.1 x.2 := by
  rw [bodyOps, walkOps, BatchTransfer.storeOps_eq, List.cons_append, List.cons_append,
    List.append_assoc _ _ (List.map _ _)]

variable {f : Frame} {shape : FrameShape} {used : Nat} {p : Pipeline} {space : Iterations}

theorem of_mem_walkOps (hf : f.Layout shape used) (hp : p.Suits shape.chunks shape.workSets)
    (hchunks : space.chunks = shape.chunks) {op : Op} (hop : op ∈ walkOps f p space) :
    op = .note "pipelined tree walk" ∨ op.IsPlain := by
  rcases List.mem_cons.mp hop with rfl | hop
  · exact .inl rfl
  · rcases List.mem_append.mp hop with hop | hop
    · rcases List.mem_append.mp hop with hop | hop
      · exact .inr (isPlain_preloadOps hf op hop)
      · exact .inr (BatchTransfer.isPlain_loadOps hf op hop)
    · exact .inr (RoundLoop.isPlain_ops hf hp hchunks op hop)

theorem packable_bodyOps (hf : f.Layout shape used) (hp : p.Suits shape.chunks shape.workSets)
    (hchunks : space.chunks = shape.chunks) : Packing.Packable (bodyOps f p space) := by
  have hplain {op : Op} (h : op.IsPlain) :
      op.isStraight = true ∧ op.Fits ∧ op.writesMemory = false :=
    ⟨Op.isStraight_of_isQuiet h.1, h.2, Op.writesMemory_of_isQuiet h.1⟩
  rw [bodyOps_eq_walkOps]
  apply Packing.packable_append
  · intro op hop
    rcases List.mem_append.mp hop with hop | hop
    · rcases of_mem_walkOps hf hp hchunks hop with rfl | h
      · exact ⟨rfl, trivial, rfl⟩
      · exact hplain h
    · exact hplain (BatchTransfer.isPlain_addressOps f op hop)
  · exact List.forall_mem_map.mpr fun x hx => ⟨rfl, BatchTransfer.fits_blockPairs hf x hx, rfl⟩

end Kernel

end TreeWalk
