import TreeWalk.Proofs.ConstantPool
import TreeWalk.Proofs.MemberFootprint
import TreeWalk.Proofs.PackedRun
import TreeWalk.Proofs.PassMeaning

/-!
# The step to a child

Six operations in place, one formula and a choice between two children say the same thing: they
agree on all words, also where the doubled index wraps around or leaves the tree.
-/

namespace TreeWalk

theorem LaneBlocks.sublist {own own' shared : List Addr} (h : LaneBlocks own shared)
    (hsub : own'.Sublist own) : LaneBlocks own' shared :=
  ⟨h.apart.sublist hsub, fun d hd => h.apart_shared d (hsub.mem hd)⟩

namespace IndexUpdate

/-! ## One lane -/

/-- The formula chooses a child, and the root where the child is not in the tree. -/
theorem next_eq (index value nodeCount : Word) :
    next index value nodeCount =
      let child := index * 2 + if value % 2 = 0 then 1 else 2
      if nodeCount ≤ child then 0 else child := by
  simp only [next, and_one_add_one]
  by_cases hinside : index * 2 + (if value % 2 = 0 then 1 else 2) < nodeCount
  · simp [hinside, UInt32.not_le.mpr hinside, Word.ofBool]
  · simp [hinside, UInt32.not_lt.mp hinside, Word.ofBool]

theorem step_eq_next (node index value nodeCount : Word) :
    Walk.step node index value nodeCount.toNat =
      (next index (Mix.hash (value ^^^ node)) nodeCount, Mix.hash (value ^^^ node)) := by
  rw [next_eq]
  simp only [Walk.step, UInt32.le_iff_toNat_le]

/-! ## All lanes of a chunk -/

section Frames

variable {f : Frame} {shape : FrameShape} {used set : Nat} {m : RoundLoop.Member} {s : Contents}

theorem laneBlocks (hf : f.Layout shape used) (hm : m.InFrame f shape set) :
    LaneBlocks [m.workSet.left, f.indexBlock m.chunk]
      (f.valueBlock m.chunk :: f.sharedBlocks) := by
  have hsub : ([m.workSet.left, f.indexBlock m.chunk] ++ [f.valueBlock m.chunk]).Sublist
      (m.ownBlocks f) :=
    .cons _ (.cons_cons _ (.cons _ (.cons _ (.refl _))))
  exact ((RoundLoop.Member.laneBlocks hf hm).sublist hsub).shift

theorem laneWise (f : Frame) (m : RoundLoop.Member) :
    ∀ op ∈ ops f m.workSet m.chunk, op.LaneWise [m.workSet.left, f.indexBlock m.chunk]
      (f.valueBlock m.chunk :: f.sharedBlocks) :=
  laneWise_ops (by simp) (by simp) (by simp) (by simp [Frame.sharedBlocks, Frame.constantBlocks])
    (by simp [Frame.sharedBlocks, Frame.constantBlocks])
    (by simp [Frame.sharedBlocks, Frame.constantBlocks])

theorem mem_blocks {a : Addr} (h : a ∈ [m.workSet.left, f.indexBlock m.chunk] ++
    (f.valueBlock m.chunk :: f.sharedBlocks)) : a ∈ m.ownBlocks f ++ f.sharedBlocks := by
  simp only [RoundLoop.Member.ownBlocks, List.cons_append, List.nil_append, List.mem_cons] at h ⊢
  tauto

theorem execute_ops (hf : f.Layout shape used) (hm : m.InFrame f shape set)
    (hs : used ≤ s.scratch.size) :
    ∃ u, execute (ops f m.workSet m.chunk) s = some u ∧
      Contents.DiffersIn (Addr.Covered [m.workSet.left, f.indexBlock m.chunk]) s u ∧
      ∀ l < laneCount, u.lane l (f.indexBlock m.chunk) =
        RoundLoop.nextIndex f (s.lane l) (s.lane l (f.indexBlock m.chunk))
          (s.lane l (f.valueBlock m.chunk)) := by
  obtain ⟨u, hu, hdiffers, hlane⟩ := execute_onLanes (laneBlocks hf hm) (laneWise f m)
    (fun a ha => RoundLoop.Member.holds hf hm hs a (mem_blocks ha)) (ρ := fun l => s.lane l)
    fun _ _ _ _ => rfl
  refine ⟨u, hu, hdiffers, fun l hl => ?_⟩
  obtain ⟨hapart, -⟩ := List.pairwise_cons.mp (laneBlocks hf hm).apart
  have hindex : f.indexBlock m.chunk ≠ m.workSet.left := (hapart _ (by simp)).ne.symm
  have hshared := (laneBlocks hf hm).apart_shared
  have hvalue := hshared m.workSet.left (by simp) (f.valueBlock m.chunk) (by simp)
  have hvalue' := hshared (f.indexBlock m.chunk) (by simp) (f.valueBlock m.chunk) (by simp)
  rw [hlane l hl _ (by simp)]
  refine (RoundLoop.onLanes_indexUpdate hvalue.ne.symm hindex hvalue'.ne.symm ?_).2
  intro a ha
  have hmem : a ∈ f.valueBlock m.chunk :: f.sharedBlocks := by
    simp only [Frame.sharedBlocks, Frame.constantBlocks, List.mem_cons, List.mem_append,
      List.not_mem_nil, or_false] at ha ⊢
    tauto
  exact ⟨(hshared m.workSet.left (by simp) a hmem).ne.symm,
    (hshared (f.indexBlock m.chunk) (by simp) a hmem).ne.symm⟩

theorem packable_ops (hf : f.Layout shape used) (hm : m.InFrame f shape set) :
    Packing.Packable (ops f m.workSet m.chunk) := by
  have hstays : ∀ op ∈ ops f m.workSet m.chunk,
      op.StaysIn (Addr.Covered [m.workSet.left, f.indexBlock m.chunk])
        (Addr.Covered (f.valueBlock m.chunk :: f.sharedBlocks)) := by
    intro op hop
    refine (laneWise f m op hop).staysIn fun a ha => ?_
    exact Nat.le_trans (RoundLoop.Member.block_le hf hm a (mem_blocks ha)) (Nat.le_of_lt hf.stop_lt)
  refine ⟨fun op hop => Op.isStraight_of_isQuiet (hstays op hop).isQuiet,
    fun op hop => (hstays op hop).fits, ?_⟩
  exact List.pairwise_of_forall_mem_list fun x hx y _ hw =>
    absurd hw (by simp [Op.writesMemory_of_isQuiet (hstays x hx).isQuiet])

theorem not_covered (hf : f.Layout shape used) (hm : m.InFrame f shape set) {other l : Nat}
    (hother : other < shape.chunks) (hl : l < laneCount) :
    ¬ Addr.Covered [m.workSet.left, f.indexBlock m.chunk] ((f.valueBlock other).toNat + l) ∧
      (other ≠ m.chunk →
        ¬ Addr.Covered [m.workSet.left, f.indexBlock m.chunk]
          ((f.indexBlock other).toNat + l)) := by
  obtain ⟨hindex, hbatch⟩ := hf.toNat_indexBlock hm.chunk_lt
  obtain ⟨hindex', hbatch'⟩ := hf.toNat_indexBlock hother
  have hvalue := hf.toNat_valueBlock hother
  obtain ⟨⟨-, hleft, -, -, -⟩, -⟩ := RoundLoop.Member.workSet_at hf hm
  simp only [laneCount] at hindex hbatch hindex' hbatch' hvalue hl
  simp only [Addr.Covered, List.mem_cons, List.not_mem_nil, or_false, exists_eq_or_imp,
    exists_eq_left, laneCount]
  omega

end Frames

/-- The update steps every lane of its chunk to a child. Take any frame, laid out behind any
reservations and constants, any chunk and work set of it, and any contents of a scratch that holds
the frame where the constants one and two have their values and the lanes of the node count hold one
word. The update goes well on all words and leaves in each lane the child for the index and the
value there, which is what a round makes of the index. Nothing changes but the indices of the chunk
and the left register of the work set. A machine that comes to the update, packed or not, is behind
it with the same contents. -/
theorem steps_lanes_to_children {capacity : Nat} (hcapacity : capacity < 2 ^ 32)
    {d₀ d : Draft} (hd₀ : Draft.Assembled capacity d₀) {shape : FrameShape} {f : Frame}
    (hreserve : Draft.perform (Frame.reserve shape) d₀ = (.ok f, d)) {w : WorkSet}
    (hw : w ∈ f.workSets) {chunk : Nat} (hchunk : chunk < f.chunks) {s : Contents}
    (hs : d.used ≤ s.scratch.size) {nodeCount : Word}
    (hconst : ∀ l < laneCount, s.lane l f.one = 1 ∧ s.lane l f.two = 2 ∧
      s.lane l f.nodeCount = nodeCount) :
    (∀ index value, next index value nodeCount =
      let child := index * 2 + if value % 2 = 0 then 1 else 2
      if nodeCount ≤ child then 0 else child) ∧
    ∃ u, execute (ops f w chunk) s = some u ∧
      (∀ l < laneCount,
        let index := s.lane l (f.indexBlock chunk)
        let value := s.lane l (f.valueBlock chunk)
        u.lane l (f.indexBlock chunk) = next index value nodeCount ∧
          ∀ node before, Mix.hash (before ^^^ node) = value →
            Walk.step node index before nodeCount.toNat = (next index value nodeCount, value)) ∧
      Contents.DiffersIn (Addr.Covered [w.left, f.indexBlock chunk]) s u ∧
      (∀ other < f.chunks, ∀ l < laneCount,
        u.lane l (f.valueBlock other) = s.lane l (f.valueBlock other) ∧
          (other ≠ chunk → u.lane l (f.indexBlock other) = s.lane l (f.indexBlock other))) ∧
      ∀ (m : Machine) mode pc cycle, (∀ e, e ≠ Engine.debug → 1 ≤ m.widths.of e) →
        m.HasBundles pc (Packing.pack mode m.widths (ops f w chunk)) →
        ∃ cycle', ∀ limit,
          (m.holding s pc .running cycle).runFor
              ((Packing.pack mode m.widths (ops f w chunk)).length + limit) =
            (m.holding u (pc + (Packing.pack mode m.widths (ops f w chunk)).length) .running
              cycle').runFor limit := by
  obtain ⟨-, -, hf, -⟩ := Frame.reserve_spec (hd₀.kept hcapacity HeaderRegs.wordCount) hreserve
  obtain ⟨set, hlt, rfl⟩ := List.mem_iff_getElem.mp hw
  have hget : f.workSet set = f.workSets[set] := by simp [Frame.workSet, hlt]
  have hm : (⟨f.workSets[set], chunk, 0⟩ : RoundLoop.Member).InFrame f shape set :=
    ⟨hf.chunks ▸ hchunk, hf.workSets_length ▸ hlt, hget.symm⟩
  obtain ⟨u, hu, hdiffers, hlane⟩ := execute_ops hf hm hs
  refine ⟨fun index value => next_eq index value nodeCount, u, hu, ?_, hdiffers,
    fun other hother l hl => ?_, ?_⟩
  · intro l hl index value
    obtain ⟨hone, htwo, hcount⟩ := hconst l hl
    refine ⟨?_, ?_⟩
    · rw [hlane l hl]
      simp only [RoundLoop.nextIndex, hone, htwo, hcount]
      rfl
    · intro node before hvalue
      rw [step_eq_next, hvalue]
  · obtain ⟨hvalue, hindex⟩ := not_covered hf hm (hf.chunks ▸ hother) hl
    exact ⟨hdiffers.lane hvalue, fun hne => hdiffers.lane (hindex hne)⟩
  · intro m mode pc cycle hwidths hprogram
    exact Packing.runFor_of_execute (packable_ops hf hm) hwidths mode rfl hprogram hu cycle

/-- Two indices wrap around when they are doubled, and the right child of a leaf is missing. -/
theorem steps_lanes_to_children_wrapping :
    let words : List Word := List.replicate 14 0 ++ List.replicate 8 1 ++ List.replicate 8 2 ++
      List.replicate 8 0 ++ List.replicate 8 3 ++ List.replicate 108 0 ++
      [2147483648, 4294967295, 1, 0, 0, 0, 0, 0] ++ List.replicate 8 0 ++
      [0, 1, 0, 1, 0, 0, 0, 0] ++ List.replicate 66 0
    let s : Contents := ⟨0, words.toArray, #[], #[]⟩
    ∃ f d w u, Draft.perform (Frame.reserve ⟨1, 16, 1⟩) (.ofCapacity 400) = (.ok f, d) ∧
      f.workSets = [w] ∧ execute (ops f w 1) s = some u ∧
      ∀ l < laneCount, [1, 0, 0, 2, 1, 1, 1, 1][l]? = some (u.lane l (f.indexBlock 1)) := by
  intro words s
  obtain ⟨f, d, hreserve, hlength, hchunks, hused, hconst, hnext⟩ :
      ∃ f d, Draft.Gives (Frame.reserve ⟨1, 16, 1⟩) (.ofCapacity 400) f d ∧
        f.workSets.length = 1 ∧ 1 < f.chunks ∧ d.used ≤ s.scratch.size ∧
        (∀ l < laneCount, s.lane l f.one = 1 ∧ s.lane l f.two = 2 ∧ s.lane l f.nodeCount = 3) ∧
        ∀ l < laneCount, [1, 0, 0, 2, 1, 1, 1, 1][l]? =
          some (next (s.lane l (f.indexBlock 1)) (s.lane l (f.valueBlock 1)) 3) :=
    Draft.exists_gives (by decide +kernel)
  obtain ⟨w, hw⟩ := List.length_eq_one_iff.mp hlength
  obtain ⟨-, u, hu, hlanes, -⟩ := steps_lanes_to_children (show 400 < 2 ^ 32 by decide) .fresh
    hreserve (show w ∈ f.workSets by simp [hw]) hchunks hused hconst
  refine ⟨f, d, w, u, hreserve, hw, hu, fun l hl => ?_⟩
  rw [(hlanes l hl).1]
  exact hnext l hl

end IndexUpdate

end TreeWalk
