import TreeWalk.Proofs.StepOrder

/-!
# The round loop pass by pass

Whatever its shape, the round loop is all passes in their order, one after the other, except that
operations of passes in flight at the same time may change places. Such passes are of different
chunks and in different work sets, so the loop runs the same as the passes in order: the shape only
chooses the work set of each pass.
-/

namespace TreeWalk

namespace Pipeline

/-- The shape can run over `chunks` chunks in `sets` work sets, and its buffer count is a size. -/
structure Suits (p : Pipeline) (chunks sets : Nat) : Prop where
  fits : p.fits chunks = true
  size : p.groupWidth * (1 + p.prefetchGroups) < Size.limit
  sets : p.bufferCount ≤ sets

namespace Suits

variable {p : Pipeline} {chunks sets : Nat}

theorem bufferCount_eq (h : p.Suits chunks sets) :
    p.bufferCount = p.groupWidth * (1 + p.prefetchGroups) := Size.wrap_of_lt h.size

theorem groupWidth_pos (h : p.Suits chunks sets) : 0 < p.groupWidth := by
  have hfits := h.fits
  simp only [Pipeline.fits, Bool.and_eq_true, decide_eq_true_eq] at hfits
  exact Nat.pos_of_ne_zero hfits.1.1

theorem bufferCount_le (h : p.Suits chunks sets) (hchunks : 0 < chunks) :
    p.bufferCount ≤ chunks := by
  have hfits := h.fits
  simp only [Pipeline.fits, Bool.and_eq_true, Bool.or_eq_true, decide_eq_true_eq] at hfits
  rcases hfits.2 with hzero | hle
  · omega
  · exact hle

theorem bufferCount_cases (h : p.Suits chunks sets) :
    (p.prefetches = true ∧ p.bufferCount = 2 * p.groupWidth) ∨
      (p.prefetches = false ∧ p.bufferCount = p.groupWidth) := by
  have hfits := h.fits
  simp only [Pipeline.fits, Bool.and_eq_true, decide_eq_true_eq] at hfits
  rw [h.bufferCount_eq]
  unfold prefetches
  by_cases hzero : p.prefetchGroups = 0
  · simp [hzero]
  · have hone : p.prefetchGroups = 1 := by omega
    simp [hone, Nat.mul_comm]

end Suits

end Pipeline

namespace RoundLoop

def passSet (p : Pipeline) (i : Nat) : Nat :=
  firstSet p (i / p.groupWidth) + i % p.groupWidth

def passMember (f : Frame) (p : Pipeline) (space : Iterations) (i : Nat) : Member :=
  ⟨f.workSet (passSet p i), space.chunk i, space.depth i⟩

def groupPasses (p : Pipeline) (space : Iterations) (step : Nat) : List Nat :=
  (List.range (groupSize p space (step * p.groupWidth))).map (step * p.groupWidth + ·)

/-- The passes may be in flight at the same time: they are of one group or of successive ones. -/
def Near (p : Pipeline) (i j : Nat) : Prop :=
  j / p.groupWidth = i / p.groupWidth ∨
    (p.prefetches = true ∧ j / p.groupWidth = i / p.groupWidth + 1)

section Passes

variable {f : Frame} {shape : FrameShape} {used : Nat} {p : Pipeline} {space : Iterations}

theorem group_eq_map (hwidth : 0 < p.groupWidth) (f : Frame) (space : Iterations) (step : Nat) :
    group f p space step = (groupPasses p space step).map (passMember f p space) := by
  simp only [group, members, groupPasses, List.map_map]
  refine List.map_congr_left fun j hj => ?_
  have hlt : j < p.groupWidth :=
    Nat.lt_of_lt_of_le (List.mem_range.mp hj) (Nat.min_le_left _ _)
  have hdiv : (step * p.groupWidth + j) / p.groupWidth = step := by
    rw [Nat.mul_comm, Nat.mul_add_div hwidth, Nat.div_eq_of_lt hlt, Nat.add_zero]
  have hmod : (step * p.groupWidth + j) % p.groupWidth = j := by
    rw [Nat.mul_comm, Nat.mul_add_mod, Nat.mod_eq_of_lt hlt]
  simp only [Function.comp_apply, passMember, passSet, hdiv, hmod]

theorem mem_groupPasses (hwidth : 0 < p.groupWidth) {step i : Nat}
    (h : i ∈ groupPasses p space step) : i / p.groupWidth = step ∧ i < space.total := by
  obtain ⟨j, hj, rfl⟩ := List.mem_map.mp h
  have hj := List.mem_range.mp hj
  have hlt : j < p.groupWidth := Nat.lt_of_lt_of_le hj (Nat.min_le_left _ _)
  have htotal : j < space.total - step * p.groupWidth :=
    Nat.lt_of_lt_of_le hj (Nat.min_le_right _ _)
  refine ⟨?_, by omega⟩
  rw [Nat.mul_comm, Nat.mul_add_div hwidth, Nat.div_eq_of_lt hlt, Nat.add_zero]

theorem pairwise_groupPasses (p : Pipeline) (space : Iterations) (step : Nat) :
    (groupPasses p space step).Pairwise (· < ·) :=
  List.pairwise_map.mpr (List.pairwise_lt_range.imp fun h => by omega)

theorem flatMap_groupPasses (hwidth : 0 < p.groupWidth) (space : Iterations) :
    (List.range (stepCount p space)).flatMap (groupPasses p space) = List.range space.total := by
  have hsteps (n : Nat) : (List.range n).flatMap (groupPasses p space) =
      List.range (min (n * p.groupWidth) space.total) := by
    induction n with
    | zero => simp
    | succ n ih =>
      rw [List.range_succ, List.flatMap_append, ih, List.flatMap_singleton, groupPasses, groupSize]
      by_cases hle : n * p.groupWidth ≤ space.total
      · rw [Nat.min_eq_left hle, ← List.range_add]
        congr 1
        rw [Nat.succ_mul]
        omega
      · have hzero : space.total - n * p.groupWidth = 0 := by omega
        rw [hzero, Nat.min_zero, Nat.succ_mul, Nat.min_eq_right (by omega),
          Nat.min_eq_right (by omega)]
        simp
  rw [hsteps]
  congr 1
  refine Nat.min_eq_right ?_
  have hceil := Nat.lt_mul_div_succ (space.total + p.groupWidth - 1) hwidth
  rw [Nat.mul_add, Nat.mul_comm p.groupWidth] at hceil
  unfold stepCount
  omega

theorem groupPasses_stepCount (hwidth : 0 < p.groupWidth) (space : Iterations) :
    groupPasses p space (stepCount p space) = [] := by
  have hceil := Nat.lt_mul_div_succ (space.total + p.groupWidth - 1) hwidth
  rw [Nat.mul_add, Nat.mul_comm p.groupWidth] at hceil
  have hzero : space.total - stepCount p space * p.groupWidth = 0 := by
    unfold stepCount
    omega
  simp [groupPasses, groupSize, hzero]

variable (hf : f.Layout shape used) (hp : p.Suits shape.chunks shape.workSets)
  (hchunks : space.chunks = shape.chunks)

include hchunks in
theorem chunks_pos {i : Nat} (hi : i < space.total) : 0 < shape.chunks := by
  rcases Nat.eq_zero_or_pos shape.chunks with hzero | hpos
  · simp [Iterations.total, hchunks, hzero, Size.wrap] at hi
  · exact hpos

include hp in
theorem passSet_lt (i : Nat) : passSet p i < shape.workSets := by
  have hmod : i % p.groupWidth < p.groupWidth := Nat.mod_lt _ hp.groupWidth_pos
  refine Nat.lt_of_lt_of_le ?_ hp.sets
  unfold passSet firstSet
  rcases hp.bufferCount_cases with ⟨hpre, hcount⟩ | ⟨hpre, hcount⟩
  · rw [hcount, if_pos hpre]
    have hparity : i / p.groupWidth % 2 * p.groupWidth ≤ 1 * p.groupWidth :=
      Nat.mul_le_mul_right _ (Nat.le_of_lt_succ (Nat.mod_lt _ (by decide)))
    omega
  · rw [hcount, if_neg (by simp [hpre])]
    omega

include hp hchunks in
theorem inFrame_passMember {i : Nat} (hi : i < space.total) :
    (passMember f p space i).InFrame f shape (passSet p i) := by
  refine ⟨?_, passSet_lt hp i, rfl⟩
  have hpos := chunks_pos hchunks hi
  simp only [passMember, Iterations.chunk, hchunks]
  exact Nat.mod_lt _ hpos

include hp hchunks in
theorem Near.apart {i j : Nat} (h : Near p i j) (hi : i < j) (hj : j < space.total) :
    space.chunk i ≠ space.chunk j ∧ passSet p i ≠ passSet p j := by
  have hwidth := hp.groupWidth_pos
  have hle := hp.bufferCount_le (chunks_pos hchunks hj)
  have hdivi := Nat.div_add_mod i p.groupWidth
  have hdivj := Nat.div_add_mod j p.groupWidth
  have hmodi := Nat.mod_lt i hwidth
  have hmodj := Nat.mod_lt j hwidth
  -- fewer passes than chunks lie between
  have hdistance : j - i < shape.chunks ∧ passSet p i ≠ passSet p j := by
    unfold passSet firstSet
    rcases h with hsame | ⟨hpre, hnext⟩
    · rw [hsame] at hdivj ⊢
      have hcount : p.groupWidth ≤ p.bufferCount := by
        rcases hp.bufferCount_cases with ⟨-, h⟩ | ⟨-, h⟩ <;> omega
      exact ⟨by omega, by omega⟩
    · have hcount : p.bufferCount = 2 * p.groupWidth := by
        rcases hp.bufferCount_cases with ⟨-, h⟩ | ⟨h, -⟩
        · exact h
        · simp [hpre] at h
      rw [hnext] at hdivj ⊢
      rw [Nat.mul_add] at hdivj
      rw [if_pos hpre, if_pos hpre]
      refine ⟨by omega, ?_⟩
      rcases Nat.mod_two_eq_zero_or_one (i / p.groupWidth) with hpar | hpar
      · rw [hpar, show (i / p.groupWidth + 1) % 2 = 1 by omega]
        omega
      · rw [hpar, show (i / p.groupWidth + 1) % 2 = 0 by omega]
        omega
  refine ⟨fun hsame => ?_, hdistance.2⟩
  simp only [Iterations.chunk, hchunks] at hsame
  have hzero := Nat.sub_mod_eq_zero_of_mod_eq hsame.symm
  rw [Nat.mod_eq_of_lt hdistance.1] at hzero
  omega

include hf hp hchunks in
/-- Passes that may be in flight at the same time keep apart. -/
theorem keepsApart_passMember {i j : Nat} (h : Near p i j) (hi : i < j) (hj : j < space.total) :
    (passMember f p space i).KeepsApart f (passMember f p space j) := by
  obtain ⟨hchunk, hset⟩ := h.apart hp hchunks hi hj
  exact Member.keepsApart hf (inFrame_passMember hp hchunks (Nat.lt_trans hi hj))
    (inFrame_passMember hp hchunks hj) hset hchunk

/-- The numbers of passes that may all be in flight at the same time, in ascending order. -/
structure Concurrent (p : Pipeline) (space : Iterations) (passes : List Nat) : Prop where
  lt : ∀ i ∈ passes, i < space.total
  near : passes.Pairwise fun i j => i < j ∧ Near p i j

theorem concurrent_group (hwidth : 0 < p.groupWidth) (space : Iterations) (k : Nat) :
    Concurrent p space (groupPasses p space k) := by
  refine ⟨fun i hi => (mem_groupPasses hwidth hi).2, ?_⟩
  refine (pairwise_groupPasses p space k).imp_of_mem fun {i j} hi hj hij => ⟨hij, .inl ?_⟩
  rw [(mem_groupPasses hwidth hi).1, (mem_groupPasses hwidth hj).1]

theorem concurrent_groups (hwidth : 0 < p.groupWidth) (hpre : p.prefetches = true)
    (space : Iterations) (k : Nat) :
    Concurrent p space (groupPasses p space k ++ groupPasses p space (k + 1)) := by
  have hfirst := concurrent_group hwidth space k
  have hsecond := concurrent_group hwidth space (k + 1)
  refine ⟨fun i hi => ?_, List.pairwise_append.mpr ⟨hfirst.near, hsecond.near, ?_⟩⟩
  · exact (List.mem_append.mp hi).elim (hfirst.lt i) (hsecond.lt i)
  · intro i hi j hj
    have hdivi := (mem_groupPasses hwidth hi).1
    have hdivj := (mem_groupPasses hwidth hj).1
    refine ⟨?_, .inr ⟨hpre, by omega⟩⟩
    by_contra hle
    have := Nat.div_le_div_right (c := p.groupWidth) (Nat.le_of_not_lt hle)
    omega

theorem Concurrent.pairwise_members {P : Member → Member → Prop} {passes : List Nat}
    (h : Concurrent p space passes) (hP : ∀ i j, i < j → j < space.total → Near p i j →
      P (passMember f p space i) (passMember f p space j)) :
    (passes.map (passMember f p space)).Pairwise P := by
  rw [List.pairwise_map]
  exact h.near.imp_of_mem fun {i j} _ hj hij => hP i j hij.1 (h.lt j hj) hij.2

theorem group_stepCount (hwidth : 0 < p.groupWidth) (f : Frame) (space : Iterations) :
    group f p space (stepCount p space) = [] := by
  rw [group_eq_map hwidth, groupPasses_stepCount hwidth]
  rfl

/-- The steps of a prefetching loop, regrouped by the group that they are about. -/
theorem flatMap_shift {α : Type} {g w : Nat → List α} (n : Nat) :
    (g 0 ++ (List.range n).flatMap fun k => w k ++ g (k + 1)) =
      ((List.range n).flatMap fun k => g k ++ w k) ++ g n := by
  induction n with
  | zero => simp
  | succ n ih =>
    simp only [List.range_succ, List.flatMap_append, List.flatMap_singleton, ← List.append_assoc]
    rw [ih]

theorem flatMap_group {α : Type} (hwidth : 0 < p.groupWidth) (f : Frame) (space : Iterations)
    (g : Member → List α) :
    ((List.range (stepCount p space)).flatMap fun k => (group f p space k).flatMap g) =
      (List.range space.total).flatMap fun i => g (passMember f p space i) := by
  rw [← flatMap_groupPasses hwidth space, List.flatMap_assoc]
  exact List.flatMap_congr fun k _ => by rw [group_eq_map hwidth, List.flatMap_map]

include hf in
/-- The round loop is its passes one after the other, where operations of later passes may wait for
those of earlier ones that are in flight at the same time. -/
theorem relates_ops {R : List Op → List Op → Prop} (hR : Composes R) (hwidth : 0 < p.groupWidth)
    (h : ∀ i j, i < j → j < space.total → Near p i j →
      (passMember f p space i).Yields R f (passMember f p space j)) :
    R (ops f p space)
      ((List.range space.total).flatMap fun i => passOps f (passMember f p space i)) := by
  have hgroup (k : Nat) : (group f p space k).Pairwise (Member.Yields R f) := by
    rw [group_eq_map hwidth]
    exact (concurrent_group hwidth space k).pairwise_members h
  have hpasses : R
      ((List.range (stepCount p space)).flatMap fun k =>
        (group f p space k).flatMap (nodeValueOps f) ++ (group f p space k).flatMap (workOps f))
      ((List.range space.total).flatMap fun i => passOps f (passMember f p space i)) := by
    rw [← flatMap_group hwidth f space (passOps f)]
    refine hR.flatMap fun k _ => hR.merge ((hgroup k).imp ?_)
    intro m n hmn x hx y hy
    exact hmn x (List.mem_append_right _ hx) y (List.mem_append_left _ hy)
  unfold ops
  split
  · rename_i hpre
    have hstep (k : Nat) : R (stepOps f (group f p space k) (group f p space (k + 1)))
        ((group f p space k).flatMap (workOps f) ++
          (group f p space (k + 1)).flatMap (nodeValueOps f)) := by
      apply relates_stepOps hR hf
      rw [group_eq_map hwidth, group_eq_map hwidth, ← List.map_append]
      exact (concurrent_groups hwidth hpre space k).pairwise_members h
    have hshift := flatMap_shift (g := fun k => (group f p space k).flatMap (nodeValueOps f))
      (w := fun k => (group f p space k).flatMap (workOps f)) (stepCount p space)
    rw [group_stepCount hwidth, List.flatMap_nil, List.append_nil] at hshift
    refine hR.trans (hR.append_left _ (hR.flatMap fun k _ => hstep k)) ?_
    exact hR.trans (hR.of_eq hshift) hpasses
  · refine hR.trans (hR.flatMap fun k _ => ?_) hpasses
    have hone := hgroup k
    rw [← List.append_nil (group f p space k)] at hone
    have hstep := relates_stepOps hR hf hone
    rw [List.flatMap_nil, List.append_nil] at hstep
    exact hR.append_left _ hstep

include hf in
theorem perm_ops (hwidth : 0 < p.groupWidth) (space : Iterations) :
    (ops f p space).Perm
      ((List.range space.total).flatMap fun i => passOps f (passMember f p space i)) :=
  relates_ops hf .perm hwidth fun _ _ _ _ _ => Member.yields_perm f _ _

include hf hp hchunks in
/-- The round loop runs the same as its passes one after the other. -/
theorem sameRun_ops :
    SameRun (ops f p space)
      (((List.range space.total).map (passMember f p space)).flatMap (passOps f)) := by
  rw [List.flatMap_map]
  apply relates_ops hf .sameRun hp.groupWidth_pos
  intro i j hi hj hnear x hx y hy
  have hm := inFrame_passMember (f := f) hp hchunks (Nat.lt_trans hi hj)
  have hn := inFrame_passMember (f := f) hp hchunks hj
  have hapart := keepsApart_passMember hf hp hchunks hnear hi hj
  exact (Member.Runs.commutes hf hm hn hapart (runs_passOps hf hm) (runs_passOps hf hn) x hx y
    hy).symm

end Passes

end RoundLoop

end TreeWalk
