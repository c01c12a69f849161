import TreeWalk.Proofs.LoopOrder

/-!
# Passes in flight

In a step of the round loop the passes of one group are mixed while the node values of the next
group are fetched. All of them are of different chunks and in different work sets, and nodes are
fetched for a pass only when the earlier passes of its chunk belong to groups that are done with.
-/

namespace TreeWalk

theorem Pipeline.choose_size (chunks : Nat) :
    (choose chunks).groupWidth * (1 + (choose chunks).prefetchGroups) < Size.limit := by
  have hm : maxChosenWidth = 3 := rfl
  unfold choose
  split <;> simp only [hm, Size.limit] <;> omega

namespace RoundLoop

def nextPasses (p : Pipeline) (space : Iterations) (step : Nat) : List Nat :=
  if p.prefetches then groupPasses p space (step + 1) else []

/-- The passes that a step works on or fetches for. -/
def inFlight (p : Pipeline) (space : Iterations) (step : Nat) : List Nat :=
  groupPasses p space step ++ nextPasses p space step

/-- The operations of a step. Without prefetch it fetches for its own passes first. -/
def stepWith (f : Frame) (p : Pipeline) (current next : List Member) : List Op :=
  (if p.prefetches then [] else current.flatMap (nodeValueOps f)) ++ stepOps f current next

/-- The passes in flight in a step do not get into each other's way. -/
structure Collisionless (p : Pipeline) (space : Iterations) (step : Nat) : Prop where
  chunks : ((inFlight p space step).map space.chunk).Nodup
  sets : ((inFlight p space step).map (passSet p)).Nodup
  sets_lt : ∀ i ∈ inFlight p space step, passSet p i < p.bufferCount
  /-- The earlier passes of a chunk that is fetched for were worked on before this step. -/
  finished : ∀ j ∈ nextPasses p space step, ∀ i < j, space.chunk i = space.chunk j →
    ∃ earlier < step, i ∈ groupPasses p space earlier

variable {p : Pipeline} {space : Iterations}

/-- The round loop is its steps, each on the passes of its group and of the next one. -/
theorem ops_eq_steps (hwidth : 0 < p.groupWidth) (f : Frame) (space : Iterations) :
    ops f p space =
      (if p.prefetches then
        ((groupPasses p space 0).map (passMember f p space)).flatMap (nodeValueOps f) else []) ++
      (List.range (stepCount p space)).flatMap fun step =>
        stepWith f p ((groupPasses p space step).map (passMember f p space))
          ((nextPasses p space step).map (passMember f p space)) := by
  simp only [ops, stepWith, nextPasses, ← group_eq_map hwidth]
  split
  · simp only [List.nil_append, ← group_eq_map hwidth]
  · simp only [List.nil_append, List.map_nil]

theorem concurrent_inFlight (hwidth : 0 < p.groupWidth) (space : Iterations) (step : Nat) :
    Concurrent p space (inFlight p space step) := by
  unfold inFlight nextPasses
  split
  · rename_i hpre
    exact concurrent_groups hwidth hpre space step
  · rw [List.append_nil]
    exact concurrent_group hwidth space step

theorem mem_groupPasses_div (hwidth : 0 < p.groupWidth) {i : Nat} (hi : i < space.total) :
    i ∈ groupPasses p space (i / p.groupWidth) := by
  have hdiv := Nat.div_add_mod i p.groupWidth
  have hmod := Nat.mod_lt i hwidth
  rw [Nat.mul_comm] at hdiv
  refine List.mem_map.mpr ⟨i % p.groupWidth, List.mem_range.mpr ?_, hdiv⟩
  unfold groupSize
  omega

theorem collisionless (hp : p.Suits space.chunks p.bufferCount) (step : Nat) :
    Collisionless p space step := by
  -- a frame for just these chunks and work sets
  let shape : FrameShape := ⟨space.height, space.chunks * laneCount, p.bufferCount⟩
  have hchunks : space.chunks = shape.chunks := (Nat.mul_div_cancel _ (by decide)).symm
  have hsuits : p.Suits shape.chunks shape.workSets := hchunks ▸ hp
  have hwidth := hp.groupWidth_pos
  have hflight := concurrent_inFlight hwidth space step
  have hapart : (inFlight p space step).Pairwise fun i j =>
      space.chunk i ≠ space.chunk j ∧ passSet p i ≠ passSet p j :=
    hflight.near.imp_of_mem fun _ hj hij => hij.2.apart hsuits hchunks hij.1 (hflight.lt _ hj)
  refine ⟨List.pairwise_map.mpr (hapart.imp And.left),
    List.pairwise_map.mpr (hapart.imp And.right), fun i _ => passSet_lt hsuits i, ?_⟩
  intro j hj i hi hchunk
  unfold nextPasses at hj
  split at hj
  · rename_i hpre
    obtain ⟨hgroup, hlt⟩ := mem_groupPasses hwidth hj
    have hle : i / p.groupWidth ≤ j / p.groupWidth := Nat.div_le_div_right (Nat.le_of_lt hi)
    refine ⟨i / p.groupWidth, ?_, mem_groupPasses_div hwidth (Nat.lt_trans hi hlt)⟩
    -- a pass of the current or the next group would be of another chunk
    by_contra hlate
    have hnear : Near p i j := by
      rcases Nat.eq_or_lt_of_le hle with hsame | hbefore
      · exact .inl hsame.symm
      · exact .inr ⟨hpre, by omega⟩
    exact (hnear.apart hsuits hchunks hi hlt).1 hchunk
  · cases hj

/-- Chunks in flight never collide. Every shape that fits the chunks, and so the chosen one, takes
the passes of all rounds in order, each in one step; in every step the passes worked on and fetched
for are of different chunks and in different work sets, of which there are no more than the shape
asks for, and those fetched for have no earlier pass of their chunk that is still to be done. -/
theorem chunks_never_collide {chunks rounds : Nat} (hrounds : rounds * chunks < Size.limit)
    (height : Nat) :
    let space : Iterations := ⟨chunks, rounds, height⟩
    (∀ p : Pipeline, p.fits chunks = true → p.groupWidth * (1 + p.prefetchGroups) < Size.limit →
      (∀ f, ops f p space =
        (if p.prefetches then
          ((groupPasses p space 0).map (passMember f p space)).flatMap (nodeValueOps f) else []) ++
        (List.range (stepCount p space)).flatMap fun step =>
          stepWith f p ((groupPasses p space step).map (passMember f p space))
            ((nextPasses p space step).map (passMember f p space))) ∧
      (∀ step, Collisionless p space step) ∧
      (List.range (stepCount p space)).flatMap (groupPasses p space) =
        List.range (rounds * chunks)) ∧
    (Pipeline.choose chunks).fits chunks = true ∧
      (Pipeline.choose chunks).groupWidth * (1 + (Pipeline.choose chunks).prefetchGroups) <
        Size.limit := by
  intro space
  refine ⟨fun p hfits hsize => ?_, Pipeline.choose_fits chunks, Pipeline.choose_size chunks⟩
  have hp : p.Suits space.chunks p.bufferCount := ⟨hfits, hsize, Nat.le_refl _⟩
  have htotal : space.total = rounds * chunks := Size.wrap_of_lt hrounds
  refine ⟨fun f => ops_eq_steps hp.groupWidth_pos f space, collisionless hp, ?_⟩
  rw [flatMap_groupPasses hp.groupWidth_pos, htotal]

/-- Three chunks at a time out of seven, fetched one group ahead, through two rounds: in the second
step a group of both rounds is fetched for, and the last group is a partial one. -/
theorem chunks_never_collide_seven :
    let space : Iterations := ⟨7, 2, 10⟩
    let p : Pipeline := ⟨3, 1⟩
    2 * 7 < Size.limit ∧ p.fits 7 = true ∧ p.groupWidth * (1 + p.prefetchGroups) < Size.limit ∧
      (inFlight p space 1).map space.chunk = [3, 4, 5, 6, 0, 1] ∧
      (inFlight p space 1).map (passSet p) = [3, 4, 5, 0, 1, 2] ∧
      groupPasses p space 4 = [12, 13] ∧ (∀ step, Collisionless p space step) ∧
      (List.range (stepCount p space)).flatMap (groupPasses p space) = List.range 14 := by
  intro space p
  have hrounds : 2 * 7 < Size.limit := by decide
  have hfits : p.fits 7 = true := by decide
  have hsize : p.groupWidth * (1 + p.prefetchGroups) < Size.limit := by decide
  obtain ⟨-, hcollisionless, hall⟩ := (chunks_never_collide hrounds 10).1 p hfits hsize
  exact ⟨hrounds, hfits, hsize, by decide, by decide, by decide, hcollisionless, hall⟩

end RoundLoop

end TreeWalk
