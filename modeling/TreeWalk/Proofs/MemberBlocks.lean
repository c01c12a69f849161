import TreeWalk.Kernel.RoundLoop
import TreeWalk.Proofs.FrameLayout
import TreeWalk.Proofs.Lanes

/-!
# Blocks of a pass

A pass in flight changes the blocks of its work set and of its chunk, and reads constants and top
nodes. Its own blocks overlap neither each other nor what it only reads.
-/

namespace TreeWalk

def Mix.Lowered.constants : Mix.Lowered → List Addr
  | .fused multiplier addend => [multiplier, addend]
  | .split _ leftValue _ _ rightValue => [leftValue, rightValue]

def TopNodes.blocks (t : TopNodes) : List Addr :=
  (match t.level1 with
    | some (n1, n2) => [n1, n2]
    | none => []) ++
  (match t.level2 with
    | some (n0, n1, n2, n3) => [n0, n1, n2, n3]
    | none => [])

theorem TopNodes.countFor_eq (depth : Nat) : countFor depth = 2 ^ (depth + 1) - 1 := by
  rw [countFor, Nat.one_shiftLeft]

theorem TopNodes.count_pos (t : TopNodes) : 0 < t.count := by
  rw [count, countFor_eq]
  exact Nat.sub_pos_of_lt (Nat.one_lt_two_pow (Nat.succ_ne_zero _))

theorem Mix.Lowered.Carries.of_mem_constants {P : Word → Addr → Prop} {form : Mix.Form}
    {low : Mix.Lowered} (h : low.Carries P form) {a : Addr} (ha : a ∈ low.constants) :
    ∃ v, P v a := by
  cases form <;> cases low <;> simp only [Mix.Lowered.Carries] at h
  · rcases List.mem_pair.mp ha with rfl | rfl
    · exact ⟨_, h.1⟩
    · exact ⟨_, h.2⟩
  · obtain ⟨-, -, -, hl, hr⟩ := h
    rcases List.mem_pair.mp ha with rfl | rfl
    · exact ⟨_, hl⟩
    · exact ⟨_, hr⟩

theorem Mix.Lowered.constants_of_carries {P : Word → Addr → Prop} {forms : List Mix.Form}
    {lowered : List Mix.Lowered} (h : List.Forall₂ (Mix.Lowered.Carries P) forms lowered) :
    ∀ a ∈ lowered.flatMap Mix.Lowered.constants, ∃ v, P v a := by
  induction h with
  | nil => simp
  | cons hlow _ ih =>
    intro a ha
    rw [List.flatMap_cons, List.mem_append] at ha
    rcases ha with ha | ha
    · exact hlow.of_mem_constants ha
    · exact ih a ha

namespace Frame

def constantBlocks (f : Frame) : List Addr :=
  [f.one, f.two, f.three, f.nodeCount] ++ f.stages.flatMap Mix.Lowered.constants

/-- The blocks that passes read and never change. -/
def sharedBlocks (f : Frame) : List Addr := f.constantBlocks ++ f.top.blocks

end Frame

namespace RoundLoop

def Member.ownBlocks (f : Frame) (m : Member) : List Addr :=
  [m.workSet.nodes, m.workSet.left, m.workSet.right, m.workSet.spare, f.indexBlock m.chunk,
    f.valueBlock m.chunk]

end RoundLoop

namespace Frame.Layout

variable {f : Frame} {shape : FrameShape} {used : Nat}

theorem constantBlocks (h : f.Layout shape used) :
    ∀ a ∈ f.constantBlocks, a.toNat + laneCount ≤ f.indices.toNat := by
  intro a ha
  rcases List.mem_append.mp ha with ha | ha
  · simp only [List.mem_cons, List.not_mem_nil, or_false] at ha
    rcases ha with rfl | rfl | rfl | rfl
    · exact h.one
    · exact h.two
    · exact h.three
    · exact h.nodeCount
  · obtain ⟨_, hle⟩ := Mix.Lowered.constants_of_carries h.stages a ha
    exact hle

theorem topBlocks (h : f.Layout shape used) :
    ∀ a ∈ f.top.blocks, f.top.addrs.toNat + f.top.count ≤ a.toNat ∧
      a.toNat + laneCount ≤ f.transferAddrs.toNat := by
  obtain ⟨-, -, haddrs, hlevel1, hlevel2, hstop⟩ := h.top
  intro a ha
  rcases List.mem_append.mp ha with ha | ha
  · cases hl : f.top.level1 with
    | none => simp [hl] at ha
    | some blocks =>
      obtain ⟨n1, n2⟩ := blocks
      simp only [hl] at hlevel1 ha
      obtain ⟨hdepth, hn1, hn2⟩ := hlevel1
      rw [if_pos hdepth] at hstop
      rcases List.mem_pair.mp ha with rfl | rfl <;> exact ⟨by omega, by omega⟩
  · cases hl : f.top.level2 with
    | none => simp [hl] at ha
    | some blocks =>
      obtain ⟨n0, n1, n2, n3⟩ := blocks
      simp only [hl] at hlevel2 ha
      obtain ⟨hdepth, hn0, hn1, hn2, hn3⟩ := hlevel2
      rw [if_pos (by omega), if_pos hdepth] at hstop
      simp only [List.mem_cons, List.not_mem_nil, or_false] at ha
      rcases ha with rfl | rfl | rfl | rfl <;> exact ⟨by omega, by omega⟩

theorem indices_le (h : f.Layout shape used) :
    f.indices.toNat + 2 * shape.batch + shape.workSets * WorkSet.length + 2 * f.top.count ≤
        f.transferAddrs.toNat ∧
      f.transferAddrs.toNat ≤ used := by
  have htop := h.top.stop
  have hstop := h.stop
  omega

theorem toNat_indexBlock (h : f.Layout shape used) {chunk : Nat} (hc : chunk < shape.chunks) :
    (f.indexBlock chunk).toNat = f.indices.toNat + chunk * laneCount ∧
      chunk * laneCount + laneCount ≤ shape.batch := by
  obtain ⟨hle, hle'⟩ := h.indices_le
  have hlt := h.stop_lt
  have hbatch : chunk * laneCount + laneCount ≤ shape.batch := by
    simp only [FrameShape.chunks, laneCount] at hc ⊢
    omega
  exact ⟨Addr.toNat_offset (by omega), hbatch⟩

theorem toNat_valueBlock (h : f.Layout shape used) {chunk : Nat} (hc : chunk < shape.chunks) :
    (f.valueBlock chunk).toNat = f.indices.toNat + shape.batch + chunk * laneCount := by
  obtain ⟨hle, hle'⟩ := h.indices_le
  have hlt := h.stop_lt
  have hvalues := h.values
  have hbatch := (h.toNat_indexBlock hc).2
  rw [Frame.valueBlock, Addr.toNat_offset (by omega), hvalues]

/-- The levels kept in registers: a root, and the blocks of the two levels below it. -/
theorem covered_cases (h : f.Layout shape used) {depth : Nat} (hdepth : depth ≤ f.top.depth) :
    depth = 0 ∨ (depth = 1 ∧ ∃ blocks, f.top.level1 = some blocks) ∨
      (depth = 2 ∧ ∃ blocks, f.top.level2 = some blocks) := by
  obtain ⟨htop, -, -, hlevel1, hlevel2, -⟩ := h.top
  have hle : f.top.depth ≤ 2 := htop ▸ Nat.min_le_right _ _
  have hcases : depth = 0 ∨ depth = 1 ∨ depth = 2 := by omega
  rcases hcases with hzero | hone | htwo
  · exact .inl hzero
  · refine .inr (.inl ⟨hone, ?_⟩)
    cases hl : f.top.level1 with
    | none =>
      simp only [hl] at hlevel1
      omega
    | some blocks => exact ⟨blocks, rfl⟩
  · refine .inr (.inr ⟨htwo, ?_⟩)
    cases hl : f.top.level2 with
    | none =>
      simp only [hl] at hlevel2
      omega
    | some blocks => exact ⟨blocks, rfl⟩

theorem workSet_end_le {i : Nat} (hi : i < shape.workSets) :
    i * WorkSet.length + WorkSet.length ≤ shape.workSets * WorkSet.length := by
  rw [← Nat.succ_mul]
  exact Nat.mul_le_mul_right _ hi

theorem workSet_at (h : f.Layout shape used) {i : Nat} (hi : i < shape.workSets) :
    (f.workSet i).At (f.indices.toNat + 2 * shape.batch + i * WorkSet.length) := by
  have hlt : i < f.workSets.length := h.workSets_length ▸ hi
  have hget : f.workSets[i]? = some (f.workSet i) := by
    simp [Frame.workSet, hlt]
  exact h.workSets i _ hget

end Frame.Layout

namespace RoundLoop

/-- The pass works on a chunk of the batch, in the work set with number `set`. -/
structure Member.InFrame (f : Frame) (shape : FrameShape) (set : Nat) (m : Member) : Prop where
  chunk_lt : m.chunk < shape.chunks
  set_lt : set < shape.workSets
  workSet : m.workSet = f.workSet set

/-- The scratch words that a pass may change. -/
def Member.Own (f : Frame) (m : Member) (i : Nat) : Prop :=
  (m.workSet.nodes.toNat ≤ i ∧ i < m.workSet.nodes.toNat + WorkSet.length) ∨
    ((f.indexBlock m.chunk).toNat ≤ i ∧ i < (f.indexBlock m.chunk).toNat + laneCount) ∨
    ((f.valueBlock m.chunk).toNat ≤ i ∧ i < (f.valueBlock m.chunk).toNat + laneCount)

section Blocks

variable {f : Frame} {shape : FrameShape} {used set : Nat} {m : Member}

theorem Member.workSet_at (hf : f.Layout shape used) (hm : m.InFrame f shape set) :
    m.workSet.At (f.indices.toNat + 2 * shape.batch + set * WorkSet.length) ∧
      set * WorkSet.length + WorkSet.length ≤ shape.workSets * WorkSet.length :=
  ⟨hm.workSet ▸ hf.workSet_at hm.set_lt, Frame.Layout.workSet_end_le hm.set_lt⟩

theorem Member.laneBlocks (hf : f.Layout shape used) (hm : m.InFrame f shape set) :
    LaneBlocks (m.ownBlocks f) f.sharedBlocks := by
  obtain ⟨hindex, hbatch⟩ := hf.toNat_indexBlock hm.chunk_lt
  have hvalue := hf.toNat_valueBlock hm.chunk_lt
  obtain ⟨⟨hnodes, hleft, hright, -, hspare⟩, hset⟩ := Member.workSet_at hf hm
  have hlength : WorkSet.length = 5 * laneCount := rfl
  obtain ⟨hle, -⟩ := hf.indices_le
  have hscalars := hf.top.scalars
  have haddrs := hf.top.addrs
  refine ⟨?_, ?_⟩
  · simp only [Member.ownBlocks, List.pairwise_cons, List.mem_cons, List.not_mem_nil, or_false,
      forall_eq_or_imp, forall_eq, Addr.BlocksApart, List.Pairwise.nil, and_true,
      IsEmpty.forall_iff, implies_true]
    refine ⟨⟨?_, ?_, ?_, ?_, ?_⟩, ⟨?_, ?_, ?_, ?_⟩, ⟨?_, ?_, ?_⟩, ⟨?_, ?_⟩, ?_⟩ <;> omega
  · have hown : ∀ d ∈ m.ownBlocks f, f.indices.toNat ≤ d.toNat ∧
        d.toNat + laneCount ≤ f.top.scalars.toNat := by
      intro d hd
      simp only [Member.ownBlocks, List.mem_cons, List.not_mem_nil, or_false] at hd
      rcases hd with rfl | rfl | rfl | rfl | rfl | rfl <;> exact ⟨by omega, by omega⟩
    intro d hd a ha
    obtain ⟨hlow, hhigh⟩ := hown d hd
    rcases List.mem_append.mp ha with ha | ha
    · have := hf.constantBlocks a ha
      exact Or.inr (by omega)
    · have := (hf.topBlocks a ha).1
      exact Or.inl (by omega)

end Blocks

end RoundLoop

end TreeWalk
