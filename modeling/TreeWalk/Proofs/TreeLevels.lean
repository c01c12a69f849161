import TreeWalk.Kernel.Pipeline
import TreeWalk.Proofs.EncodedWalk

/-!
# Levels of the tree

A step leads from an inner node to one of its children and from a leaf to the root, as long as the
numbers of the children fit a word; the leaves with the largest numbers of the tallest tree have
children whose numbers do not. A batch that starts at the root goes down level by level, all lanes
together, so the level of a pass is known before the batch is.
-/

namespace TreeWalk

namespace Walk

/-- A step from any node of a complete tree stays inside the tree. It leads from an inner node to
the child that the new value chooses. From a leaf it leads to the root exactly when the leaf's
number leaves room for twice the number in a word. -/
theorem step_in_complete_tree {height nodeCount : Nat}
    (hcount : Tree.nodeCount? height = some nodeCount) {index : Word}
    (hindex : index.toNat < nodeCount) (node value : Word) :
    let next := step node index value nodeCount
    next.1.toNat < nodeCount ∧
      (2 * index.toNat + 2 < nodeCount →
        next.1.toNat = if next.2 % 2 = 0 then 2 * index.toNat + 1 else 2 * index.toNat + 2) ∧
      (nodeCount ≤ 2 * index.toNat + 1 → (next.1 = 0 ↔ index.toNat < 2 ^ 31)) := by
  intro next
  obtain ⟨hnodes, hmax⟩ := Tree.nodeCount?_eq_some_iff.mp hcount
  have hmax : nodeCount < 2 ^ 32 := Nat.lt_of_le_of_lt hmax (by decide)
  have hstep : next.1.toNat =
      if nodeCount ≤ (2 * index.toNat + side next.2) % 2 ^ 32 then 0
      else (2 * index.toNat + side next.2) % 2 ^ 32 := toNat_step node index value nodeCount
  have hside := side_cases next.2
  refine ⟨step_lt node index value (Nat.zero_lt_of_lt hindex), fun hinner => ?_, fun hleaf => ?_⟩
  · rw [Nat.mod_eq_of_lt (by omega), if_neg (by omega)] at hstep
    rw [hstep, side]
    split <;> rfl
  · have hzero : next.1 = 0 ↔ next.1.toNat = 0 := by rw [← UInt32.toNat_inj]; rfl
    rw [hzero]
    by_cases hlow : index.toNat < 2 ^ 31
    · -- the child's number is too large for the tree, or it is zero modulo `2 ^ 32`
      simp only [hlow, iff_true]
      split at hstep <;> omega
    · -- such a leaf is in the tallest tree, and its child's number wraps to an inner node's
      have htall : 2 ^ 31 < 2 ^ (height + 1) := by omega
      have hheight : 31 < height + 1 := (Nat.pow_lt_pow_iff_right (by decide)).mp htall
      have hfull : 2 ^ 32 ≤ 2 ^ (height + 1) := Nat.pow_le_pow_right (by decide) hheight
      simp only [hlow, iff_false]
      rw [if_neg (by omega)] at hstep
      omega

/-- In the tallest tree: an inner node leads to its right child, and the last leaf whose number
leaves room for twice the number leads to the root. -/
theorem step_in_complete_tree_tallest :
    Tree.nodeCount? 31 = some 4294967295 ∧
      (step 0 1073741824 0 4294967295).1.toNat = 2147483650 ∧
      (step 0 2147483647 0 4294967295).1 = 0 := by
  have hcount : Tree.nodeCount? 31 = some 4294967295 := by decide
  obtain ⟨-, hinner, -⟩ := step_in_complete_tree hcount
    (show (1073741824 : Word).toNat < 4294967295 by decide) 0 0
  obtain ⟨-, -, hleaf⟩ := step_in_complete_tree hcount
    (show (2147483647 : Word).toNat < 4294967295 by decide) 0 0
  have hodd : (step 0 1073741824 0 4294967295).2 % 2 ≠ 0 := by decide +kernel
  refine ⟨hcount, ?_, (hleaf (by decide)).mpr (by decide)⟩
  rw [hinner (by decide), if_neg hodd]
  rfl

/-- The leaf with number `2 ^ 31` in the tallest tree leads to an inner node and not to the
root. -/
theorem leaf_steps_to_inner_node :
    Tree.nodeCount? 31 = some 4294967295 ∧ (2147483648 : Word).toNat < 4294967295 ∧
      4294967295 ≤ 2 * (2147483648 : Word).toNat + 1 ∧
      (step 0 2147483648 0 4294967295).1 = 2 := by
  refine ⟨by decide, by decide, by decide, ?_⟩
  decide +kernel

def LanesOn (depth : Nat) (indices values : List Word) : Prop :=
  ∀ lane ∈ indices.zip values, Image.OnLevel depth lane.1

variable {t : Tree} {indices values : List Word}

theorem round_lanesOn (hcomplete : t.size = 2 ^ (t.height + 1) - 1) (hheight : t.height + 1 < 32)
    {depth : Nat} (hdepth : depth ≤ t.height) (h : LanesOn depth indices values) :
    ∃ indices' values', round t indices values = some (indices', values') ∧
      indices'.length = indices.length ∧ values'.length = values.length ∧
      LanesOn ((depth + 1) % (t.height + 1)) indices' values' := by
  induction indices generalizing values with
  | nil => exact ⟨[], values, rfl, rfl, rfl, by simp [LanesOn]⟩
  | cons index indices ih =>
    cases values with
    | nil => exact ⟨index :: indices, [], rfl, rfl, rfl, by simp [LanesOn]⟩
    | cons value values =>
      have hlane : Image.OnLevel depth index := h (index, value) List.mem_cons_self
      obtain ⟨indices', values', hround, hindices, hvalues, hnext⟩ :=
        ih fun lane hmem => h lane (List.mem_cons_of_mem _ hmem)
      have hinside : index.toNat < t.size := by
        have hmono : 2 ^ (depth + 1) ≤ 2 ^ (t.height + 1) :=
          Nat.pow_le_pow_right (by decide) (by omega)
        have hhigh := hlane.2
        omega
      have hnode := Array.getElem?_eq_getElem hinside
      refine ⟨_, _, round_cons_eq_some_iff.mpr ⟨_, _, hnode, hround, rfl, rfl⟩, by simp [hindices],
        by simp [hvalues], List.forall_mem_cons.mpr ⟨?_, hnext⟩⟩
      rw [hcomplete]
      exact hlane.step hdepth hheight _ value

/-- After some rounds all lanes stand on the level that the number of rounds says. -/
theorem rounds_lanesOn (hcomplete : t.size = 2 ^ (t.height + 1) - 1) (hheight : t.height + 1 < 32)
    {before : Nat} (n : Nat) (h : LanesOn (before % (t.height + 1)) indices values) :
    ∃ indices' values', rounds t n indices values = some (indices', values') ∧
      indices'.length = indices.length ∧ values'.length = values.length ∧
      LanesOn ((before + n) % (t.height + 1)) indices' values' := by
  induction n generalizing before indices values with
  | zero => exact ⟨indices, values, rfl, rfl, rfl, h⟩
  | succ n ih =>
    have hdepth : before % (t.height + 1) ≤ t.height :=
      Nat.le_of_lt_succ (Nat.mod_lt _ (Nat.succ_pos _))
    obtain ⟨indices₁, values₁, hround, hindices₁, hvalues₁, h₁⟩ :=
      round_lanesOn hcomplete hheight hdepth h
    rw [Nat.mod_add_mod] at h₁
    obtain ⟨indices₂, values₂, hrounds, hindices₂, hvalues₂, h₂⟩ := ih h₁
    refine ⟨indices₂, values₂, ?_, hindices₂.trans hindices₁, hvalues₂.trans hvalues₁, ?_⟩
    · simp only [rounds, hround, Option.bind_eq_bind, Option.bind_some]
      exact hrounds
    · rwa [Nat.add_assoc, Nat.add_comm 1 n] at h₂

end Walk

/-- A batch that starts at the root of a complete tree whose height is at most 30 can be walked.
Behind any number of rounds every lane stands on the level that the number modulo the number of
levels says, and that level is the depth of each pass of that round. -/
theorem Batch.walks_level_by_level (t : Tree) (b : Batch)
    (hcomplete : Tree.nodeCount? t.height = some t.size) (hheight : t.height ≤ 30)
    (hroots : ∀ index ∈ b.indices, index = 0) :
    ∃ b', b.walk t = some b' ∧ b'.indices.length = b.indices.length ∧
      b'.values.length = b.values.length ∧
      (∀ lane < b.values.length, ∀ index, b'.indices[lane]? = some index →
        Image.OnLevel (b.rounds % (t.height + 1)) index) ∧
      ∀ s : Iterations, 1 ≤ s.chunks → s.height = t.height → ∀ i, i / s.chunks = b.rounds →
        s.at? i = some (s.chunk i, b.rounds % (t.height + 1)) := by
  have hstart : Walk.LanesOn (0 % (t.height + 1)) b.indices b.values := by
    intro lane hlane
    rw [hroots lane.1 (List.of_mem_zip hlane).1, Nat.zero_mod]
    exact ⟨by decide, by decide⟩
  obtain ⟨indices, values, hrounds, hindices, hvalues, hlanes⟩ :=
    Walk.rounds_lanesOn (Tree.nodeCount?_eq_some_iff.mp hcomplete).1 (by omega) b.rounds hstart
  refine ⟨⟨indices, values, b.rounds⟩, ?_, hindices, hvalues, fun lane hlane index hindex => ?_,
    fun s hchunks hsheight i hi => ?_⟩
  · simp only [Batch.walk, hrounds, Option.bind_eq_bind, Option.bind_some]
    rfl
  · rw [← Nat.zero_add b.rounds]
    obtain ⟨value, hvalue⟩ : ∃ value, values[lane]? = some value :=
      ⟨_, List.getElem?_eq_getElem (hvalues.symm ▸ hlane)⟩
    refine hlanes (index, value) (List.mem_of_getElem? (i := lane) ?_)
    exact List.getElem?_zip_eq_some.mpr ⟨hindex, hvalue⟩
  · rw [Iterations.at?, if_neg (by omega), Iterations.depth, hi, hsheight]

/-- Two lanes after five rounds in a tree of seven nodes are on the last level. -/
theorem Batch.walks_level_by_level_five_rounds :
    let t : Tree := ⟨2, #[5, 7, 9, 11, 13, 15, 17]⟩
    ∃ b', Batch.walk ⟨[0, 0], [3, 4], 5⟩ t = some b' ∧
      (∀ lane < 2, ∀ index, b'.indices[lane]? = some index → Image.OnLevel 2 index) ∧
      (⟨4, 6, 2⟩ : Iterations).at? 21 = some (1, 2) := by
  intro t
  obtain ⟨b', hwalk, -, -, hlanes, hpasses⟩ := Batch.walks_level_by_level t ⟨[0, 0], [3, 4], 5⟩
    (by decide) (by decide) (by simp)
  refine ⟨b', hwalk, fun lane hlane index hindex => ?_, ?_⟩
  · simpa [t] using hlanes lane hlane index hindex
  · simpa [t, Iterations.chunk] using hpasses ⟨4, 6, 2⟩ (by decide) rfl 21 (by decide)

end TreeWalk
