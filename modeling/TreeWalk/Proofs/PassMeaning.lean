import TreeWalk.Proofs.LaneWalk
import TreeWalk.Proofs.PassRun
import TreeWalk.Proofs.SetupRun

/-!
# A pass is one round of the walk

With the constants in place, the lane-wise code of a pass computes on each lane what one round of
the walk does: the node of the lane's index, the mixed value and the step to a child.
-/

namespace TreeWalk

namespace Mix

/-- A fused stage is the stage: the shift is the power of two that the multiplier adds. -/
theorem mul_one_add_shift (a c k : Word) (hk : k < 32) :
    a * (1 + (1 : Word) <<< k) + c = a + c + a.shiftUp k := by
  have hk' : k.toNat < 32 := hk
  rw [Word.shiftUp, if_pos hk]
  apply UInt32.toNat_inj.mp
  simp only [UInt32.toNat_add, UInt32.toNat_mul, UInt32.toNat_shiftLeft, Nat.shiftLeft_eq,
    UInt32.toNat_one, Nat.mod_eq_of_lt hk']
  have hexpand : a.toNat * (1 + 2 ^ k.toNat) = a.toNat + a.toNat * 2 ^ k.toNat := by
    rw [Nat.mul_add, Nat.mul_one]
  rw [Nat.one_mul, Nat.add_mod_mod, Nat.mul_mod_mod, Nat.mod_add_mod, Nat.add_mod_mod,
    Nat.mod_add_mod, hexpand]
  congr 1
  omega

namespace Form

theorem apply_ofStage (stage : Stage) (a : Word) : (ofStage stage).apply a = stage.apply a := by
  unfold ofStage
  split
  · rename_i h
    obtain ⟨hleft, hcombine, hright, hvalue⟩ := h
    simp only [apply, Stage.apply, hleft, hcombine, hright, Operator.apply]
    exact mul_one_add_shift a stage.leftValue stage.rightValue hvalue
  · simp only [apply, Stage.apply, Operator.apply_opcode, Option.getD_some]

end Form

namespace Lowered

variable {ρ : Addr → Word}

theorem onValue_of_carries {form : Form} {lowered : Lowered}
    (h : Carries (fun v a => ρ a = v) form lowered) (value : Word) :
    lowered.onValue ρ value = form.apply value := by
  cases form <;> cases lowered <;> simp only [Carries] at h
  · simp only [onValue, Form.apply, h.1, h.2]
  · obtain ⟨rfl, rfl, rfl, hl, hr⟩ := h
    simp only [onValue, Form.apply, Opcode.value, hl, hr]

/-- All stages of a frame together mix as the walk does. -/
theorem mixOnValue_of_allCarry {stages : List Lowered}
    (h : AllCarry (fun v a => ρ a = v) stages) (value : Word) :
    mixOnValue stages ρ value = hash value := by
  have hfold {list : List Stage} {lowered : List Lowered}
      (h : List.Forall₂ (Carries fun v a => ρ a = v) (list.map Form.ofStage) lowered)
      (value : Word) :
      mixOnValue lowered ρ value = list.foldl (fun v stage => stage.apply v) value := by
    induction list generalizing lowered value with
    | nil =>
      cases h
      rfl
    | cons stage rest ih =>
      cases h with
      | @cons _ low _ _ hfirst hrest =>
        simp only [mixOnValue, List.foldl_cons]
        rw [onValue_of_carries hfirst, Form.apply_ofStage]
        exact ih hrest _
  exact hfold h value

end Lowered

end Mix

theorem and_one_add_one (value : Word) :
    (value &&& 1) + 1 = if value % 2 = 0 then 1 else 2 := by
  have hand : value &&& 1 = value % 2 := by
    apply UInt32.toNat_inj.mp
    rw [UInt32.toNat_and, UInt32.toNat_mod]
    exact Nat.and_one_is_mod _
  rw [hand]
  have hlt : (value % 2).toNat < 2 := by
    rw [UInt32.toNat_mod]
    exact Nat.mod_lt _ (by decide)
  rcases Nat.lt_succ_iff_lt_or_eq.mp hlt with h | h
  · have hzero : value % 2 = 0 := UInt32.toNat_inj.mp (by simpa using h)
    simp [hzero]
  · have hone : value % 2 = 1 := UInt32.toNat_inj.mp (by simpa using h)
    rw [hone]
    rfl

namespace Frame.Ready

variable {f : Frame} {mem : Array Word} {s : Contents} {l : Image.Layout}

theorem headerWord {i : Nat} {a : Addr} (h : f.Ready mem s) (ha : f.header.words[i]? = some a) :
    (s.word a).toNat = Image.headerWord mem i := by
  rw [Image.headerWord, Array.getD_eq_getD_getElem?, h.header i a ha, Option.getD_some]

theorem nodesAt (h : f.Ready mem s) (hl : l = Image.readHeader mem) :
    (s.word f.header.nodesAt).toNat = l.nodesAt := by
  rw [h.headerWord (i := 4) rfl, hl]
  rfl

theorem indicesAt (h : f.Ready mem s) (hl : l = Image.readHeader mem) :
    (s.word f.header.indicesAt).toNat = l.indicesAt := by
  rw [h.headerWord (i := 5) rfl, hl]
  rfl

theorem valuesAt (h : f.Ready mem s) (hl : l = Image.readHeader mem) :
    (s.word f.header.valuesAt).toNat = l.valuesAt := by
  rw [h.headerWord (i := 6) rfl, hl]
  rfl

variable {lane : Nat} (hlane : lane < laneCount)

include hlane in
theorem toNat_nodeCount (h : f.Ready mem s) (hl : l = Image.readHeader mem) :
    (s.lane lane f.nodeCount).toNat = l.nodeCount := by
  have hword := h.nodeCount lane hlane
  have hcount : l.nodeCount = Image.headerWord mem 1 := by
    rw [hl]
    rfl
  rw [hcount, Image.headerWord, Array.getD_eq_getD_getElem?, hword, Option.getD_some]

include hlane in
theorem next_eq_step (h : f.Ready mem s) (hl : l = Image.readHeader mem)
    (node index value : Word) :
    (RoundLoop.nextIndex f (s.lane lane) index (RoundLoop.nextValue f (s.lane lane) value node),
      RoundLoop.nextValue f (s.lane lane) value node) =
        Walk.step node index value l.nodeCount := by
  have hvalue : RoundLoop.nextValue f (s.lane lane) value node = Mix.hash (value ^^^ node) :=
    Mix.Lowered.mixOnValue_of_allCarry (h.stages.imp fun v a hv => hv lane hlane) _
  have hcount := h.toNat_nodeCount hlane hl
  simp only [hvalue, RoundLoop.nextIndex, Walk.step, h.one lane hlane, h.two lane hlane,
    and_one_add_one]
  set child := index * 2 + if Mix.hash (value ^^^ node) % 2 = 0 then 1 else 2
  congr 1
  by_cases hlt : child < s.lane lane f.nodeCount
  · have hlt' : child.toNat < l.nodeCount := by
      rw [← hcount]
      exact hlt
    simp [hlt, Word.ofBool, Nat.not_le.mpr hlt']
  · have hle : l.nodeCount ≤ child.toNat := by
      rw [← hcount]
      exact Nat.le_of_not_lt hlt
    simp [hlt, Word.ofBool, hle]

end Frame.Ready

/-- The registers of the top nodes hold the first nodes of the tree. -/
structure TopNodes.Loaded (t : TopNodes) (node : Nat → Word) (s : Contents) : Prop where
  scalars : ∀ i < t.count, s.word (t.node i) = node i
  level1 : ∀ n1 n2, t.level1 = some (n1, n2) →
    ∀ l < laneCount, s.lane l n1 = node 1 ∧ s.lane l n2 = node 2
  level2 : ∀ n0 n1 n2 n3, t.level2 = some (n0, n1, n2, n3) →
    ∀ l < laneCount, s.lane l n0 = node 3 ∧ s.lane l n1 = node 4 ∧ s.lane l n2 = node 5 ∧
      s.lane l n3 = node 6

namespace Image.OnLevel

variable {index : Word} (node : Nat → Word)

theorem blend_one (h : OnLevel 1 index) :
    (1 - (index &&& 1)) * node 2 + (index &&& 1) * node 1 = node index.toNat := by
  obtain ⟨hlow, hhigh⟩ := h
  have hcases : index.toNat = (1 : Word).toNat ∨ index.toNat = (2 : Word).toNat := by
    simp only [UInt32.reduceToNat]
    omega
  rcases hcases with heq | heq
  · obtain rfl := UInt32.toNat_inj.mp heq
    simp
  · obtain rfl := UInt32.toNat_inj.mp heq
    simp [show (2 : Word) &&& 1 = 0 by decide]

/-- On level 2 the two bits of the offset from the leftmost node choose among the four nodes. -/
theorem blend_two (h : OnLevel 2 index) :
    let low := index - 3 &&& 1
    let high := (index - 3).shiftDown 1
    let even := low * node 4 + (1 - low) * node 3
    let odd := low * node 6 + (1 - low) * node 5
    high * odd + even * (1 - high) = node index.toNat := by
  obtain ⟨hlow, hhigh⟩ := h
  have hcases : index.toNat = (3 : Word).toNat ∨ index.toNat = (4 : Word).toNat ∨
      index.toNat = (5 : Word).toNat ∨ index.toNat = (6 : Word).toNat := by
    simp only [UInt32.reduceToNat]
    omega
  -- the bits are those of the offsets 0, 1, 2 and 3
  have hbits (w low high : Word) (heq : index.toNat = w.toNat) (hlow : w - 3 &&& 1 = low)
      (hhigh : (w - 3).shiftDown 1 = high) :
      index - 3 &&& 1 = low ∧ (index - 3).shiftDown 1 = high := by
    rw [UInt32.toNat_inj.mp heq]
    exact ⟨hlow, hhigh⟩
  rcases hcases with heq | heq | heq | heq
  · obtain ⟨hb, hc⟩ := hbits 3 0 0 heq (by decide) (by decide)
    simp [heq, hb, hc]
  · obtain ⟨hb, hc⟩ := hbits 4 1 0 heq (by decide) (by decide)
    simp [heq, hb, hc]
  · obtain ⟨hb, hc⟩ := hbits 5 0 1 heq (by decide) (by decide)
    simp [heq, hb, hc]
  · obtain ⟨hb, hc⟩ := hbits 6 1 1 heq (by decide) (by decide)
    simp [heq, hb, hc]

end Image.OnLevel

namespace RoundLoop

variable {f : Frame} {m : Member} {mem : Array Word} {s : Contents} {layout : Image.Layout}
  {l : Nat}

/-- Whether it is blended from registers or loaded, the node value of a lane is its node. -/
theorem Member.node_eq (hready : f.Ready mem s) (hlayout : layout = Image.readHeader mem)
    (htop : f.top.Loaded (fun i => mem.getD (layout.nodesAt + i) 0) s) (hmem : s.mem = mem)
    (hl : l < laneCount) {index : Word} (hindex : s.lane l (f.indexBlock m.chunk) = index)
    (hlevel : Image.OnLevel m.depth index) (hlt : layout.nodesAt + index.toNat < mem.size)
    (hsize : mem.size ≤ 2 ^ 32) :
    m.node f s l = some (mem.getD (layout.nodesAt + index.toNat) 0) := by
  set node : Nat → Word := fun i => mem.getD (layout.nodesAt + i) 0 with hnode
  have hload : mem[(s.word f.header.nodesAt + index).toNat]? = some (node index.toNat) := by
    have hnat : (s.word f.header.nodesAt + index).toNat = layout.nodesAt + index.toNat := by
      rw [UInt32.toNat_add, hready.nodesAt hlayout]
      exact Nat.mod_eq_of_lt (by omega)
    rw [hnat]
    simp [hnode, hlt]
  show m.node f s l = some (node index.toNat)
  simp only [Member.node, hindex, hmem]
  unfold Frame.nodeOnLane
  split
  · rename_i hdepth
    rw [hdepth] at hlevel
    have hroot : index.toNat = 0 := by
      have := hlevel.2
      omega
    rw [htop.scalars 0 f.top.count_pos, hroot]
  · rename_i n1 n2 hdepth hlevel1
    rw [hdepth] at hlevel
    obtain ⟨hn1, hn2⟩ := htop.level1 n1 n2 hlevel1 l hl
    simp only [hready.one l hl, hn1, hn2]
    exact congrArg some (hlevel.blend_one node)
  · rename_i n0 n1 n2 n3 hdepth hlevel2
    rw [hdepth] at hlevel
    obtain ⟨hn0, hn1, hn2, hn3⟩ := htop.level2 n0 n1 n2 n3 hlevel2 l hl
    simp only [hready.one l hl, hready.three l hl, hn0, hn1, hn2, hn3]
    exact congrArg some (hlevel.blend_two node)
  · exact hload

end RoundLoop

end TreeWalk
