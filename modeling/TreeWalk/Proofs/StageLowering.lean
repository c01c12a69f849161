import TreeWalk.Proofs.ConstantPool
import TreeWalk.Proofs.PassMeaning

/-!
# A lowered stage computes its stage

Lowering a stage asks the build for the stage's two constants, which other stages may share. Behind
the code that the build has emitted by then, the operations of the lowered stage take every lane of
a block to what the stage makes of it, whether they fuse the stage or split it.
-/

namespace TreeWalk

theorem Addr.blocksApart_of_forall {a b : Addr}
    (h : ∀ l < laneCount, ∀ l' < laneCount, a.toNat + l ≠ b.toNat + l') : a.BlocksApart b := by
  have hpos : 0 < laneCount := by decide
  unfold BlocksApart
  by_contra hnear
  rcases Nat.le_total a.toNat b.toNat with hle | hle
  · exact h (b.toNat - a.toNat) (by omega) 0 hpos (by omega)
  · exact h 0 hpos (a.toNat - b.toNat) (by omega) (by omega)

namespace Mix

variable {form : Form} {lowered : Lowered} {d : Draft} {t : Contents} {values left right : Addr}

/-- The constants of a lowered stage have their values once the emitted code is done. -/
theorem Lowered.Carries.lane_eq (h : lowered.Carries (Draft.VectorFor True d) form)
    (hdone : ∀ op ∈ d.pending.toList, op.IsDone t) {l : Nat} (hl : l < laneCount) :
    lowered.Carries (fun v a => t.lane l a = v) form :=
  h.imp fun _ _ hv => (hv.2 trivial).lane_eq hdone l hl

/-- A lowered stage, run where its constants have their values, takes the lanes of a block through
its form. -/
theorem execute_stageOps (htotal : lowered.IsTotal)
    (hblocks : LaneBlocks [values, left, right] lowered.constants)
    (hholds : ∀ a ∈ [values, left, right] ++ lowered.constants, t.Holds a laneCount)
    (hcarries : ∀ l < laneCount, lowered.Carries (fun v a => t.lane l a = v) form) :
    ∃ u, execute (lowered.stageOps values left right) t = some u ∧
      Contents.DiffersIn (Addr.Covered [values, left, right]) t u ∧
      ∀ l < laneCount, u.lane l values = form.apply (t.lane l values) := by
  have hlaneWise : ∀ op ∈ lowered.stageOps values left right,
      op.LaneWise [values, left, right] lowered.constants :=
    Lowered.laneWise_stageOps htotal (by simp) (by simp) (by simp)
      fun a ha => List.mem_append_right _ ha
  obtain ⟨u, hu, hdiffers, hlane⟩ := execute_onLanes hblocks hlaneWise hholds
    (ρ := fun l => t.lane l) fun _ _ _ _ => rfl
  refine ⟨u, hu, hdiffers, fun l hl => ?_⟩
  have hapart := hblocks.apart
  simp only [List.pairwise_cons, List.mem_cons, List.not_mem_nil, or_false, forall_eq_or_imp,
    forall_eq] at hapart
  obtain ⟨⟨hvl, -⟩, hlr, -⟩ := hapart
  have hconst : ∀ a ∈ lowered.constants, a ≠ left :=
    fun a ha => (hblocks.apart_shared left (by simp) a ha).ne.symm
  rw [hlane l hl values (by simp), (Lowered.onLanes_stageOps hvl.ne.symm hlr.ne hconst).1,
    Lowered.onValue_of_carries (hcarries l hl)]

/-- The form of a stage has its value on every word. Where the lowering of the form succeeds in a
build of constants, the code emitted by then leaves a block of values alone that is apart from all
pooled constants, and behind it the operations of the lowered stage take every lane of the block
to the value of the stage, and change nothing but that block and the two that they work in. -/
theorem lowered_stage_computes (stage : Stage) :
    (∀ a, (Form.ofStage stage).apply a = stage.apply a) ∧
    ∀ {capacity : Nat} {d d' : Draft} {lowered : Lowered} {s : Contents}
      {values left right : Addr}, capacity < 2 ^ 32 → Draft.Assembled capacity d →
      Draft.perform (Form.ofStage stage).lower d = (.ok lowered, d') →
      d'.used ≤ s.scratch.size → (∀ a ∈ [values, left, right], s.Holds a laneCount) →
      [values, left, right].Pairwise Addr.BlocksApart →
      (∀ a ∈ [values, left, right], ∀ l < laneCount, ¬ d'.Pooled (a.toNat + l)) →
      ∃ t u, execute d'.pending.toList s = some t ∧
        execute (lowered.parallelOps values left right ++ lowered.combineOps values left right) t =
          some u ∧
        (∀ l < laneCount, t.lane l values = s.lane l values ∧
          u.lane l values = stage.apply (s.lane l values)) ∧
        Contents.DiffersIn (Addr.Covered [values, left, right]) t u := by
  refine ⟨Form.apply_ofStage stage, ?_⟩
  intro capacity d d' lowered s values left right hcapacity hd hlower hs hholds hapart hfree
  have hd' : Draft.Assembled capacity d' := hd.of_lower hlower
  obtain ⟨-, hkept, hcarries⟩ := Form.lower_spec (hd.kept hcapacity 0) hlower
  obtain ⟨t, ht, hdiffers, hdone⟩ := hd'.execute_pending hcapacity hs
  have hconst {a : Addr} (ha : a ∈ lowered.constants) :
      a.toNat + laneCount ≤ d'.used ∧ ∀ l < laneCount, d'.Pooled (a.toNat + l) := by
    obtain ⟨v, hle, hvector⟩ := hcarries.of_mem_constants ha
    have hfit : a.FitsBlock := Nat.le_trans hle
      (Nat.le_trans hkept.bounded.used_le (Nat.le_of_lt hkept.bounded.capacity_lt))
    exact ⟨hle, fun l => (hvector trivial).pooled (hd'.writesPooled hcapacity) hfit⟩
  have hblocks : LaneBlocks [values, left, right] lowered.constants := by
    refine ⟨hapart, fun b hb a ha => Addr.blocksApart_of_forall fun l hl l' hl' heq => ?_⟩
    exact hfree b hb l hl (heq ▸ (hconst ha).2 l' hl')
  have hholds' : ∀ a ∈ [values, left, right] ++ lowered.constants, t.Holds a laneCount := by
    intro a ha
    rw [hdiffers.holds]
    rcases List.mem_append.mp ha with ha | ha
    · exact hholds a ha
    · have hle := (hconst ha).1
      have hused := hkept.bounded.used_le
      have hlt := hkept.bounded.capacity_lt
      exact ⟨by omega, by omega⟩
  obtain ⟨u, hu, hchanged, hlanes⟩ := execute_stageOps
    (hcarries.isTotal (Form.isTotal_ofStage stage)) hblocks hholds'
    fun l hl => hcarries.lane_eq hdone hl
  refine ⟨t, u, ht, hu, fun l hl => ?_, hchanged⟩
  have hkept_lane : t.lane l values = s.lane l values :=
    hdiffers.lane (hfree values (by simp) l hl)
  exact ⟨hkept_lane, by rw [hlanes l hl, hkept_lane, Form.apply_ofStage]⟩

/-- A shift by 40, which is not fused. Both constants of the stage are 40, which is pooled. -/
theorem lowered_stage_computes_split :
    let stage : Stage := ⟨.add, 40, .add, .shl, 40⟩
    let blocks := Draft.perform (Draft.reserve (some "blocks") 24) (.ofCapacity 64)
    let d := (Draft.perform (Draft.constant 40) blocks.2).2
    let s : Contents := ⟨0, #[1, 2, 3, 4, 5, 6, 7, 8] ++ Array.replicate 56 0, #[], #[]⟩
    ∃ lowered d' t u, Draft.perform (Form.ofStage stage).lower d = (.ok lowered, d') ∧
      d'.pending.size = 2 ∧ execute d'.pending.toList s = some t ∧
      execute (lowered.parallelOps ⟨0⟩ ⟨8⟩ ⟨16⟩ ++ lowered.combineOps ⟨0⟩ ⟨8⟩ ⟨16⟩) t = some u ∧
      ∀ l < laneCount, u.lane l ⟨0⟩ = stage.apply (s.lane l ⟨0⟩) := by
  intro stage blocks d s
  have hd : Draft.Assembled 64 d := (Draft.Assembled.fresh.reserve (some "blocks") 24).constant 40
  have hlower : Draft.perform (Form.ofStage stage).lower d =
      (.ok (.split .add ⟨25⟩ .add .shl ⟨25⟩), (Draft.perform (Form.ofStage stage).lower d).2) :=
    Prod.ext (by decide +kernel) rfl
  set d' := (Draft.perform (Form.ofStage stage).lower d).2
  have hpending : d'.pending.size = 2 := by decide +kernel
  have hused : d'.used ≤ s.scratch.size := by decide +kernel
  have hholds : ∀ a ∈ [⟨0⟩, ⟨8⟩, ⟨16⟩], s.Holds a laneCount := by
    have hsize : s.scratch.size = 64 := by decide +kernel
    simp only [List.mem_cons, List.not_mem_nil, or_false, forall_eq_or_imp, forall_eq,
      Contents.Holds, hsize]
    decide
  have hapart : [(⟨0⟩ : Addr), ⟨8⟩, ⟨16⟩].Pairwise Addr.BlocksApart := by
    simp [Addr.BlocksApart, Addr.toNat, laneCount]
  have hfree : ∀ a ∈ [(⟨0⟩ : Addr), ⟨8⟩, ⟨16⟩], ∀ l < laneCount, ¬ d'.Pooled (a.toNat + l) := by
    decide +kernel
  obtain ⟨t, u, ht, hu, hlanes, -⟩ := (lowered_stage_computes stage).2 (by decide) hd hlower hused
    hholds hapart hfree
  exact ⟨_, d', t, u, hlower, hpending, ht, hu, fun l hl => (hlanes l hl).2⟩

end Mix

end TreeWalk
