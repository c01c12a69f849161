import TreeWalk.Proofs.PackedRun

/-!
# Structure of the runs

The packer cuts a list of operations where it may not go on, and nowhere else does it touch the
list. Every bundle holds one run, engine by engine. With room on every engine a run ends only
behind an operation that has an effect, so no bundle is wasted.
-/

namespace TreeWalk

namespace Bundle

theorem isEmpty_ofOps (ops : List Op) : (ofOps ops).isEmpty = ops.isEmpty := by
  rw [Bool.eq_iff_iff]
  simp only [isEmpty, List.all_eq_true, beq_iff_eq, count_ofOps, List.countP_eq_zero,
    decide_eq_true_eq, List.isEmpty_iff]
  constructor
  · intro h
    refine List.eq_nil_iff_forall_not_mem.mpr fun op hop => ?_
    exact h op.engine (Engine.mem_all _) op hop rfl
  · rintro rfl
    simp

theorem isEffective_ofOps (ops : List Op) :
    (ofOps ops).isEffective = ops.any fun op => !op.isNote := by
  rw [Bool.eq_iff_iff]
  simp only [isEffective, List.any_eq_true, bne_iff_ne, ne_eq, count_ofOps, List.countP_eq_zero,
    decide_eq_true_eq, not_forall, not_not, Bool.not_eq_true', exists_prop]
  constructor
  · rintro ⟨engine, hengine, op, hop, rfl⟩
    refine ⟨op, hop, ?_⟩
    rw [← Bool.not_eq_true, ← Op.engine_eq_debug_iff]
    exact Engine.mem_issuing.mp hengine
  · rintro ⟨op, hop, hnote⟩
    refine ⟨op.engine, Engine.mem_issuing.mpr ?_, op, hop, rfl⟩
    rw [Ne, Op.engine_eq_debug_iff, hnote]
    simp

end Bundle

namespace Packing

variable {widths : Widths}

/-- The open run has an operation with an effect, or there is nothing yet to stay clear of. -/
def Underway (run : List Op) (written : List Addr) : Prop :=
  (∃ op ∈ run, op.isNote = false) ∨ written = []

/-- What an open run blocks stands behind an operation with an effect. -/
theorem Underway.of_blocks (hwidths : ∀ e, e ≠ .debug → 1 ≤ widths.of e) {run : List Op}
    {written : List Addr} (h : Underway run written) {op : Op} (hop : op.isNote = false)
    (hblocks : blocks widths run written op = true) : ∃ x ∈ run, x.isNote = false := by
  have hengine : op.engine ≠ .debug := by
    rw [Ne, Op.engine_eq_debug_iff, hop]
    simp
  rcases Bool.or_eq_true_iff.mp hblocks with hfull | htouches
  · have hwidth := hwidths op.engine hengine
    have hpos : 0 < run.countP fun x => x.engine == op.engine :=
      Nat.lt_of_lt_of_le hwidth (of_decide_eq_true hfull)
    obtain ⟨x, hx, hxe⟩ := List.countP_pos_iff.mp hpos
    refine ⟨x, hx, ?_⟩
    rw [← Bool.not_eq_true, ← Op.engine_eq_debug_iff, beq_iff_eq.mp hxe]
    exact hengine
  · refine h.resolve_right ?_
    rintro rfl
    simp [touches] at htouches

/-- No run is empty, and a run of notes alone is all there is. -/
theorem runsFrom_effective (hwidths : ∀ e, e ≠ .debug → 1 ≤ widths.of e) (ops : List Op)
    {run : List Op} {written : List Addr} (h : Underway run written) :
    ∀ r ∈ runsFrom widths run written ops,
      r ≠ [] ∧ ((∃ op ∈ r, op.isNote = false) ∨ ∀ op ∈ run ++ ops, op.isNote = true) := by
  induction ops generalizing run written with
  | nil =>
    intro r hr
    simp only [runsFrom] at hr
    split at hr
    · simp at hr
    · rename_i hrun
      obtain rfl := List.mem_singleton.mp hr
      refine ⟨by simpa using hrun, ?_⟩
      by_cases hnotes : ∀ op ∈ run, op.isNote = true
      · exact .inr (by simpa using hnotes)
      · exact .inl (by simpa using hnotes)
  | cons op rest ih =>
    intro r hr
    -- behind an operation with an effect there is no list of notes alone
    have hdrop {xs : List Op} (hop : op.isNote = false) (hmem : op ∈ xs)
        (hr : r ≠ [] ∧ ((∃ x ∈ r, x.isNote = false) ∨ ∀ x ∈ xs ++ rest, x.isNote = true)) :
        r ≠ [] ∧ ((∃ x ∈ r, x.isNote = false) ∨ ∀ x ∈ run ++ op :: rest, x.isNote = true) := by
      refine ⟨hr.1, .inl (hr.2.resolve_right fun hnotes => ?_)⟩
      have hnote := hnotes op (List.mem_append_left _ hmem)
      simp [hop] at hnote
    simp only [runsFrom] at hr
    split at hr
    · have hunderway : Underway (op :: run) written := by
        rcases h with ⟨x, hx, hxn⟩ | hfresh
        · exact .inl ⟨x, List.mem_cons_of_mem op hx, hxn⟩
        · exact .inr hfresh
      obtain ⟨hne, hr⟩ := ih hunderway r hr
      refine ⟨hne, hr.imp_right fun hnotes x hx => hnotes x ?_⟩
      simp only [List.mem_append, List.mem_cons] at hx ⊢
      tauto
    · rename_i hop
      have hop : op.isNote = false := by simpa using hop
      split at hr
      · rename_i hblocks
        obtain ⟨x, hx, hxn⟩ := h.of_blocks hwidths hop hblocks
        rcases List.mem_cons.mp hr with rfl | hr
        · have hx : x ∈ run.reverse := List.mem_reverse.mpr hx
          exact ⟨List.ne_nil_of_mem hx, .inl ⟨x, hx, hxn⟩⟩
        · exact hdrop hop (by simp) (ih (.inl ⟨op, by simp, hop⟩) r hr)
      · exact hdrop hop (by simp) (ih (.inl ⟨op, by simp, hop⟩) r hr)

/-- What wide packing does to a list: consecutive runs become bundles, each with the run's
operations on every engine in their order. With room on every engine no bundle is empty or too
wide, no operation touches an address that its run writes before it, and only a list of notes has
a bundle without effect. -/
theorem pack_wide_structure (widths : Widths) (ops : List Op) :
    ∃ rs : List (List Op), rs.flatten = ops ∧
      List.Forall₂ (fun (b : Bundle) r => ∀ e, b.on e = r.filter fun op => op.engine = e)
        (pack .wide widths ops) rs ∧
      ((∀ e, e ≠ .debug → 1 ≤ widths.of e) →
        (∀ b ∈ pack .wide widths ops, b.isEmpty = false ∧
          (∀ e, e ≠ .debug → b.count e ≤ widths.of e) ∧
          (b.isEffective = false → ∀ op ∈ ops, op.isNote = true)) ∧
        ∀ r ∈ rs, r.Pairwise fun x y => ∀ a ∈ x.writes, a ∉ y.reads ∧ a ∉ y.writes) := by
  refine ⟨runs widths ops, flatten_runs widths ops, ?_, fun hwidths => ⟨?_, ?_⟩⟩
  · rw [pack, List.forall₂_map_left_iff, List.forall₂_same]
    exact fun r _ e => Bundle.on_ofOps r e
  · intro b hb
    obtain ⟨r, hr, rfl⟩ := List.mem_map.mp hb
    obtain ⟨hne, hnotes⟩ := runsFrom_effective hwidths ops (.inr rfl) r hr
    refine ⟨?_, fun e he => ?_, fun heffect => ?_⟩
    · simpa [Bundle.isEmpty_ofOps] using hne
    · exact (runsFrom_spec hwidths ops .nil r hr).2 e (Engine.mem_issuing.mpr he)
    · rw [List.nil_append] at hnotes
      refine hnotes.resolve_left ?_
      rintro ⟨op, hop, hopn⟩
      rw [Bundle.isEffective_ofOps, List.any_eq_false] at heffect
      exact heffect op hop (by simp [hopn])
  · exact fun r hr => (runsFrom_spec hwidths ops .nil r hr).1

/-- Three bundles: the second begins because two loads are enough, the third because the product
reads the sum. -/
theorem pack_wide_structure_three :
    let ops : List Op := [.note "start", .const ⟨0⟩ 5, .const ⟨1⟩ 7, .const ⟨2⟩ 9,
      .scalar .add ⟨3⟩ ⟨0⟩ ⟨1⟩, .note "product", .scalar .mul ⟨0⟩ ⟨3⟩ ⟨3⟩]
    (∀ e, e ≠ Engine.debug → 1 ≤ ({} : Widths).of e) ∧
      ∃ rs : List (List Op), rs.flatten = ops ∧ rs.length = 3 ∧
        (∀ b ∈ pack .wide {} ops, b.isEmpty = false ∧ b.isEffective = true) ∧
        ∀ r ∈ rs, r.Pairwise fun x y => ∀ a ∈ x.writes, a ∉ y.reads ∧ a ∉ y.writes := by
  intro ops
  have hwidths : ∀ e, e ≠ Engine.debug → 1 ≤ ({} : Widths).of e := by
    intro e _
    cases e <;> decide
  obtain ⟨rs, hflat, hbundles, hmore⟩ := pack_wide_structure {} ops
  obtain ⟨hall, hspares⟩ := hmore hwidths
  have hlength : (pack .wide {} ops).length = 3 := by decide +kernel
  refine ⟨hwidths, rs, hflat, hbundles.length_eq ▸ hlength, fun b hb => ⟨(hall b hb).1, ?_⟩,
    hspares⟩
  by_contra heffect
  have hnote := (hall b hb).2.2 (by simpa using heffect) (.const ⟨0⟩ 5) (by simp [ops])
  simp [Op.const, Op.isNote] at hnote

end Packing

end TreeWalk
