import TreeWalk.Proofs.RunStructure

/-!
# The fewest runs

Every part of a run that may issue in one cycle may issue in one cycle too. So the packer ends a
run at most once within a run of any other cut of the list, and never falls behind that cut: no cut
has fewer runs, and more room on an engine never makes more bundles.
-/

namespace TreeWalk

namespace Packing

/-- The run may issue in one cycle: no engine but `debug` takes more operations than its width, and
no operation touches an address that an operation before it writes. -/
structure IssuesTogether (widths : Widths) (run : List Op) : Prop where
  width : ∀ e, e ≠ .debug → run.countP (fun op => op.engine == e) ≤ widths.of e
  spares : run.Pairwise Op.Spares

/-- A cut of the list into consecutive runs, none of them empty, that may each issue in one
cycle. -/
structure IsCut (widths : Widths) (ops : List Op) (rs : List (List Op)) : Prop where
  flatten : rs.flatten = ops
  nonempty : ∀ r ∈ rs, r ≠ []
  together : ∀ r ∈ rs, IssuesTogether widths r

def Recorded (run : List Op) (written : List Addr) : Prop :=
  ∀ a ∈ written, ∃ x ∈ run, a ∈ x.writes

variable {widths widths' : Widths} {run part : List Op} {written : List Addr} {op : Op}

theorem IssuesTogether.sublist (h : IssuesTogether widths run) (hsub : part.Sublist run) :
    IssuesTogether widths part :=
  ⟨fun e he => Nat.le_trans hsub.countP_le (h.width e he), h.spares.sublist hsub⟩

theorem IssuesTogether.widen (h : IssuesTogether widths run)
    (hwider : ∀ e, e ≠ .debug → widths.of e ≤ widths'.of e) : IssuesTogether widths' run :=
  ⟨fun e he => Nat.le_trans (h.width e he) (hwider e he), h.spares⟩

theorem IsCut.widen {ops : List Op} {rs : List (List Op)} (h : IsCut widths ops rs)
    (hwider : ∀ e, e ≠ .debug → widths.of e ≤ widths'.of e) : IsCut widths' ops rs :=
  ⟨h.flatten, h.nonempty, fun r hr => (h.together r hr).widen hwider⟩

theorem Recorded.nil (run : List Op) : Recorded run [] := by simp [Recorded]

theorem Recorded.single (op : Op) : Recorded [op] op.writes := by simp [Recorded]

theorem Recorded.cons (h : Recorded run written) (op : Op) : Recorded (op :: run) written :=
  fun a ha => (h a ha).imp fun _ hx => ⟨List.mem_cons_of_mem _ hx.1, hx.2⟩

theorem Recorded.push (h : Recorded run written) (op : Op) :
    Recorded (op :: run) (op.writes ++ written) := by
  intro a ha
  rcases List.mem_append.mp ha with ha | ha
  · exact ⟨op, List.mem_cons_self, ha⟩
  · exact h.cons op a ha

theorem blocks_eq_false (hrecorded : Recorded run written) (hop : op.isNote = false)
    {rest : List Op} (h : IssuesTogether widths (run.reverse ++ op :: rest)) :
    blocks widths run written op = false := by
  have hengine : op.engine ≠ .debug := by
    rw [Ne, Op.engine_eq_debug_iff, hop]
    simp
  have hwidth := h.width op.engine hengine
  rw [List.countP_append, List.countP_reverse, List.countP_cons_of_pos (by simp)] at hwidth
  have hspares {a : Addr} (ha : a ∈ written) : a ∉ op.reads ∧ a ∉ op.writes := by
    obtain ⟨x, hx, hax⟩ := hrecorded a ha
    exact (List.pairwise_append.mp h.spares).2.2 x (List.mem_reverse.mpr hx) op
      List.mem_cons_self a hax
  simp only [blocks, touches, Bool.or_eq_false_iff, decide_eq_false_iff_not, List.any_eq_false,
    List.contains_iff_mem]
  exact ⟨by omega, fun a ha hw => (hspares hw).1 ha, fun a ha hw => (hspares hw).2 ha⟩

theorem runsFrom_append (hrecorded : Recorded run written)
    (h : IssuesTogether widths (run.reverse ++ part)) (rest : List Op) :
    ∃ written', Recorded (part.reverse ++ run) written' ∧
      runsFrom widths run written (part ++ rest) =
        runsFrom widths (part.reverse ++ run) written' rest := by
  induction part generalizing run written with
  | nil => exact ⟨written, hrecorded, rfl⟩
  | cons op part ih =>
    have hmore : IssuesTogether widths ((op :: run).reverse ++ part) := by simpa using h
    have hgoal : (op :: part).reverse ++ run = part.reverse ++ op :: run := by simp
    rw [hgoal, List.cons_append]
    simp only [runsFrom]
    split
    · exact ih (hrecorded.cons op) hmore
    · rename_i hnote
      rw [blocks_eq_false hrecorded (by simpa using hnote) h]
      exact ih (hrecorded.push op) hmore

/-- The packer ends a run at most once within operations that may issue in one cycle. -/
theorem length_runsFrom_append_le {rest : List Op} {bound : Nat}
    (hrest : ∀ run written, Recorded run written →
      (runsFrom widths run written rest).length ≤ bound)
    (hrecorded : Recorded run written) (h : IssuesTogether widths part) :
    (runsFrom widths run written (part ++ rest)).length ≤ bound + 1 := by
  induction part generalizing run written with
  | nil => exact Nat.le_succ_of_le (hrest run written hrecorded)
  | cons op part ih =>
    have hpart := h.sublist (List.sublist_cons_self op part)
    rw [List.cons_append]
    simp only [runsFrom]
    split
    · exact ih (hrecorded.cons op) hpart
    · split
      · -- behind the end all the rest of the part fits into the new run
        obtain ⟨written', hrecorded', heq⟩ := runsFrom_append (.single op) h rest
        rw [List.length_cons, heq]
        exact Nat.succ_le_succ (hrest _ _ hrecorded')
      · exact ih (hrecorded.push op) hpart

theorem length_runsFrom_flatten_le {rs : List (List Op)}
    (hrs : ∀ r ∈ rs, IssuesTogether widths r) (hrecorded : Recorded run written) :
    (runsFrom widths run written rs.flatten).length ≤ rs.length + 1 := by
  induction rs generalizing run written with
  | nil =>
    simp only [List.flatten_nil, runsFrom]
    split <;> simp
  | cons r rs ih =>
    rw [List.flatten_cons, List.length_cons]
    exact length_runsFrom_append_le
      (fun _ _ => ih fun r' hr' => hrs r' (List.mem_cons_of_mem r hr')) hrecorded
      (hrs r List.mem_cons_self)

/-- No cut has fewer runs than the packer's. -/
theorem IsCut.length_runs_le {ops : List Op} {rs : List (List Op)} (h : IsCut widths ops rs) :
    (runs widths ops).length ≤ rs.length := by
  rw [← h.flatten]
  cases rs with
  | nil => simp [runs, runsFrom]
  | cons r rs =>
    have hfirst := h.together r List.mem_cons_self
    obtain ⟨written', hrecorded, heq⟩ := runsFrom_append (.nil []) hfirst rs.flatten
    rw [List.flatten_cons, runs, heq, List.length_cons]
    exact length_runsFrom_flatten_le
      (fun r' hr' => h.together r' (List.mem_cons_of_mem r hr')) hrecorded

theorem isCut_runs (hwidths : ∀ e, e ≠ .debug → 1 ≤ widths.of e) (ops : List Op) :
    IsCut widths ops (runs widths ops) := by
  refine ⟨flatten_runs widths ops, fun r hr => ?_, fun r hr => ?_⟩
  · exact (runsFrom_effective hwidths ops (.inr rfl) r hr).1
  · obtain ⟨hspares, hwithin⟩ := runsFrom_spec hwidths ops .nil r hr
    refine ⟨fun e he => ?_, hspares⟩
    have hwidth := hwithin e (Engine.mem_issuing.mpr he)
    rwa [Bundle.count_ofOps] at hwidth

/-- Wide packing makes the fewest bundles that keep the order of the operations: its bundles come
from a cut into runs that may each issue in one cycle, no such cut has fewer runs, and wider engines
never make more bundles. -/
theorem pack_wide_fewest (hwidths : ∀ e, e ≠ .debug → 1 ≤ widths.of e) (ops : List Op) :
    (∃ rs, IsCut widths ops rs ∧ pack .wide widths ops = rs.map Bundle.ofOps) ∧
      (∀ rs, IsCut widths ops rs → (pack .wide widths ops).length ≤ rs.length) ∧
      ∀ widths' : Widths, (∀ e, e ≠ .debug → widths.of e ≤ widths'.of e) →
        (pack .wide widths' ops).length ≤ (pack .wide widths ops).length := by
  have hlength (w : Widths) : (pack .wide w ops).length = (runs w ops).length := by simp [pack]
  refine ⟨⟨runs widths ops, isCut_runs hwidths ops, rfl⟩, fun rs hrs => ?_,
    fun widths' hwider => ?_⟩
  · rw [hlength]
    exact hrs.length_runs_le
  · rw [hlength, hlength]
    exact ((isCut_runs hwidths ops).widen hwider).length_runs_le

/-- Three constants and a sum of two of them: a cut that starts with a single constant has no fewer
runs, and a third load port does not make more. -/
theorem pack_wide_fewest_three_loads :
    let ops : List Op := [.const ⟨0⟩ 5, .const ⟨1⟩ 7, .const ⟨2⟩ 9, .scalar .add ⟨3⟩ ⟨0⟩ ⟨1⟩]
    let rs : List (List Op) := [[.const ⟨0⟩ 5], [.const ⟨1⟩ 7, .const ⟨2⟩ 9],
      [.scalar .add ⟨3⟩ ⟨0⟩ ⟨1⟩]]
    (∀ e, e ≠ Engine.debug → 1 ≤ ({} : Widths).of e) ∧ IsCut {} ops rs ∧
      (pack .wide {} ops).length ≤ rs.length ∧
      (pack .wide (Widths.set {} .load 3) ops).length ≤ (pack .wide {} ops).length := by
  intro ops rs
  have hwidths : ∀ e, e ≠ Engine.debug → 1 ≤ ({} : Widths).of e := by
    intro e _
    cases e <;> decide
  have hcut : IsCut {} ops rs := by
    refine ⟨rfl, by simp [rs], fun r hr => ?_⟩
    simp only [rs, List.mem_cons, List.not_mem_nil, or_false] at hr
    rcases hr with rfl | rfl | rfl <;>
      exact ⟨fun e _ => by cases e <;> decide,
        by simp [Op.Spares, Op.const, Op.writes, Op.reads, LoadOp.writes, LoadOp.reads]⟩
  obtain ⟨-, hfewest, hwider⟩ := pack_wide_fewest hwidths ops
  refine ⟨hwidths, hcut, hfewest rs hcut, hwider _ fun e _ => ?_⟩
  cases e <;> decide

end Packing

end TreeWalk
