import TreeWalk.Proofs.Lockstep
import TreeWalk.Proofs.PackedRun

/-!
# Halts and pauses in a bundle

Every operation of a bundle that halts or pauses the core sets the run state at once, over the one
that was there. So the last of them decides how the bundle leaves the core.
-/

namespace TreeWalk

/-- The run state that the operation puts a core into, if it is a halt or a pause that counts. -/
def FlowOp.rest? (honorPause : Bool) : FlowOp → Option RunState
  | .halt => some .stopped
  | .pause => if honorPause then some .paused else none
  | _ => none

def Op.rest? (honorPause : Bool) : Op → Option RunState
  | flow op => op.rest? honorPause
  | _ => none

/-- The run state after operations that find the core in the given one. -/
def restAfter (honorPause : Bool) (ops : List Op) (state : RunState) : RunState :=
  ops.foldl (fun state op => (op.rest? honorPause).getD state) state

section RestAfter

variable {honorPause : Bool} {state : RunState}

@[simp] theorem restAfter_nil (honorPause : Bool) (state : RunState) :
    restAfter honorPause [] state = state := rfl

@[simp] theorem restAfter_cons (honorPause : Bool) (op : Op) (ops : List Op) (state : RunState) :
    restAfter honorPause (op :: ops) state =
      restAfter honorPause ops ((op.rest? honorPause).getD state) := rfl

theorem restAfter_append (honorPause : Bool) (xs ys : List Op) (state : RunState) :
    restAfter honorPause (xs ++ ys) state =
      restAfter honorPause ys (restAfter honorPause xs state) := List.foldl_append

theorem Op.engine_eq_flow_of_rest? {op : Op} (h : op.rest? honorPause ≠ none) :
    op.engine = .flow := by
  cases op <;> first | rfl | exact absurd rfl h

theorem restAfter_filter_flow (ops : List Op) (state : RunState) :
    restAfter honorPause (ops.filter fun op => op.engine = .flow) state =
      restAfter honorPause ops state := by
  induction ops generalizing state with
  | nil => rfl
  | cons op rest ih =>
    by_cases hop : op.engine = .flow
    · rw [List.filter_cons_of_pos (by simpa using hop), restAfter_cons, restAfter_cons, ih]
    · have hnone : op.rest? honorPause = none := by
        by_contra hne
        exact hop (Op.engine_eq_flow_of_rest? hne)
      rw [List.filter_cons_of_neg (by simpa using hop), ih, restAfter_cons, hnone]
      rfl

theorem restAfter_issued (b : Bundle) (state : RunState) :
    restAfter honorPause b.issued state = restAfter honorPause (b.on .flow) state := by
  rw [← restAfter_filter_flow, Bundle.filter_engine_issued b (by decide)]

theorem restAfter_issued_ofOps (run : List Op) (state : RunState) :
    restAfter honorPause (Bundle.ofOps run).issued state = restAfter honorPause run state := by
  rw [restAfter_issued, Bundle.on_ofOps, restAfter_filter_flow]

end RestAfter

/-! ## The run state that a bundle leaves -/

theorem Control.state_jump {v : View} {c c' : Control} {target : Int}
    (h : c.jump v target = .ok c') : c'.state = c.state := by
  unfold Control.jump at h
  split at h
  · cases h
    rfl
  · cases h

theorem FlowOp.state_effect {op : FlowOp} {v : View} {c : Control} {e : Effect}
    (h : op.effect v c = .ok e) : e.control.state = (op.rest? v.honorPause).getD c.state := by
  cases op with
  | halt =>
    cases h
    rfl
  | pause =>
    cases h
    simp only [rest?]
    split <;> rfl
  | select | addImm | blockSelect | trace | coreId =>
    simp only [FlowOp.effect, bind_eq_ok_iff, pure_eq_ok_iff] at h
    grind [FlowOp.rest?]
  | jumpIf | jumpByIf =>
    simp only [FlowOp.effect, bind_eq_ok_iff] at h
    obtain ⟨choice, -, h⟩ := h
    split at h
    all_goals
      simp only [bind_eq_ok_iff, pure_eq_ok_iff] at h
      obtain ⟨control, hcontrol, rfl⟩ := h
    · exact Control.state_jump hcontrol
    · rw [← hcontrol]
      rfl
  | jump =>
    simp only [FlowOp.effect, bind_eq_ok_iff, pure_eq_ok_iff] at h
    obtain ⟨control, hcontrol, rfl⟩ := h
    exact Control.state_jump hcontrol
  | jumpTo =>
    simp only [FlowOp.effect, bind_eq_ok_iff, pure_eq_ok_iff] at h
    obtain ⟨target, -, control, hcontrol, rfl⟩ := h
    exact Control.state_jump hcontrol

theorem Op.state_effect {op : Op} {v : View} {c : Control} {e : Effect}
    (h : op.effect v c = .ok e) : e.control.state = (op.rest? v.honorPause).getD c.state := by
  cases op with
  | flow op => exact FlowOp.state_effect h
  | note text =>
    cases h
    rfl
  | alu op | valu op | load op | store op =>
    simp only [Op.effect, bind_eq_ok_iff, pure_eq_ok_iff] at h
    obtain ⟨ws, -, rfl⟩ := h
    rfl

theorem state_collect {v : View} {ops : List Op} {e e' : Effect}
    (h : collect v ops e = (e', none)) :
    e'.control.state = restAfter v.honorPause ops e.control.state := by
  induction ops generalizing e with
  | nil =>
    cases h
    rfl
  | cons op rest ih =>
    simp only [collect] at h
    split at h
    · cases h
    · rename_i next hnext
      rw [ih h, restAfter_cons, Op.state_effect hnext]

namespace Core

variable {core : Core} {mem : Array Word} {b : Bundle} {widths : Widths} {honorPause : Bool}
  {pc : Nat}

/-- A bundle that goes well leaves the run state that its last halt or pause sets. -/
theorem state_issue (h : (core.issue mem b widths honorPause pc).fault = none) :
    (core.issue mem b widths honorPause pc).core.control.state =
      restAfter honorPause b.issued core.control.state := by
  obtain ⟨hcollected, -⟩ := collected_of_fault_eq_none h
  have hcollect := hcollected
  rw [collectEngines_eq_collect (count_le_of_collectEngines hcollected)] at hcollect
  rw [issue_eq, hcollected]
  dsimp only
  rw [control_commit]
  exact state_collect hcollect

theorem within_of_issue (h : (core.issue mem b widths honorPause pc).fault = none) :
    b.Within widths := count_le_of_collectEngines (collected_of_fault_eq_none h).1

end Core

end TreeWalk
