import TreeWalk.Proofs.Lockstep

/-!
# Pauses do not show in the result

A machine of one core that does not honour pauses runs through them. The same machine, honouring
them, rests at each and is resumed by the next call. Where a bundle takes at most one flow
operation, a pause is the last operation of its bundle, and the two machines differ after it in the
run state of the core alone. So the calls, as many as there are, end where the single run ends, also
in programs that jump and pause in loops.
-/

namespace TreeWalk

theorem Op.state_effect_ne_paused {op : Op} {v : View} {c : Control} {e : Effect}
    (hpause : v.honorPause = false) (hstate : c.state ≠ .paused) (h : op.effect v c = .ok e) :
    e.control.state ≠ .paused := by
  cases op with
  | note text =>
    simp only [Op.effect, pure_eq_ok_iff] at h
    rwa [← h]
  | alu op | valu op | load op | store op =>
    simp only [Op.effect, bind_eq_ok_iff, pure_eq_ok_iff] at h
    obtain ⟨ws, -, rfl⟩ := h
    exact hstate
  | flow op =>
    cases op with
    | halt =>
      simp only [Op.effect, FlowOp.effect, pure_eq_ok_iff] at h
      rw [← h]
      exact RunState.noConfusion
    | jumpIf | jumpByIf =>
      simp only [Op.effect, FlowOp.effect, bind_eq_ok_iff, Control.jump] at h
      obtain ⟨choice, -, h⟩ := h
      grind [pure_eq_ok_iff, bind_eq_ok_iff]
    | jump | jumpTo | pause | select | addImm | blockSelect | trace | coreId =>
      simp only [Op.effect, FlowOp.effect, bind_eq_ok_iff, pure_eq_ok_iff, Control.jump] at h
      grind

theorem collect_state_ne_paused {v : View} (hpause : v.honorPause = false) {ops : List Op}
    {e e' : Effect} (hstate : e.control.state ≠ .paused) (h : collect v ops e = (e', none)) :
    e'.control.state ≠ .paused := by
  induction ops generalizing e with
  | nil =>
    cases h
    exact hstate
  | cons op rest ih =>
    simp only [collect] at h
    split at h
    · cases h
    · rename_i next hnext
      have hstate' := Op.state_effect_ne_paused hpause hstate hnext
      exact ih (e := ⟨e.scratch ++ next.scratch, e.mem ++ next.mem, next.control⟩) hstate' h

theorem collect_snoc_pause {v : View} {ops : List Op} {e e' : Effect}
    (h : collect v ops e = (e', none)) :
    collect v (ops ++ [.pause]) e =
      ({ e' with control :=
          if v.honorPause then { e'.control with state := .paused } else e'.control }, none) := by
  rw [collect_append, h]
  simp [collect, Op.pause, Op.effect, FlowOp.effect, pure, Except.pure]

theorem Bundle.issued_of_pauses {b : Bundle} (hpauses : b.pauses = true)
    (hflow : b.count .flow ≤ 1) :
    ∃ before : List Op, b.issued = before ++ [.pause] ∧
      ∀ op ∈ before, op.goesOn = true ∧ op ≠ .pause := by
  have hmem : FlowOp.pause ∈ b.flow := by simpa [pauses] using hpauses
  obtain ⟨before, after, hsplit⟩ := List.append_of_mem hmem
  have hb : b.flow = [.pause] := by
    rw [count, hsplit, List.length_append, List.length_cons] at hflow
    rw [hsplit, List.eq_nil_of_length_eq_zero (by omega : before.length = 0),
      List.eq_nil_of_length_eq_zero (by omega : after.length = 0)]
    rfl
  refine ⟨b.on .alu ++ b.on .valu ++ b.on .load ++ b.on .store, ?_, ?_⟩
  · simp [issued, Engine.issuing, on, hb, Op.pause]
  · intro op hop
    simp only [on, List.mem_append, List.mem_map] at hop
    rcases hop with ((⟨x, -, rfl⟩ | ⟨x, -, rfl⟩) | ⟨x, -, rfl⟩) | ⟨x, -, rfl⟩ <;>
      exact ⟨rfl, Op.noConfusion⟩

namespace Core

variable {core next : Core} {mem mem' : Array Word} {b : Bundle} {widths : Widths} {pc : Nat}

def paused (core : Core) : Core := { core with control.state := .paused }

theorem issue_state_ne_paused (hstate : core.control.state ≠ .paused)
    (h : core.issue mem b widths false pc = ⟨next, mem', none⟩) :
    next.control.state ≠ .paused := by
  have hgood : (core.issue mem b widths false pc).fault = none := by rw [h]
  obtain ⟨hcollected, -⟩ := collected_of_fault_eq_none hgood
  have hcontrol := control_commit (core.asked mem b widths false pc) core.id core.scratch mem
  rw [issue_eq, hcollected] at h
  dsimp only at h
  rw [h] at hcontrol
  rw [collectEngines_eq_collect (count_le_of_collectEngines hcollected)] at hcollected
  rw [show next.control = _ from hcontrol]
  exact collect_state_ne_paused rfl hstate hcollected

theorem issue_of_not_pauses (hb : b.pauses = false) (honorPause : Bool) :
    core.issue mem b widths honorPause pc = core.issue mem b widths false pc := by
  have hcollect : collectEngines (core.view mem honorPause pc) widths b Engine.issuing
        { control := core.control } =
      collectEngines (core.view mem false pc) widths b Engine.issuing
        { control := core.control } := by
    apply collectEngines_congr (show (core.view mem honorPause pc).pc = pc from rfl)
    intro engine hengine op hop c
    refine Op.effect_congr_view rfl rfl rfl (fun _ _ => rfl) (fun hpause => ?_)
    have hissued : Op.pause ∈ b.issued := List.mem_flatMap.mpr ⟨engine, hengine, hpause ▸ hop⟩
    rw [Bundle.pauses_eq_true_iff.mpr hissued] at hb
    cases hb
  rw [issue_eq, issue_eq, hcollect]

/-- A bundle with a pause, which leaves a core running where pauses are not honoured, leaves the
same core at rest where they are. -/
theorem issue_of_pauses (hb : b.pauses = true) (hwidth : widths.flow ≤ 1)
    (hrunning : core.control.state = .running)
    (h : core.issue mem b widths false pc = ⟨next, mem', none⟩) :
    next.control.state = .running ∧
      core.issue mem b widths true pc = ⟨next.paused, mem', none⟩ := by
  have hgood : (core.issue mem b widths false pc).fault = none := by rw [h]
  obtain ⟨hcollected, hwrite⟩ := collected_of_fault_eq_none hgood
  have hcount := count_le_of_collectEngines hcollected
  have hflow : b.count .flow ≤ 1 := Nat.le_trans (hcount .flow (by decide)) hwidth
  obtain ⟨before, hissued, hbefore⟩ := Bundle.issued_of_pauses hb hflow
  have hissues (honorPause : Bool) : collectEngines (core.view mem honorPause pc) widths b
        Engine.issuing { control := core.control } =
      collect (core.view mem honorPause pc) (before ++ [.pause]) { control := core.control } := by
    rw [collectEngines_eq_collect hcount, ← hissued]
    rfl
  have hbefore_eq : collect (core.view mem true pc) before { control := core.control } =
      collect (core.view mem false pc) before { control := core.control } := by
    refine collect_congr (fun op hop c => ?_) _
    exact Op.effect_congr_view rfl rfl rfl (fun _ _ => rfl)
      (fun hpause => absurd hpause (hbefore op hop).2)
  rcases hfront : collect (core.view mem false pc) before { control := core.control } with
    ⟨e, fault⟩
  cases fault with
  | some f =>
    rw [hissues, collect_append, hfront] at hcollected
    cases (Prod.mk.inj hcollected).2
  | none =>
    obtain ⟨-, hstate⟩ := control_collect_of_goesOn (fun op hop => (hbefore op hop).1) hfront
    rw [issue_eq, hissues, collect_snoc_pause hfront] at h
    rw [issue_eq, hissues, collect_snoc_pause (hbefore_eq.trans hfront)]
    simp only [Effect.commit, view] at h ⊢
    rcases hw : Scratch.write e.scratch core.scratch with ⟨scratch, fault⟩
    rw [hw] at h
    cases fault with
    | some f => cases (Issued.mk.inj h).2.2
    | none =>
      obtain ⟨rfl, rfl, -⟩ := Issued.mk.inj h
      exact ⟨by simpa [view, hrunning] using hstate, rfl⟩

/-- What a core does in a cycle where pauses are not honoured it does also where they are, but that
it may come to rest after it. -/
theorem advance_honorPause {p : Program} {effective : Bool} (hwidth : widths.flow ≤ 1)
    (hrunning : core.control.state = .running)
    (h : Machine.advance p widths false core mem = (⟨next, mem', none⟩, effective)) :
    next.control.state ≠ .paused ∧
      (Machine.advance p widths true core mem = (⟨next, mem', none⟩, effective) ∨
        next.control.state = .running ∧
          Machine.advance p widths true core mem = (⟨next.paused, mem', none⟩, effective)) := by
  simp only [Machine.advance, hrunning, ne_eq, not_true_eq_false, if_false] at h ⊢
  cases hb : p.get? core.control.pc with
  | none =>
    rw [hb] at h
    obtain ⟨hissued, rfl⟩ := Prod.mk.inj h
    obtain ⟨rfl, rfl, -⟩ := Issued.mk.inj hissued
    exact ⟨RunState.noConfusion, .inl rfl⟩
  | some b =>
    rw [hb] at h
    obtain ⟨hissue, rfl⟩ := Prod.mk.inj h
    dsimp only at hissue ⊢
    cases hpauses : b.pauses with
    | false =>
      rw [issue_of_not_pauses hpauses, hissue]
      refine ⟨?_, .inl rfl⟩
      exact issue_state_ne_paused RunState.noConfusion hissue
    | true =>
      obtain ⟨hstate, hon⟩ := issue_of_pauses hpauses hwidth rfl hissue
      rw [hon, hstate]
      exact ⟨RunState.noConfusion, .inr ⟨rfl, rfl⟩⟩

end Core

namespace Machine

/-- Calls, none of which faults, take the machine `m` to the machine `n`, and no call is made of a
machine that is finished. -/
inductive Finishes : (m : Machine) → (calls : Nat) → (n : Machine) → Prop where
  | done {m : Machine} : m.isFinished = true → Finishes m 0 m
  | call {m n o : Machine} {calls : Nat} :
    m.isFinished = false → m.Ends .settled n → Finishes n calls o → Finishes m (calls + 1) o

/-- The call that the machine is in comes to its end, and calls after it finish the machine. -/
def RunsOut (m n : Machine) : Prop :=
  ∃ limit rest calls, m.runFor limit = (.settled, rest) ∧ rest.Finishes calls n

def honoring (m : Machine) (honorPause : Bool) : Machine := { m with honorPause }

def afterCycle (m : Machine) (next : Core) (mem : Array Word) (effective : Bool) : Machine :=
  { m with cores := [next], mem, cycle := if effective then m.cycle + 1 else m.cycle }

variable {m n : Machine} {core next : Core} {mem : Array Word} {honorPause effective : Bool}

/-! ## A machine of one core -/

theorem isActive_of_cores_eq (hcores : m.cores = [core]) :
    m.isActive = decide (core.control.state = .running) := by
  simp [isActive, hcores]

theorem isFinished_of_cores_eq (hcores : m.cores = [core]) :
    m.isFinished = decide (core.control.state = .stopped) := by
  simp [isFinished, hcores]

theorem runFor_of_not_running (hcores : m.cores = [core])
    (hidle : core.control.state ≠ .running) (limit : Nat) : m.runFor limit = (.settled, m) := by
  apply runFor_of_not_isActive
  rw [isActive_of_cores_eq hcores]
  exact decide_eq_false hidle

theorem resume_eq_self (hcores : m.cores = [core]) (hstate : core.control.state ≠ .paused) :
    m.resume = m := by
  rcases m with ⟨cores, mem, program, regions, widths, cycle, honorPause⟩
  obtain rfl : cores = [core] := hcores
  simp [resume, hstate]

theorem exists_running_of_resume (hcores : m.cores = [core])
    (hs : core.control.state ≠ .stopped) :
    ∃ woken, m.resume.cores = [woken] ∧ woken.control.state = .running := by
  cases hstate : core.control.state with
  | stopped => exact absurd hstate hs
  | running =>
    refine ⟨core, ?_, hstate⟩
    rw [resume_eq_self hcores (by rw [hstate]; exact RunState.noConfusion), hcores]
  | paused =>
    refine ⟨{ core with control.state := .running }, ?_, rfl⟩
    simp [resume, hcores, hstate]

theorem resume_afterCycle_paused (hrunning : next.control.state = .running) :
    (m.afterCycle next.paused mem effective).resume = m.afterCycle next mem effective := by
  rcases next with ⟨id, scratch, pc, state, trace⟩
  obtain rfl : state = .running := hrunning
  rfl

theorem runFor_of_advance (hcores : m.cores = [core]) (hrunning : core.control.state = .running)
    (h : advance m.program m.widths honorPause core m.mem = (⟨next, mem, none⟩, effective))
    (limit : Nat) :
    (m.honoring honorPause).runFor (limit + 1) =
      ((m.afterCycle next mem effective).honoring honorPause).runFor limit := by
  have hcores' : (m.honoring honorPause).cores = [core] := hcores
  rw [runFor, isActive_of_cores_eq hcores', hrunning, step_of_cores_eq hcores']
  simp only [honoring, h]
  rfl

theorem runFor_of_advance_fault {fault : Fault} (hcores : m.cores = [core])
    (hrunning : core.control.state = .running)
    (h : advance m.program m.widths honorPause core m.mem = (⟨next, mem, some fault⟩, effective))
    (limit : Nat) : ((m.honoring honorPause).runFor (limit + 1)).1 = .faulted fault := by
  have hcores' : (m.honoring honorPause).cores = [core] := hcores
  rw [runFor, isActive_of_cores_eq hcores', hrunning, step_of_cores_eq hcores']
  simp only [honoring, h]
  rfl

/-! ## Running out -/

theorem Finishes.of_stopped (hcores : m.cores = [core]) (hs : core.control.state = .stopped) :
    m.Finishes 0 m := by
  apply Finishes.done
  rw [isFinished_of_cores_eq hcores]
  exact decide_eq_true hs

theorem Finishes.of_runsOut (hcores : m.cores = [core]) (hs : core.control.state ≠ .stopped)
    (h : m.resume.RunsOut n) : ∃ calls, m.Finishes calls n := by
  obtain ⟨limit, rest, calls, hrun, hrest⟩ := h
  have hunfinished : m.isFinished = false := by
    rw [isFinished_of_cores_eq hcores]
    exact decide_eq_false hs
  exact ⟨calls + 1, .call hunfinished ⟨by simp, limit, hrun⟩ hrest⟩

theorem RunsOut.of_not_running (hcores : m.cores = [core]) (hidle : core.control.state ≠ .running)
    {calls : Nat} (h : m.Finishes calls n) : m.RunsOut n :=
  ⟨0, m, calls, runFor_of_not_running hcores hidle 0, h⟩

theorem RunsOut.of_advance (hcores : m.cores = [core]) (hrunning : core.control.state = .running)
    (h : advance m.program m.widths honorPause core m.mem = (⟨next, mem, none⟩, effective))
    (hnext : ((m.afterCycle next mem effective).honoring honorPause).RunsOut n) :
    (m.honoring honorPause).RunsOut n := by
  obtain ⟨limit, rest, calls, hrun, hrest⟩ := hnext
  exact ⟨limit + 1, rest, calls, (runFor_of_advance hcores hrunning h limit).trans hrun, hrest⟩

theorem RunsOut.of_paused (hrunning : next.control.state = .running)
    (h : ((m.afterCycle next mem effective).honoring honorPause).RunsOut n) :
    ((m.afterCycle next.paused mem effective).honoring honorPause).RunsOut n := by
  have hresume : ((m.afterCycle next.paused mem effective).honoring honorPause).resume =
      (m.afterCycle next mem effective).honoring honorPause :=
    congrArg (honoring · honorPause) (resume_afterCycle_paused hrunning)
  rw [← hresume] at h
  have hcores : ((m.afterCycle next.paused mem effective).honoring honorPause).cores =
      [next.paused] := rfl
  obtain ⟨calls, hcalls⟩ := Finishes.of_runsOut hcores RunState.noConfusion h
  exact .of_not_running hcores RunState.noConfusion hcalls

/-- A running core whose run ends where pauses are not honoured has stopped then, and comes to the
same end where they are, within its call or a later one. -/
theorem runsOut_of_runFor (hcores : m.cores = [core]) (hwidth : m.widths.flow ≤ 1)
    (hrunning : core.control.state = .running) {limit : Nat}
    (h : (m.honoring false).runFor limit = (.settled, n)) :
    (∃ last, n.cores = [last] ∧ last.control.state = .stopped) ∧
      (m.honoring true).RunsOut (n.honoring true) := by
  induction limit generalizing m core with
  | zero =>
    have hcores' : (m.honoring false).cores = [core] := hcores
    rw [runFor, isActive_of_cores_eq hcores', hrunning] at h
    cases (Prod.mk.inj h).1
  | succ limit ih =>
    rcases ha : advance m.program m.widths false core m.mem with ⟨⟨next, mem, fault⟩, effective⟩
    cases fault with
    | some f =>
      have hfault := runFor_of_advance_fault hcores hrunning ha limit
      rw [h] at hfault
      cases hfault
    | none =>
      obtain ⟨hstate, hnext⟩ := Core.advance_honorPause hwidth hrunning ha
      rw [runFor_of_advance hcores hrunning ha] at h
      have hcores' (honorPause : Bool) :
          ((m.afterCycle next mem effective).honoring honorPause).cores = [next] := rfl
      -- the machine after the cycle, on which the two switches agree
      have hend : (∃ last, n.cores = [last] ∧ last.control.state = .stopped) ∧
          ((m.afterCycle next mem effective).honoring true).RunsOut (n.honoring true) := by
        cases hs : next.control.state with
        | paused => exact absurd hs hstate
        | running => exact ih (hcores' false) hwidth hs h
        | stopped =>
          have hidle : next.control.state ≠ .running := by rw [hs]; exact RunState.noConfusion
          rw [runFor_of_not_running (hcores' false) hidle] at h
          obtain rfl := (Prod.mk.inj h).2
          exact ⟨⟨next, rfl, hs⟩,
            .of_not_running (hcores' true) hidle (.of_stopped (hcores' true) hs)⟩
      refine ⟨hend.1, ?_⟩
      rcases hnext with hon | ⟨hrunning', hon⟩
      · exact .of_advance hcores hrunning hon hend.2
      · exact .of_advance hcores hrunning hon (.of_paused hrunning' hend.2)

/-- On one core, with at most one flow operation in a bundle, pauses do not show in the result.
Where the run of a machine that does not honour them ends without a fault, the core has stopped,
and the machine that honours them is finished after some calls, none of which faults. It is then
the same machine, with the same scratch, memory, trace and cycles. -/
theorem finishes_as_without_pauses (hcores : m.cores = [core]) (hwidth : m.widths.flow ≤ 1)
    (h : (m.honoring false).Ends .settled n) :
    (∃ last, n.cores = [last] ∧ last.control.state = .stopped) ∧
      ∃ calls, (m.honoring true).Finishes calls (n.honoring true) := by
  obtain ⟨-, limit, hrun⟩ := h
  have hresume (honorPause : Bool) :
      (m.honoring honorPause).resume = m.resume.honoring honorPause := rfl
  rw [hresume] at hrun
  cases hs : core.control.state with
  | stopped =>
    rw [resume_eq_self hcores (by rw [hs]; exact RunState.noConfusion),
      runFor_of_not_running (m := m.honoring false) hcores
        (by rw [hs]; exact RunState.noConfusion)] at hrun
    obtain rfl := (Prod.mk.inj hrun).2
    exact ⟨⟨core, hcores, hs⟩, 0, .of_stopped (m := m.honoring true) hcores hs⟩
  | running | paused =>
    have hs' : core.control.state ≠ .stopped := by rw [hs]; exact RunState.noConfusion
    obtain ⟨woken, hwoken, hrunning⟩ := exists_running_of_resume hcores hs'
    obtain ⟨hlast, hout⟩ := runsOut_of_runFor hwoken hwidth hrunning hrun
    exact ⟨hlast, Finishes.of_runsOut (m := m.honoring true) hcores hs' hout⟩

/-- A loop that starts with a pause and counts from 3 to 0, with a pause behind it. -/
theorem finishes_as_without_pauses_loop :
    let p : Program := .ofList [.ofOps [.const ⟨0⟩ 3, .const ⟨1⟩ 1], .single .pause,
      .ofOps [.scalar .sub ⟨0⟩ ⟨0⟩ ⟨1⟩, .flow (.trace ⟨0⟩)], .single (.flow (.jumpIf ⟨0⟩ 1)),
      .single .pause]
    let m := solo (Array.replicate 4 0) #[] p {}
    ∃ n, (m.honoring false).Ends .settled n ∧ n.cycle = 11 ∧
      n.cores.map (·.control.trace) = [#[3, 2, 1]] ∧
      (∃ last, n.cores = [last] ∧ last.control.state = .stopped) ∧
      ∃ calls, (m.honoring true).Finishes calls (n.honoring true) := by
  intro p m
  obtain ⟨n, hends, hcycle, htrace⟩ : ∃ n, (m.honoring false).Ends .settled n ∧ n.cycle = 11 ∧
      n.cores.map (·.control.trace) = [#[3, 2, 1]] := by
    refine ⟨((m.honoring false).resume.runFor 12).2, ⟨by simp, 12, Prod.ext ?_ rfl⟩, ?_, ?_⟩
    all_goals decide +kernel
  have hcores : m.cores = [⟨0, Array.replicate 4 0, {}⟩] := rfl
  exact ⟨n, hends, hcycle, htrace, finishes_as_without_pauses hcores (by decide) hends⟩

end Machine

end TreeWalk
