import TreeWalk.Proofs.CallMoments
import TreeWalk.Proofs.RestState

/-!
# Cores that have stopped

A stopped core is left alone by every cycle and is not woken by a call, so what has stopped a core
has stopped it for good. A halt stops its core unless a pause that counts stands behind it in the
bundle: the pause takes the run state over, and the next call lets the core go on.
-/

namespace TreeWalk

/-! ## Halts behind and before pauses -/

section Halts

variable {honorPause : Bool}

theorem restAfter_of_halt_notMem {ops : List FlowOp} (h : .halt ∉ ops) (state : RunState) :
    restAfter honorPause (ops.map .flow) state =
      if honorPause = true ∧ .pause ∈ ops then .paused else state := by
  induction ops generalizing state with
  | nil => simp
  | cons op rest ih =>
    obtain ⟨hop, hrest⟩ : .halt ≠ op ∧ .halt ∉ rest := by simpa using h
    rw [List.map_cons, restAfter_cons, ih hrest]
    by_cases hpause : op = .pause
    · subst hpause
      cases honorPause <;> simp [Op.rest?, FlowOp.rest?]
    · have hnone : op.rest? honorPause = none := by
        cases op <;> first | rfl | contradiction
      simp [Op.rest?, hnone, Ne.symm hpause]

/-- Of the operations of a bundle with a halt, it is the halt that decides if there is no pause that
counts behind the last one. -/
theorem restAfter_eq_stopped_iff {ops : List FlowOp} (h : .halt ∈ ops) (state : RunState) :
    restAfter honorPause (ops.map .flow) state = .stopped ↔
      (honorPause = true → ∃ before after, ops = before ++ .halt :: after ∧ .pause ∉ after) := by
  induction ops generalizing state with
  | nil => simp at h
  | cons op rest ih =>
    rw [List.map_cons, restAfter_cons]
    by_cases hrest : .halt ∈ rest
    · -- The last halt is further on, so this operation does not count.
      rw [ih hrest]
      refine imp_congr_right fun _ => ⟨?_, ?_⟩
      · rintro ⟨before, after, rfl, hafter⟩
        exact ⟨op :: before, after, rfl, hafter⟩
      · rintro ⟨before, after, heq, hafter⟩
        cases before with
        | nil =>
          obtain ⟨-, rfl⟩ := List.cons.inj heq
          obtain ⟨before, after', rfl⟩ := List.append_of_mem hrest
          exact ⟨before, after', rfl, fun hp => hafter (by simp [hp])⟩
        | cons first before => exact ⟨before, after, (List.cons.inj heq).2, hafter⟩
    · obtain rfl : .halt = op := (List.mem_cons.mp h).resolve_right hrest
      rw [restAfter_of_halt_notMem hrest]
      constructor
      · intro hstopped hhonor
        refine ⟨[], rest, rfl, fun hpause => ?_⟩
        simp [hhonor, hpause] at hstopped
      · intro hlast
        rw [if_neg]
        · rfl
        rintro ⟨hhonor, hpause⟩
        obtain ⟨before, after, heq, hafter⟩ := hlast hhonor
        cases before with
        | nil =>
          obtain ⟨-, rfl⟩ := List.cons.inj heq
          exact hafter hpause
        | cons first before =>
          have : FlowOp.halt ∈ rest := by simp [(List.cons.inj heq).2]
          exact hrest this

end Halts

namespace Machine

variable {m : Machine} {i : Nat} {core : Core} {b : Bundle} {r : Issued}

/-! ## What has stopped stays as it is -/

theorem Moment.Next.stopped {p q : Moment} (h : p.Next q)
    (hcore : p.machine.cores[i]? = some core) (hstopped : core.control.state = .stopped) :
    q.machine.cores[i]? = some core := by
  obtain ⟨-, rfl⟩ | hkept | ⟨hpaused, -⟩ := h.core_cases hcore
  · obtain hkept | ⟨hrunning, -⟩ | ⟨b, r, hissues⟩ := step_core_cases hcore
    · exact hkept
    · rw [hstopped] at hrunning
      cases hrunning
    · have hrunning := hissues.running
      rw [hstopped] at hrunning
      cases hrunning
  · exact hkept
  · rw [hstopped] at hpaused
    cases hpaused

theorem Moment.Leads.stopped {p q : Moment} (h : p.Leads q)
    (hcore : p.machine.cores[i]? = some core) (hstopped : core.control.state = .stopped) :
    q.machine.cores[i]? = some core := by
  induction h with
  | refl => exact hcore
  | tail _ hnext ih => exact hnext.stopped ih hstopped

/-! ## Halting -/

namespace Issues

theorem state_eq (h : m.Issues i core b r) (hfault : r.fault = none) :
    r.core.control.state = restAfter m.honorPause (b.flow.map .flow) .running := by
  rw [h.outcome] at hfault ⊢
  rw [Core.state_issue hfault, restAfter_issued]
  exact congrArg (restAfter m.honorPause _) h.running

/-- A core that has carried out a bundle with a halt is stopped, unless pauses count and one stands
behind the last halt, as it cannot where one flow operation is issued at a time. Once it is stopped,
it is left as it is and never issues a bundle again, whatever calls are made. -/
theorem halt_stops (h : m.Issues i core b r) (hfault : r.fault = none) (hhalt : .halt ∈ b.flow) :
    (r.core.control.state = .stopped ↔
      (m.honorPause = true →
        ∃ before after, b.flow = before ++ .halt :: after ∧ .pause ∉ after)) ∧
    (m.widths.flow ≤ 1 → r.core.control.state = .stopped) ∧
    (r.core.control.state = .stopped → ∀ q, m.afterStep.Leads q →
      q.machine.cores[i]? = some r.core ∧
        ∀ core' b' r', ¬ q.machine.Issues i core' b' r') := by
  have hiff : r.core.control.state = .stopped ↔ (m.honorPause = true →
      ∃ before after, b.flow = before ++ .halt :: after ∧ .pause ∉ after) := by
    rw [h.state_eq hfault]
    exact restAfter_eq_stopped_iff hhalt .running
  refine ⟨hiff, fun hwidth => ?_, fun hstopped q hleads => ?_⟩
  · have hwithin : b.Within m.widths := Core.within_of_issue (h.outcome ▸ hfault)
    have hlength : b.flow.length ≤ 1 :=
      Nat.le_trans (hwithin .flow (by simp [Engine.issuing])) hwidth
    obtain ⟨before, after, hsplit⟩ := List.append_of_mem hhalt
    rw [hsplit] at hlength
    have hafter : after = [] := by
      rw [← List.length_eq_zero_iff]
      simp only [List.length_append, List.length_cons] at hlength
      omega
    subst hafter
    exact hiff.mpr fun _ => ⟨before, [], hsplit, List.not_mem_nil⟩
  · have hkept : q.machine.cores[i]? = some r.core :=
      hleads.stopped h.step_eq.1 hstopped
    refine ⟨hkept, fun core' b' r' hissues => ?_⟩
    have hrunning := hissues.running
    obtain rfl : r.core = core' := Option.some.inj (hkept.symm.trans hissues.present)
    rw [hstopped] at hrunning
    cases hrunning

/-- Here the halt stands behind the pause. -/
theorem halt_stops_behind_pause :
    let b := Bundle.ofOps [.pause, .flow .halt]
    let m := solo (Array.replicate 4 0) #[0] (.ofList [b, .single (.const ⟨0⟩ 7)]) { flow := 2 }
    ∃ core r, m.Issues 0 core b r ∧ r.fault = none ∧ .halt ∈ b.flow ∧
      ∀ q, m.afterStep.Leads q → q.machine.cores[0]? = some r.core ∧
        ∀ core' b' r', ¬ q.machine.Issues 0 core' b' r' := by
  intro b m
  have hissues : m.Issues 0 ⟨0, Array.replicate 4 0, {}⟩ b _ := ⟨rfl, rfl, rfl, rfl, rfl⟩
  have hfault : (Core.issue ⟨0, Array.replicate 4 0, { pc := 1 }⟩ #[0] b { flow := 2 } true
    0).fault = none := by decide +kernel
  have hhalt : .halt ∈ b.flow := by decide +kernel
  obtain ⟨hiff, -, hkept⟩ := hissues.halt_stops hfault hhalt
  exact ⟨_, _, hissues, hfault, hhalt,
    hkept (hiff.mpr fun _ => ⟨[.pause], [], rfl, List.not_mem_nil⟩)⟩

/-- A pause behind the halt takes the run state over, and the next call lets the core go on. -/
theorem halted_core_issues_again :
    let b := Bundle.ofOps [.flow .halt, .pause]
    let next := Bundle.single (.const ⟨0⟩ 7)
    let m := solo (Array.replicate 4 0) #[0] (.ofList [b, next]) { flow := 2 }
    ∃ core r q core' r', m.Issues 0 core b r ∧ r.fault = none ∧ .halt ∈ b.flow ∧
      m.afterStep.Leads q ∧ q.machine.Issues 0 core' next r' ∧
      r'.core.scratch = #[7, 0, 0, 0] := by
  intro b next m
  have hissues : m.Issues 0 ⟨0, Array.replicate 4 0, {}⟩ b _ := ⟨rfl, rfl, rfl, rfl, rfl⟩
  have hfault : (Core.issue ⟨0, Array.replicate 4 0, { pc := 1 }⟩ #[0] b { flow := 2 } true
    0).fault = none := by decide +kernel
  have hstep : m.step.2 = none := by decide +kernel
  have hidle : m.step.1.isActive = false := by decide +kernel
  have hleads : m.afterStep.Leads ⟨m.step.1.resume, true⟩ := by
    rw [afterStep, hstep]
    exact ((Moment.Leads.refl _).next (.settle hidle)).next (.call _)
  have hagain : m.step.1.resume.Issues 0 ⟨0, Array.replicate 4 0, { pc := 1 }⟩ next _ :=
    ⟨by decide +kernel, rfl, rfl, by decide +kernel, rfl⟩
  exact ⟨_, _, _, _, _, hissues, hfault, by decide +kernel, hleads, hagain, by decide +kernel⟩

end Issues

end Machine

end TreeWalk
