import TreeWalk.Proofs.JumpTargets

/-!
# Cores beyond the end of the program

A core stands inside the program or at its end, unless a jump has led it further. There it never
issues a bundle again, and it stops, without a fault, as soon as its turn comes.
-/

namespace TreeWalk

namespace Machine

variable {m n : Machine} {i limit : Nat} {core : Core} {b : Bundle} {r : Issued}

/-- The targets of the jumps that the core with number `i` takes when it issues `b` in the coming
cycle. -/
def jumps (m : Machine) (i : Nat) (core : Core) (b : Bundle) : List Int :=
  Core.jumps { core with control.pc := core.control.pc + 1 } (m.sweptBefore i).mem b m.widths
    m.honorPause core.control.pc

namespace Issues

theorem pc_lt (h : m.Issues i core b r) : core.control.pc < m.program.size :=
  (Array.getElem?_eq_some_iff.mp h.bundle).1

theorem pc_eq (h : m.Issues i core b r) :
    r.core.control.pc = landing (core.control.pc + 1) (m.jumps i core b) := by
  rw [h.outcome]
  exact (Core.issue_jumps _ _ b m.widths m.honorPause core.control.pc).1

theorem fault_eq_iff (h : m.Issues i core b r) (pc : Nat) (t : Int) :
    r.fault = some (.invalidJumpTarget pc t) ↔
      pc = core.control.pc ∧ t ∈ m.jumps i core b ∧ t < 0 := by
  rw [h.outcome, (Core.issue_jumps _ _ b m.widths m.honorPause core.control.pc).2 _ rfl]
  constructor
  · rintro ⟨t, ht, hneg, heq⟩
    cases heq
    exact ⟨rfl, ht, hneg⟩
  · rintro ⟨rfl, ht, hneg⟩
    exact ⟨t, ht, hneg, rfl⟩

theorem ends (h : m.Issues i core b r) {fault : Fault} (hfault : r.fault = some fault)
    (hcall : n.resume.runFor limit = (.unfinished, m)) : n.Ends (.faulted fault) m.step.1 := by
  refine ⟨by simp, limit + 1, ?_⟩
  rw [runFor_add hcall, runFor, h.isActive, if_pos rfl]
  have hstep : m.step = (m.step.1, some fault) := Prod.ext rfl (h.step_eq.2 fault hfault)
  rw [hstep]

end Issues

/-! ## Beyond the end -/

theorem not_issues_of_size_le (hcore : m.cores[i]? = some core)
    (hsize : m.program.size ≤ core.control.pc) (core' : Core) (b : Bundle) (r : Issued) :
    ¬ m.Issues i core' b r := by
  intro h
  obtain rfl : core = core' := Option.some.inj (hcore.symm.trans h.present)
  exact Nat.not_lt.mpr hsize h.pc_lt

namespace Moment

variable {start p q : Moment}

theorem Next.beyond (h : p.Next q) (hcore : p.machine.cores[i]? = some core)
    (hsize : p.machine.program.size ≤ core.control.pc) :
    ∃ state, q.machine.cores[i]? = some { core with control.state := state } := by
  obtain ⟨-, rfl⟩ | hkept | ⟨-, hwoken⟩ := h.core_cases hcore
  · obtain hkept | ⟨-, -, hstopped⟩ | ⟨b, r, hissues⟩ := step_core_cases hcore
    · exact ⟨_, hkept⟩
    · exact ⟨_, hstopped⟩
    · exact absurd hissues (not_issues_of_size_le hcore hsize core b r)
  · exact ⟨_, hkept⟩
  · exact ⟨_, hwoken⟩

theorem Leads.beyond (h : p.Leads q) (hcore : p.machine.cores[i]? = some core)
    (hsize : p.machine.program.size ≤ core.control.pc) :
    ∃ state, q.machine.cores[i]? = some { core with control.state := state } := by
  induction h with
  | refl => exact ⟨_, hcore⟩
  | @tail q q' hleads hnext ih =>
    obtain ⟨state, hkept⟩ := ih
    rw [← Leads.program_eq hleads] at hsize
    obtain ⟨state', hkept'⟩ := hnext.beyond hkept hsize
    exact ⟨state', hkept'⟩

/-! ## How a core comes to stand where it does -/

/-- Between the two moments the core has issued its last bundle, and a jump of it has led it where
it stands. -/
def HasJumped (start q : Moment) (i : Nat) (core : Core) : Prop :=
  ∃ p before b r state, start.Leads p ∧ p.inCall = true ∧ p.machine.afterStep.Leads q ∧
    p.machine.Issues i before b r ∧ (core.control.pc : Int) ∈ p.machine.jumps i before b ∧
    core = { r.core with control.state := state }

theorem HasJumped.next (h : start.HasJumped p i core) (hnext : p.Next q) (state : RunState) :
    start.HasJumped q i { core with control.state := state } := by
  obtain ⟨o, before, b, r, _, hleads, hcall, hleads', hissues, hmem, rfl⟩ := h
  exact ⟨o, before, b, r, state, hleads, hcall, hleads'.next hnext, hissues, hmem, rfl⟩

theorem Leads.pc_le_size_or_hasJumped (hstart : ∀ core ∈ start.machine.cores,
      core.control.pc ≤ start.machine.program.size) (h : start.Leads q) :
    ∀ i core, q.machine.cores[i]? = some core →
      core.control.pc ≤ start.machine.program.size ∨ start.HasJumped q i core := by
  induction h with
  | refl => exact fun i core hcore => .inl (hstart core (List.mem_of_getElem? hcore))
  | @tail p q hleads hnext ih =>
    intro i next hcore'
    obtain ⟨core, hcore⟩ : ∃ core, p.machine.cores[i]? = some core := by
      have hlt := (List.getElem?_eq_some_iff.mp hcore').1
      rw [hnext.length_cores] at hlt
      exact ⟨_, List.getElem?_eq_getElem hlt⟩
    -- Where only the run state changes, the core stands as before.
    have hsame (state : RunState)
        (hkept : q.machine.cores[i]? = some { core with control.state := state }) :
        next.control.pc ≤ start.machine.program.size ∨ start.HasJumped q i next := by
      obtain rfl := Option.some.inj (hcore'.symm.trans hkept)
      exact (ih i core hcore).imp_right fun hjumped => hjumped.next hnext state
    obtain ⟨hcall, rfl⟩ | hkept | ⟨-, hwoken⟩ := hnext.core_cases hcore
    · obtain hkept | ⟨-, -, hstopped⟩ | ⟨b, r, hissues⟩ := step_core_cases hcore
      · exact hsame _ hkept
      · exact hsame _ hstopped
      · obtain rfl := Option.some.inj (hcore'.symm.trans hissues.step_eq.1)
        rcases landing_cases (core.control.pc + 1) (p.machine.jumps i core b) with hpc | hpc
        · left
          rw [hissues.pc_eq, hpc, ← Leads.program_eq hleads]
          exact hissues.pc_lt
        · right
          rw [← hissues.pc_eq] at hpc
          exact ⟨p, core, b, r, _, hleads, hcall, .refl _, hissues, hpc, rfl⟩
    · exact hsame _ hkept
    · exact hsame _ hwoken

end Moment

/-- Where the cores of a machine stand whose cores have started inside the program, whatever calls
are made: inside the program or at its end, unless a jump of the last bundle has led further. A jump
is a fault exactly when its target is negative. Beyond the end a core issues nothing, and it stops
without a fault when its turn comes. -/
theorem pc_le_size_unless_jumped {q : Moment}
    (hstart : ∀ core ∈ m.cores, core.control.pc ≤ m.program.size)
    (h : Moment.Leads ⟨m, false⟩ q) :
    (∀ i core, q.machine.cores[i]? = some core →
      core.control.pc ≤ m.program.size ∨ Moment.HasJumped ⟨m, false⟩ q i core) ∧
    (∀ i core b r, q.machine.Issues i core b r →
      r.core.control.pc = landing (core.control.pc + 1) (q.machine.jumps i core b) ∧
      ∀ pc t, (r.fault = some (.invalidJumpTarget pc t) ↔
          pc = core.control.pc ∧ t ∈ q.machine.jumps i core b ∧ t < 0) ∧
        (r.fault = some (.invalidJumpTarget pc t) →
          ∀ (n : Machine) limit, n.resume.runFor limit = (.unfinished, q.machine) →
            n.Ends (.faulted (.invalidJumpTarget pc t)) q.machine.step.1)) ∧
    (∀ i core, q.machine.cores[i]? = some core → m.program.size ≤ core.control.pc →
      (core.control.state = .running → (q.machine.sweptBefore i).fault = none →
        q.machine.step.1.cores[i]? = some { core with control.state := .stopped } ∧
          (q.machine.sweptBefore (i + 1)).fault = none) ∧
      ∀ q', q.Leads q' →
        (∃ state, q'.machine.cores[i]? = some { core with control.state := state }) ∧
        ∀ core' b r, ¬ q'.machine.Issues i core' b r) := by
  have hprogram : q.machine.program = m.program := h.program_eq
  refine ⟨h.pc_le_size_or_hasJumped hstart, fun i core b r hissues => ?_,
    fun i core hcore hsize => ⟨fun hrunning hturn => ?_, fun q' hleads => ?_⟩⟩
  · exact ⟨hissues.pc_eq, fun pc t =>
      ⟨hissues.fault_eq_iff pc t, fun hfault n limit hcall => hissues.ends hfault hcall⟩⟩
  · have hbundle : q.machine.program.get? core.control.pc = none := by
      rw [hprogram]
      exact Array.getElem?_eq_none hsize
    exact step_of_get?_eq_none hcore hrunning hbundle hturn
  · rw [← hprogram] at hsize
    obtain ⟨state, hkept⟩ := hleads.beyond hcore hsize
    refine ⟨⟨state, hkept⟩, ?_⟩
    rw [← hleads.program_eq] at hsize
    exact not_issues_of_size_le hkept hsize

/-- The second bundle jumps back by more bundles than there are. -/
theorem pc_le_size_unless_jumped_back :
    let m := solo (Array.replicate 4 0) #[0]
      (.ofList [.single (.const ⟨0⟩ 1), .single (.flow (.jumpByIf ⟨0⟩ (-9)))]) {}
    (∀ core ∈ m.cores, core.control.pc ≤ m.program.size) ∧
      Moment.Leads ⟨m, false⟩ ⟨m.step.1, true⟩ ∧
      m.Ends (.faulted (.invalidJumpTarget 1 (-7))) m.step.1.step.1 := by
  intro m
  have hstart : ∀ core ∈ m.cores, core.control.pc ≤ m.program.size := by decide +kernel
  have hactive : m.resume.isActive = true := by decide +kernel
  have hleads : Moment.Leads ⟨m, false⟩ m.resume.afterStep :=
    ((Moment.Leads.refl _).next (.call m)).next (.cycle hactive)
  have hissues : m.step.1.Issues 0 ⟨0, #[1, 0, 0, 0], { pc := 1 }⟩
      (.single (.flow (.jumpByIf ⟨0⟩ (-9)))) _ :=
    ⟨by decide +kernel, rfl, rfl, by decide +kernel, rfl⟩
  have hjumps : (-7 : Int) ∈ m.step.1.jumps 0 ⟨0, #[1, 0, 0, 0], { pc := 1 }⟩
      (.single (.flow (.jumpByIf ⟨0⟩ (-9)))) := by decide +kernel
  obtain ⟨-, hfaults, -⟩ := pc_le_size_unless_jumped hstart hleads
  obtain ⟨hiff, hends⟩ := (hfaults 0 _ _ _ hissues).2 1 (-7)
  exact ⟨hstart, hleads, hends (hiff.mpr ⟨rfl, hjumps, by decide⟩) m 1 rfl⟩

/-- A jump behind the end of the program is no fault, and the call goes well. -/
theorem jump_beyond_end_settles :
    let m := solo (Array.replicate 4 0) #[0] (.ofList [.single (.flow (.jump 5))]) {}
    ∃ n core, m.Ends .settled n ∧ n.cores[0]? = some core ∧ core.control.pc = 5 ∧
      m.program.size = 1 := by
  intro m
  have hend : (m.resume.runFor 2).1 = .settled := by decide +kernel
  exact ⟨(m.resume.runFor 2).2, ⟨0, Array.replicate 4 0, { pc := 5, state := .stopped }⟩,
    ⟨by simp, 2, Prod.ext hend rfl⟩, by decide +kernel, rfl, rfl⟩

end Machine

end TreeWalk
