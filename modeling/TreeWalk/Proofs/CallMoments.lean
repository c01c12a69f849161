import Mathlib.Logic.Relation
import TreeWalk.Proofs.Lockstep

/-!
# What happens between and during calls

A machine is followed through any number of calls, cycle by cycle and beyond faults. In a cycle the
cores have their turns one after the other, and a core whose turn comes goes on in one of three
ways: it is left alone, it stops because it has no bundle left, or it issues one.
-/

namespace TreeWalk

namespace Machine

/-- A machine between two calls or in the midst of one. -/
structure Moment where
  machine : Machine
  inCall : Bool

/-- The moment after a cycle. A fault ends the call. -/
def afterStep (m : Machine) : Moment := ⟨m.step.1, m.step.2.isNone⟩

namespace Moment

/-- What may come next. A call wakes the paused cores, goes on as long as some core is running, and
is over when none is or a bundle has faulted. Between calls the switch for pauses may be set. -/
inductive Next : Moment → Moment → Prop where
  | call (m : Machine) : Next ⟨m, false⟩ ⟨m.resume, true⟩
  | cycle {m : Machine} : m.isActive = true → Next ⟨m, true⟩ m.afterStep
  | settle {m : Machine} : m.isActive = false → Next ⟨m, true⟩ ⟨m, false⟩
  | switch (m : Machine) (honorPause : Bool) : Next ⟨m, false⟩ ⟨{ m with honorPause }, false⟩

/-- The second moment may come after the first, or is the same. -/
def Leads : Moment → Moment → Prop := Relation.ReflTransGen Next

theorem Leads.refl (p : Moment) : p.Leads p := Relation.ReflTransGen.refl

theorem Leads.trans {p q r : Moment} (h : p.Leads q) (h' : q.Leads r) : p.Leads r :=
  Relation.ReflTransGen.trans h h'

theorem Leads.next {p q r : Moment} (h : p.Leads q) (h' : q.Next r) : p.Leads r :=
  Relation.ReflTransGen.tail h h'

/-- The cycles of a call are moments, whether it comes to its end or not. -/
theorem leads_runFor {m n : Machine} {e : RunEnd} {limit : Nat} (h : m.runFor limit = (e, n)) :
    Leads ⟨m, true⟩ ⟨n, decide (e = .unfinished)⟩ := by
  have hsettle (hidle : m.isActive = false) : Leads ⟨m, true⟩ ⟨m, false⟩ :=
    (Leads.refl _).next (.settle hidle)
  induction limit generalizing m with
  | zero =>
    cases ha : m.isActive with
    | false =>
      rw [runFor_of_not_isActive ha] at h
      obtain ⟨rfl, rfl⟩ := Prod.mk.inj h
      exact hsettle ha
    | true =>
      rw [runFor, ha] at h
      obtain ⟨rfl, rfl⟩ := Prod.mk.inj h
      exact .refl _
  | succ limit ih =>
    cases ha : m.isActive with
    | false =>
      rw [runFor_of_not_isActive ha] at h
      obtain ⟨rfl, rfl⟩ := Prod.mk.inj h
      exact hsettle ha
    | true =>
      have hcycle : Leads ⟨m, true⟩ m.afterStep := (Leads.refl _).next (.cycle ha)
      rw [runFor, ha, if_pos rfl] at h
      rcases hs : m.step with ⟨o, fault⟩
      rw [afterStep, hs] at hcycle
      rw [hs] at h
      cases fault with
      | some f =>
        obtain ⟨rfl, rfl⟩ := Prod.mk.inj h
        exact hcycle
      | none => exact hcycle.trans (ih h fun hidle => (Leads.refl _).next (.settle hidle))

/-- A call that comes to an end leads from the moment before it to the moment after it. -/
theorem leads_of_ends {m n : Machine} {e : RunEnd} (h : m.Ends e n) :
    Leads ⟨m, false⟩ ⟨n, false⟩ := by
  obtain ⟨he, limit, hrun⟩ := h
  have hcall := leads_runFor hrun
  rw [decide_eq_false he] at hcall
  exact ((Leads.refl _).next (.call m)).trans hcall

end Moment

theorem runFor_add {m n : Machine} {limit : Nat} (h : m.runFor limit = (.unfinished, n))
    (more : Nat) : m.runFor (limit + more) = n.runFor more := by
  induction limit generalizing m with
  | zero =>
    rw [runFor] at h
    rw [Nat.zero_add, (Prod.mk.inj h).2]
  | succ limit ih =>
    rw [Nat.succ_add]
    rw [runFor] at h ⊢
    split at h
    · rename_i hactive
      rw [if_pos hactive]
      split at h
      · cases h
      · exact ih h
    · cases h

/-! ## Turns of a cycle -/

/-- The coming cycle up to the turn of the core with number `i`. -/
def sweptBefore (m : Machine) (i : Nat) : Swept :=
  sweep m.program m.widths m.honorPause (m.cores.take i) m.mem

/-- In the coming cycle the core with number `i` has its turn and issues the bundle `b`, with the
outcome `r`. -/
structure Issues (m : Machine) (i : Nat) (core : Core) (b : Bundle) (r : Issued) : Prop where
  present : m.cores[i]? = some core
  running : core.control.state = .running
  bundle : m.program.get? core.control.pc = some b
  turn : (m.sweptBefore i).fault = none
  outcome : r = Core.issue { core with control.pc := core.control.pc + 1 } (m.sweptBefore i).mem b
    m.widths m.honorPause core.control.pc

section Turns

variable {m : Machine} {i : Nat} {core : Core}

/-- A core whose turn comes is advanced, and its fault breaks the cycle off. A core whose turn does
not come is left alone. -/
theorem sweep_at (p : Program) (widths : Widths) (honorPause : Bool) (mem : Array Word)
    {cores : List Core} (hcore : cores[i]? = some core) :
    let before := sweep p widths honorPause (cores.take i) mem
    (before.fault = none →
      (sweep p widths honorPause cores mem).cores[i]? =
          some (advance p widths honorPause core before.mem).1.core ∧
        (sweep p widths honorPause (cores.take (i + 1)) mem).fault =
          (advance p widths honorPause core before.mem).1.fault ∧
        ∀ fault, (advance p widths honorPause core before.mem).1.fault = some fault →
          (sweep p widths honorPause cores mem).fault = some fault) ∧
    (before.fault ≠ none → (sweep p widths honorPause cores mem).cores[i]? = some core) := by
  induction cores generalizing mem i with
  | nil => cases hcore
  | cons first rest ih =>
    cases i with
    | zero =>
      obtain rfl : first = core := Option.some.inj hcore
      simp only [List.take_zero, sweep]
      rcases ha : advance p widths honorPause first mem with ⟨⟨next, mem', fault⟩, effective⟩
      cases fault <;> simp [sweep, ha]
    | succ i =>
      simp only [List.take_succ_cons, sweep]
      rcases ha : advance p widths honorPause first mem with ⟨⟨next, mem', fault⟩, effective⟩
      cases fault with
      | some f => simpa using hcore
      | none => simpa using ih mem' (by simpa using hcore)

theorem step_eq_sweep (m : Machine) :
    m.step.1.cores = (sweep m.program m.widths m.honorPause m.cores m.mem).cores ∧
      m.step.1.program = m.program ∧
      m.step.2 = (sweep m.program m.widths m.honorPause m.cores m.mem).fault := by
  rcases m with ⟨cores, mem, program, regions, widths, cycle, honorPause⟩
  simp only [step]
  rcases sweep program widths honorPause cores mem with ⟨cores', mem', effective, fault⟩
  cases fault <;> exact ⟨rfl, rfl, rfl⟩

theorem step_at (hcore : m.cores[i]? = some core) :
    let turn := (advance m.program m.widths m.honorPause core (m.sweptBefore i).mem).1
    ((m.sweptBefore i).fault = none →
      m.step.1.cores[i]? = some turn.core ∧ (m.sweptBefore (i + 1)).fault = turn.fault ∧
        ∀ fault, turn.fault = some fault → m.step.2 = some fault) ∧
    ((m.sweptBefore i).fault ≠ none → m.step.1.cores[i]? = some core) := by
  obtain ⟨hcores, -, hfault⟩ := step_eq_sweep m
  rw [hcores, hfault]
  exact sweep_at m.program m.widths m.honorPause m.mem hcore

/-- What a cycle does to a core: nothing, as when it is idle; it stops where the program has no
bundle for it; or it issues one. -/
theorem step_core_cases (hcore : m.cores[i]? = some core) :
    m.step.1.cores[i]? = some core ∨
      (core.control.state = .running ∧ m.program.get? core.control.pc = none ∧
        m.step.1.cores[i]? = some { core with control.state := .stopped }) ∨
      ∃ b r, m.Issues i core b r := by
  obtain ⟨hturn, hleft⟩ := step_at hcore
  by_cases hfault : (m.sweptBefore i).fault = none
  · rw [(hturn hfault).1]
    by_cases hrunning : core.control.state = .running
    · cases hb : m.program.get? core.control.pc with
      | none =>
        refine .inr (.inl ⟨hrunning, rfl, ?_⟩)
        simp [advance, hrunning, hb]
      | some b => exact .inr (.inr ⟨b, _, hcore, hrunning, hb, hfault, rfl⟩)
    · refine .inl ?_
      simp [advance, hrunning]
  · exact .inl (hleft hfault)

theorem step_of_get?_eq_none (hcore : m.cores[i]? = some core)
    (hrunning : core.control.state = .running) (hbundle : m.program.get? core.control.pc = none)
    (hturn : (m.sweptBefore i).fault = none) :
    m.step.1.cores[i]? = some { core with control.state := .stopped } ∧
      (m.sweptBefore (i + 1)).fault = none := by
  obtain ⟨hnext, hfault, -⟩ := (step_at hcore).1 hturn
  have hadvance : (advance m.program m.widths m.honorPause core (m.sweptBefore i).mem).1 =
      ⟨{ core with control.state := .stopped }, (m.sweptBefore i).mem, none⟩ := by
    simp [advance, hrunning, hbundle]
  rw [hnext, hfault]
  exact ⟨congrArg (fun r => some r.core) hadvance, congrArg Issued.fault hadvance⟩

namespace Issues

variable {b : Bundle} {r : Issued}

theorem step_eq (h : m.Issues i core b r) :
    m.step.1.cores[i]? = some r.core ∧ ∀ fault, r.fault = some fault → m.step.2 = some fault := by
  have hadvance : (advance m.program m.widths m.honorPause core (m.sweptBefore i).mem).1 = r := by
    simp [advance, h.running, h.bundle, h.outcome]
  rw [← hadvance]
  exact ((step_at h.present).1 h.turn).imp_right And.right

theorem isActive (h : m.Issues i core b r) : m.isActive = true := by
  rw [Machine.isActive, List.any_eq_true]
  exact ⟨core, List.mem_of_getElem? h.present, decide_eq_true h.running⟩

end Issues

end Turns

namespace Moment

variable {p q : Moment} {i : Nat} {core : Core}

theorem Next.program_eq (h : p.Next q) : q.machine.program = p.machine.program := by
  cases h with
  | cycle _ => exact (step_eq_sweep _).2.1
  | call | settle | switch => rfl

theorem Next.length_cores (h : p.Next q) :
    q.machine.cores.length = p.machine.cores.length := by
  cases h with
  | @cycle m _ =>
    rw [afterStep, (step_eq_sweep m).1]
    exact length_cores_sweep m.cores m.mem
  | call m => simp [resume]
  | settle | switch => rfl

theorem Leads.program_eq (h : p.Leads q) : q.machine.program = p.machine.program := by
  induction h with
  | refl => rfl
  | tail _ hnext ih => exact hnext.program_eq.trans ih

/-- Between two cycles a core is left alone, but for a pause that may end. -/
theorem Next.core_cases (h : p.Next q) (hcore : p.machine.cores[i]? = some core) :
    (p.inCall = true ∧ q = p.machine.afterStep) ∨ q.machine.cores[i]? = some core ∨
      core.control.state = .paused ∧
        q.machine.cores[i]? = some { core with control.state := .running } := by
  cases h with
  | call m =>
    refine .inr ?_
    by_cases hpaused : core.control.state = .paused
    · refine .inr ⟨hpaused, ?_⟩
      simp [resume, hcore, hpaused]
    · refine .inl ?_
      simp [resume, hcore, hpaused]
  | cycle _ => exact .inl ⟨rfl, rfl⟩
  | settle | switch => exact .inr (.inl hcore)

end Moment

end Machine

end TreeWalk
