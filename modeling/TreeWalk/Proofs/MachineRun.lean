import TreeWalk.Machine.Run
import TreeWalk.Proofs.StraightLine

/-!
# Runs of a single core

On a machine of one core a bundle of straight operations does what `executeTogether` says. A whole
run is followed bundle by bundle: through straight bundles, up to a pausing bundle or to the end
of the program.
-/

namespace TreeWalk

namespace Bundle

/-- The operations of a bundle that have an effect, in the order in which they issue. -/
def issued (b : Bundle) : List Op := Engine.issuing.flatMap b.on

def Within (b : Bundle) (widths : Widths) : Prop :=
  ∀ e ∈ Engine.issuing, b.count e ≤ widths.of e

def IsStraight (b : Bundle) : Prop := ∀ op ∈ b.issued, op.isStraight = true

theorem within_of_count_le_one {b : Bundle} {widths : Widths}
    (hwidths : ∀ e, e ≠ .debug → 1 ≤ widths.of e) (hb : ∀ e ∈ Engine.issuing, b.count e ≤ 1) :
    b.Within widths :=
  fun e he => Nat.le_trans (hb e he) (hwidths e (Engine.mem_issuing.mp he))

theorem single_within {widths : Widths} (hwidths : ∀ e, e ≠ .debug → 1 ≤ widths.of e) (op : Op) :
    (single op).Within widths := by
  refine within_of_count_le_one hwidths fun e _ => ?_
  rw [← length_on, on_single]
  split <;> simp

end Bundle

def executeBundles : List Bundle → Contents → Option Contents
  | [], s => some s
  | b :: rest, s => (executeTogether b.issued s).bind (executeBundles rest)

def Contents.core (s : Contents) (pc : Nat) (state : RunState) : Core :=
  ⟨s.id, s.scratch, ⟨pc, state, s.trace⟩⟩

namespace Core

variable {b : Bundle} {widths : Widths} {s t : Contents}

theorem collectEngines_core (hb : b.IsStraight) (hwithin : b.Within widths) (s : Contents)
    (honorPause : Bool) (pc next : Nat) (state : RunState) :
    (∀ e, collect s.view b.issued { control := {} } = (e, none) →
      collectEngines ((s.core next state).view s.mem honorPause pc) widths b Engine.issuing
        { control := (s.core next state).control } =
          (e.under ⟨next, state, s.trace⟩, none)) ∧
    ((collect s.view b.issued { control := {} }).2 ≠ none →
      (collectEngines ((s.core next state).view s.mem honorPause pc) widths b Engine.issuing
        { control := (s.core next state).control }).2 ≠ none) := by
  have hstart : ({ control := (s.core next state).control } : Effect) =
      Effect.under { control := {} } ⟨next, state, s.trace⟩ := by
    simp [Effect.under, Contents.core]
  rw [collectEngines_eq_collect hwithin, hstart]
  exact collect_under (v := (s.core next state).view s.mem honorPause pc) (w := s.view) hb rfl rfl
    rfl ⟨next, state, s.trace⟩ { control := {} }

/-- A straight bundle that goes well leaves the contents that its operations make together. -/
theorem issue_eq_of_executeTogether (hb : b.IsStraight) (hwithin : b.Within widths)
    (h : executeTogether b.issued s = some t) (honorPause : Bool) (pc next : Nat)
    (state : RunState) :
    (s.core next state).issue s.mem b widths honorPause pc =
      ⟨t.core next state, t.mem, none⟩ := by
  unfold executeTogether at h
  split at h
  · rename_i e hc
    obtain ⟨hwrite, rfl⟩ := Contents.commit_eq_some_iff.mp h
    have hnone : Scratch.write e.scratch s.scratch =
        ((Scratch.write e.scratch s.scratch).1, none) :=
      Prod.ext rfl (Scratch.write_snd_eq_none_iff.mpr hwrite)
    rw [issue_eq, (collectEngines_core hb hwithin s honorPause pc next state).1 e hc]
    simp only [Effect.commit, Effect.under, Contents.core]
    rw [hnone]
  · cases h

theorem issue_fault_of_executeTogether (hb : b.IsStraight) (hwithin : b.Within widths)
    (h : executeTogether b.issued s = none) (honorPause : Bool) (pc next : Nat)
    (state : RunState) :
    ((s.core next state).issue s.mem b widths honorPause pc).fault ≠ none := by
  obtain ⟨hgood, hbad⟩ := collectEngines_core hb hwithin s honorPause pc next state
  rw [issue_eq]
  unfold executeTogether at h
  rcases hc : collect s.view b.issued { control := {} } with ⟨e, fault⟩
  rw [hc] at h hbad
  cases fault with
  | none =>
    have hwrite : (Scratch.write e.scratch s.scratch).2 ≠ none := by
      rw [Ne, Scratch.write_snd_eq_none_iff]
      exact Contents.commit_eq_none_iff.mp h
    rw [hgood e hc]
    simp only [Effect.commit, Effect.under, Contents.core]
    rcases hw : Scratch.write e.scratch s.scratch with ⟨scratch, fault⟩
    rw [hw] at hwrite
    cases fault with
    | none => exact absurd rfl hwrite
    | some f => simp
  | some f =>
    have hne := hbad (by simp)
    rcases hi : collectEngines ((s.core next state).view s.mem honorPause pc) widths b
      Engine.issuing { control := (s.core next state).control } with ⟨e', fault⟩
    rw [hi] at hne
    cases fault with
    | none => exact absurd rfl hne
    | some f' => simp

theorem issue_pause (hwidth : 1 ≤ widths.flow) (s : Contents) (pc next : Nat) :
    (s.core next .running).issue s.mem (.single .pause) widths true pc =
      ⟨s.core next .paused, s.mem, none⟩ := by
  have hflow : ¬ widths.flow < 1 := Nat.not_lt.mpr hwidth
  simp [Core.issue, Contents.core, Bundle.single, Op.pause, Bundle.push, Bundle.empty,
    Engine.issuing, collectEngines, collect, Bundle.count, Bundle.on, Widths.of, hflow, Op.effect,
    FlowOp.effect, pure, Except.pure, Effect.commit, Scratch.write, Memory.write]

end Core

namespace Machine

/-- A machine of one core that has the given scratch and stands before the first bundle. -/
def solo (scratch mem : Array Word) (program : Program) (widths : Widths)
    (regions : Regions := []) (honorPause : Bool := true) : Machine :=
  { cores := [⟨0, scratch, {}⟩], mem, program, regions, widths, honorPause }

/-- The machine, given enough cycles for a run, comes to the end `e` and is `n` then. -/
def Ends (m : Machine) (e : RunEnd) (n : Machine) : Prop :=
  e ≠ .unfinished ∧ ∃ limit, m.resume.runFor limit = (e, n)

theorem Ends.unique {m n n' : Machine} {e e' : RunEnd} (h : m.Ends e n) (h' : m.Ends e' n') :
    e = e' ∧ n = n' := by
  obtain ⟨he, limit, hl⟩ := h
  obtain ⟨he', limit', hl'⟩ := h'
  have hmore := runFor_mono hl he limit'
  have hmore' := runFor_mono hl' he' limit
  rw [Nat.add_comm, hmore'] at hmore
  simpa [eq_comm] using hmore

def holding (m : Machine) (s : Contents) (pc : Nat) (state : RunState) (cycle : Nat) : Machine :=
  { m with cores := [s.core pc state], mem := s.mem, cycle }

variable {m : Machine} {s t : Contents} {b : Bundle} {pc cycle : Nat}

theorem isActive_holding (m : Machine) (s : Contents) (pc : Nat) (state : RunState)
    (cycle : Nat) : (m.holding s pc state cycle).isActive = decide (state = .running) := by
  simp [isActive, holding, Contents.core]

theorem resume_holding_of_ne_stopped {state : RunState} (h : state ≠ .stopped) :
    (m.holding s pc state cycle).resume = m.holding s pc .running cycle := by
  cases state with
  | stopped => exact absurd rfl h
  | running | paused => rfl

theorem step_of_cores_eq {core : Core} (hcores : m.cores = [core]) :
    m.step =
      match advance m.program m.widths m.honorPause core m.mem with
      | (⟨core, mem, some fault⟩, _) => ({ m with cores := [core], mem }, some fault)
      | (⟨core, mem, none⟩, effective) =>
        ({ m with cores := [core], mem, cycle := if effective then m.cycle + 1 else m.cycle },
          none) := by
  rcases m with ⟨cores, mem, program, regions, widths, cycle, honorPause⟩
  obtain rfl : cores = [core] := hcores
  simp only [step, sweep]
  rcases advance program widths honorPause core mem with ⟨⟨core', mem', fault⟩, effective⟩
  cases fault <;> simp

theorem step_holding (m : Machine) (s : Contents) (pc cycle : Nat) (state : RunState) :
    (m.holding s pc state cycle).step =
      match advance m.program m.widths m.honorPause (s.core pc state) s.mem with
      | (⟨core, mem, some fault⟩, _) => ({ m with cores := [core], mem, cycle }, some fault)
      | (⟨core, mem, none⟩, effective) =>
        ({ m with cores := [core], mem, cycle := if effective then cycle + 1 else cycle },
          none) := step_of_cores_eq rfl

theorem advance_of_get? (hb : m.program.get? pc = some b) (s : Contents) :
    advance m.program m.widths m.honorPause (s.core pc .running) s.mem =
      ((s.core (pc + 1) .running).issue s.mem b m.widths m.honorPause pc, b.isEffective) := by
  simp [advance, Contents.core, hb]

section Runs

variable {bundles : List Bundle}

def HasBundles (m : Machine) (pc : Nat) (bundles : List Bundle) : Prop :=
  ∀ i < bundles.length, m.program.get? (pc + i) = bundles[i]?

theorem HasBundles.head {b : Bundle} (h : m.HasBundles pc (b :: bundles)) :
    m.program.get? pc = some b := by
  simpa using h 0 (by simp)

theorem HasBundles.tail {b : Bundle} (h : m.HasBundles pc (b :: bundles)) :
    m.HasBundles (pc + 1) bundles := by
  intro i hi
  have hnext := h (i + 1) (by simpa using hi)
  rwa [List.getElem?_cons_succ, show pc + (i + 1) = pc + 1 + i by omega] at hnext

theorem hasBundles_of_program_eq (before after : List Bundle)
    (h : m.program = .ofList (before ++ bundles ++ after)) :
    m.HasBundles before.length bundles := by
  intro i hi
  simp [h, Program.get?, Program.ofList, hi, List.getElem?_append_right,
    List.getElem?_append_left]

/-- Straight bundles that go well lead a running core to the bundle behind them. -/
theorem runFor_of_executeBundles (hprogram : m.HasBundles pc bundles)
    (hstraight : ∀ b ∈ bundles, b.IsStraight) (hwithin : ∀ b ∈ bundles, b.Within m.widths)
    (h : executeBundles bundles s = some t) (cycle limit : Nat) :
    (m.holding s pc .running cycle).runFor (bundles.length + limit) =
      (m.holding t (pc + bundles.length) .running
        (cycle + bundles.countP Bundle.isEffective)).runFor limit := by
  induction bundles generalizing s pc cycle with
  | nil =>
    cases h
    simp
  | cons b rest ih =>
    obtain ⟨u, hu, hrest⟩ := Option.bind_eq_some_iff.mp h
    have hissue := Core.issue_eq_of_executeTogether (hstraight b List.mem_cons_self)
      (hwithin b List.mem_cons_self) hu m.honorPause pc (pc + 1) .running
    have hstep : (m.holding s pc .running cycle).step =
        (m.holding u (pc + 1) .running (if b.isEffective then cycle + 1 else cycle), none) := by
      rw [step_holding, advance_of_get? hprogram.head, hissue]
      rfl
    have hcycle : cycle + (b :: rest).countP Bundle.isEffective =
        (if b.isEffective then cycle + 1 else cycle) + rest.countP Bundle.isEffective := by
      rw [List.countP_cons]
      split <;> omega
    rw [List.length_cons, Nat.succ_add, runFor, isActive_holding, hstep, hcycle,
      show pc + (rest.length + 1) = pc + 1 + rest.length by omega]
    exact ih hprogram.tail (fun c hc => hstraight c (List.mem_cons_of_mem b hc))
      (fun c hc => hwithin c (List.mem_cons_of_mem b hc)) hrest _

theorem runFor_of_executeBundles_eq_none (hprogram : m.HasBundles pc bundles)
    (hstraight : ∀ b ∈ bundles, b.IsStraight) (hwithin : ∀ b ∈ bundles, b.Within m.widths)
    (h : executeBundles bundles s = none) (cycle : Nat) :
    ∃ fault n, (m.holding s pc .running cycle).runFor bundles.length = (.faulted fault, n) := by
  induction bundles generalizing s pc cycle with
  | nil => cases h
  | cons b rest ih =>
    rw [List.length_cons, runFor, isActive_holding, step_holding,
      advance_of_get? hprogram.head]
    cases hu : executeTogether b.issued s with
    | none =>
      have hfault := Core.issue_fault_of_executeTogether (hstraight b List.mem_cons_self)
        (hwithin b List.mem_cons_self) hu m.honorPause pc (pc + 1) .running
      rcases hi : (s.core (pc + 1) .running).issue s.mem b m.widths m.honorPause pc with
        ⟨core, mem, fault⟩
      rw [hi] at hfault
      cases fault with
      | none => exact absurd rfl hfault
      | some f => exact ⟨f, _, rfl⟩
    | some u =>
      rw [Core.issue_eq_of_executeTogether (hstraight b List.mem_cons_self)
        (hwithin b List.mem_cons_self) hu m.honorPause pc (pc + 1) .running]
      rw [executeBundles, hu, Option.bind_some] at h
      exact ih hprogram.tail (fun c hc => hstraight c (List.mem_cons_of_mem b hc))
        (fun c hc => hwithin c (List.mem_cons_of_mem b hc)) h _

theorem runFor_of_get?_eq_none (h : m.program.get? pc = none) (s : Contents) (cycle : Nat) :
    (m.holding s pc .running cycle).runFor 1 =
      (.settled, m.holding s pc .stopped cycle) := by
  have hstep : (m.holding s pc .running cycle).step = (m.holding s pc .stopped cycle, none) := by
    rw [step_holding]
    simp [advance, Contents.core, h, holding]
  rw [runFor, isActive_holding, hstep]
  exact runFor_of_not_isActive (isActive_holding m s pc .stopped cycle) 0

theorem runFor_of_get?_eq_pause (hprogram : m.program.get? pc = some (.single .pause))
    (hwidth : 1 ≤ m.widths.flow) (hpause : m.honorPause = true) (s : Contents) (cycle : Nat) :
    (m.holding s pc .running cycle).runFor 1 =
      (.settled, m.holding s (pc + 1) .paused (cycle + 1)) := by
  have hstep : (m.holding s pc .running cycle).step =
      (m.holding s (pc + 1) .paused (cycle + 1), none) := by
    have hissue := Core.issue_pause hwidth s pc (pc + 1)
    rw [← hpause] at hissue
    rw [step_holding, advance_of_get? hprogram, hissue]
    rfl
  rw [runFor, isActive_holding, hstep]
  exact runFor_of_not_isActive (isActive_holding m s (pc + 1) .paused (cycle + 1)) 0

variable {state : RunState}

theorem ends_of_executeBundles (hprogram : m.HasBundles pc bundles)
    (hend : m.program.get? (pc + bundles.length) = none)
    (hstraight : ∀ b ∈ bundles, b.IsStraight) (hwithin : ∀ b ∈ bundles, b.Within m.widths)
    (h : executeBundles bundles s = some t) (hstate : state ≠ .stopped) (cycle : Nat) :
    (m.holding s pc state cycle).Ends .settled (m.holding t (pc + bundles.length) .stopped
      (cycle + bundles.countP Bundle.isEffective)) := by
  refine ⟨by simp, bundles.length + 1, ?_⟩
  rw [resume_holding_of_ne_stopped hstate,
    runFor_of_executeBundles hprogram hstraight hwithin h, runFor_of_get?_eq_none hend]

/-- A core that goes through straight bundles to a pausing one pauses there. -/
theorem ends_at_pause (hprogram : m.HasBundles pc bundles)
    (hend : m.program.get? (pc + bundles.length) = some (.single .pause))
    (hstraight : ∀ b ∈ bundles, b.IsStraight) (hwithin : ∀ b ∈ bundles, b.Within m.widths)
    (hwidth : 1 ≤ m.widths.flow) (hpause : m.honorPause = true)
    (h : executeBundles bundles s = some t) (hstate : state ≠ .stopped) (cycle : Nat) :
    (m.holding s pc state cycle).Ends .settled (m.holding t (pc + bundles.length + 1) .paused
      (cycle + bundles.countP Bundle.isEffective + 1)) := by
  refine ⟨by simp, bundles.length + 1, ?_⟩
  rw [resume_holding_of_ne_stopped hstate,
    runFor_of_executeBundles hprogram hstraight hwithin h,
    runFor_of_get?_eq_pause hend hwidth hpause]

theorem ends_of_executeBundles_eq_none (hprogram : m.HasBundles pc bundles)
    (hstraight : ∀ b ∈ bundles, b.IsStraight) (hwithin : ∀ b ∈ bundles, b.Within m.widths)
    (h : executeBundles bundles s = none) (hstate : state ≠ .stopped) (cycle : Nat) :
    ∃ fault n, (m.holding s pc state cycle).Ends (.faulted fault) n := by
  obtain ⟨fault, n, hrun⟩ :=
    runFor_of_executeBundles_eq_none hprogram hstraight hwithin h cycle
  refine ⟨fault, n, by simp, bundles.length, ?_⟩
  rw [resume_holding_of_ne_stopped hstate, hrun]

end Runs

end Machine

end TreeWalk
