import TreeWalk.Proofs.MachineRun

/-!
# Cores in step

Where nothing halts or jumps, the control of a core does not depend on what it computes. Every cycle
takes a running core one bundle further, so a run always ends. Cores that start together stand
before the same bundle at all times, pause together and stop together at the end of the program, and
a cycle counts just when the bundle that they all issue is effective.
-/

namespace TreeWalk

def FlowOp.goesOn : FlowOp → Bool
  | .halt | .jumpIf .. | .jumpByIf .. | .jump _ | .jumpTo _ => false
  | .select .. | .addImm .. | .blockSelect .. | .pause | .trace _ | .coreId _ => true

def Op.goesOn : Op → Bool
  | flow op => op.goesOn
  | _ => true

namespace Bundle

def pauses (b : Bundle) : Bool := b.flow.contains .pause

theorem pauses_eq_true_iff {b : Bundle} : b.pauses = true ↔ Op.pause ∈ b.issued := by
  simp [pauses, issued, Engine.issuing, on, Op.pause]

end Bundle

/-- No operation of the program halts or jumps. -/
def Program.GoesOn (p : Program) : Prop := ∀ b ∈ p.bundles, ∀ op ∈ b.issued, op.goesOn = true

/-! ## Control of one core -/

theorem Op.control_of_goesOn {op : Op} (hop : op.goesOn = true) {v : View} {c : Control}
    {e : Effect} (h : op.effect v c = .ok e) :
    e.control.pc = c.pc ∧
      e.control.state = if v.honorPause = true ∧ op = .pause then .paused else c.state := by
  cases op with
  | note text =>
    simp only [Op.effect, pure_eq_ok_iff] at h
    subst h
    simp [Op.pause]
  | alu op | valu op | load op | store op =>
    simp only [Op.effect, bind_eq_ok_iff, pure_eq_ok_iff] at h
    obtain ⟨ws, -, rfl⟩ := h
    simp [Op.pause]
  | flow op =>
    cases op with
    | halt | jumpIf | jumpByIf | jump | jumpTo => cases hop
    | pause =>
      simp only [Op.effect, FlowOp.effect, pure_eq_ok_iff] at h
      subst h
      cases v.honorPause <;> simp [Op.pause]
    | select | addImm | blockSelect | trace | coreId =>
      simp only [Op.effect, FlowOp.effect, bind_eq_ok_iff, pure_eq_ok_iff] at h
      grind [Op.pause]

theorem control_collect_of_goesOn {v : View} {ops : List Op}
    (hops : ∀ op ∈ ops, op.goesOn = true) {e e' : Effect} (h : collect v ops e = (e', none)) :
    e'.control.pc = e.control.pc ∧ e'.control.state =
      if v.honorPause = true ∧ Op.pause ∈ ops then .paused else e.control.state := by
  induction ops generalizing e with
  | nil =>
    cases h
    simp
  | cons op rest ih =>
    simp only [collect] at h
    split at h
    · cases h
    · rename_i next hnext
      obtain ⟨hpc, hstate⟩ := Op.control_of_goesOn (hops op List.mem_cons_self) hnext
      obtain ⟨hpc', hstate'⟩ := ih (fun x hx => hops x (List.mem_cons_of_mem op hx)) h
      refine ⟨hpc'.trans hpc, ?_⟩
      rw [hstate', hstate]
      grind

namespace Core

variable {core : Core} {mem : Array Word} {b : Bundle} {widths : Widths} {honorPause : Bool}
  {pc : Nat}

theorem control_commit (e : Effect) (id : Nat) (scratch mem : Array Word) :
    (e.commit id scratch mem).core.control = e.control := by
  unfold Effect.commit
  split <;> rfl

theorem control_issue_of_goesOn (hb : ∀ op ∈ b.issued, op.goesOn = true)
    (h : (core.issue mem b widths honorPause pc).fault = none) :
    (core.issue mem b widths honorPause pc).core.control.pc = core.control.pc ∧
      (core.issue mem b widths honorPause pc).core.control.state =
        if honorPause && b.pauses then .paused else core.control.state := by
  obtain ⟨hcollected, -⟩ := collected_of_fault_eq_none h
  have hcollect := hcollected
  rw [collectEngines_eq_collect (count_le_of_collectEngines hcollected)] at hcollect
  obtain ⟨hpc, hstate⟩ := control_collect_of_goesOn hb hcollect
  rw [issue_eq, hcollected]
  dsimp only
  rw [control_commit]
  refine ⟨hpc, hstate.trans ?_⟩
  simp only [Bool.and_eq_true, Bundle.pauses_eq_true_iff]
  rfl

end Core

namespace Program

variable {p : Program} {b : Bundle} {pc : Nat}

theorem GoesOn.of_get? (h : p.GoesOn) (hb : p.get? pc = some b) :
    ∀ op ∈ b.issued, op.goesOn = true := h b (Array.mem_of_getElem? hb)

/-- Where a running core before the bundle `pc` stands a cycle later. -/
def after (p : Program) (honorPause : Bool) (pc : Nat) : Nat × RunState :=
  match p.get? pc with
  | none => (pc, .stopped)
  | some b => (pc + 1, if honorPause && b.pauses then .paused else .running)

theorem after_of_get?_eq_none (h : p.get? pc = none) (honorPause : Bool) :
    p.after honorPause pc = (pc, .stopped) := by
  simp [after, h]

theorem after_of_get?_eq_some (h : p.get? pc = some b) (honorPause : Bool) :
    p.after honorPause pc =
      (pc + 1, if honorPause && b.pauses then .paused else .running) := by
  simp [after, h]

def isEffectiveAt (p : Program) (pc : Nat) : Bool := (p.get? pc).any Bundle.isEffective

end Program

/-- The second core is the first one after a cycle. -/
def Core.Follows (p : Program) (honorPause : Bool) (core next : Core) : Prop :=
  if core.control.state = .running then
    (next.control.pc, next.control.state) = p.after honorPause core.control.pc
  else next = core

namespace Machine

variable {p : Program} {widths : Widths} {honorPause : Bool} {core : Core} {mem : Array Word}

/-! ## One cycle of all cores -/

theorem follows_advance (hp : p.GoesOn)
    (h : (advance p widths honorPause core mem).1.fault = none) :
    core.Follows p honorPause (advance p widths honorPause core mem).1.core := by
  unfold Core.Follows
  unfold advance at h ⊢
  by_cases hrunning : core.control.state = .running
  · rw [if_pos hrunning]
    simp only [hrunning, ne_eq, not_true_eq_false, if_false] at h ⊢
    cases hb : p.get? core.control.pc with
    | none => rw [Program.after_of_get?_eq_none hb]
    | some b =>
      rw [hb] at h
      obtain ⟨hpc, hstate⟩ := Core.control_issue_of_goesOn (hp.of_get? hb) h
      rw [Program.after_of_get?_eq_some hb]
      exact Prod.ext hpc hstate
  · rw [if_neg hrunning, if_pos hrunning]

theorem effective_advance (hrunning : core.control.state = .running) :
    (advance p widths honorPause core mem).2 = p.isEffectiveAt core.control.pc := by
  unfold advance Program.isEffectiveAt
  simp only [hrunning, ne_eq, not_true_eq_false, if_false]
  cases p.get? core.control.pc <;> rfl

/-- Every core of a cycle without fault is an earlier one that has gone on. -/
theorem exists_follows_of_mem_sweep (hp : p.GoesOn) {cores : List Core}
    (h : (sweep p widths honorPause cores mem).fault = none) :
    ∀ next ∈ (sweep p widths honorPause cores mem).cores,
      ∃ core ∈ cores, core.Follows p honorPause next := by
  induction cores generalizing mem with
  | nil => simp [sweep]
  | cons core rest ih =>
    intro next hnext
    have hfollows : (advance p widths honorPause core mem).1.fault = none →
        core.Follows p honorPause (advance p widths honorPause core mem).1.core :=
      follows_advance hp
    unfold sweep at h hnext
    rcases ha : advance p widths honorPause core mem with ⟨⟨core', mem', fault⟩, effective⟩
    rw [ha] at h hnext hfollows
    cases fault with
    | some f => cases h
    | none =>
      rcases List.mem_cons.mp hnext with rfl | hnext
      · exact ⟨core, List.mem_cons_self, hfollows rfl⟩
      · obtain ⟨other, hother, hfollows'⟩ := ih h next hnext
        exact ⟨other, List.mem_cons_of_mem core hother, hfollows'⟩

theorem length_cores_sweep (cores : List Core) (mem : Array Word) :
    (sweep p widths honorPause cores mem).cores.length = cores.length := by
  induction cores generalizing mem with
  | nil => rfl
  | cons core rest ih =>
    unfold sweep
    rcases advance p widths honorPause core mem with ⟨⟨core', mem', fault⟩, effective⟩
    cases fault with
    | some f => rfl
    | none => simp [ih mem']

theorem effective_sweep {cores : List Core} {pc : Nat} (hcores : ∀ core ∈ cores,
      core.control.pc = pc ∧ core.control.state = .running)
    (h : (sweep p widths honorPause cores mem).fault = none) :
    (sweep p widths honorPause cores mem).effective =
      (!cores.isEmpty && p.isEffectiveAt pc) := by
  induction cores generalizing mem with
  | nil => rfl
  | cons core rest ih =>
    obtain ⟨hpc, hrunning⟩ := hcores core List.mem_cons_self
    have heffective : (advance p widths honorPause core mem).2 =
        p.isEffectiveAt core.control.pc := effective_advance hrunning
    unfold sweep at h ⊢
    rcases ha : advance p widths honorPause core mem with ⟨⟨core', mem', fault⟩, effective⟩
    rw [ha] at h heffective
    cases fault with
    | some f => cases h
    | none =>
      have hrest := ih (fun c hc => hcores c (List.mem_cons_of_mem core hc)) h
      dsimp only at heffective ⊢
      rw [hrest, heffective, hpc]
      cases p.isEffectiveAt pc <;> simp

variable {m n : Machine}

theorem step_eq_none (h : m.step = (n, none)) :
    (sweep m.program m.widths m.honorPause m.cores m.mem).fault = none ∧
      n = { m with
        cores := (sweep m.program m.widths m.honorPause m.cores m.mem).cores
        mem := (sweep m.program m.widths m.honorPause m.cores m.mem).mem
        cycle := if (sweep m.program m.widths m.honorPause m.cores m.mem).effective
          then m.cycle + 1 else m.cycle } := by
  rcases m with ⟨cores, mem, program, regions, widths, cycle, honorPause⟩
  simp only [step] at h ⊢
  rcases hs : sweep program widths honorPause cores mem with ⟨cores', mem', effective, fault⟩
  rw [hs] at h
  cases fault with
  | some f => simp at h
  | none =>
    constructor
    · rfl
    · exact (Prod.mk.inj h).1.symm

/-! ## Runs end -/

/-- A cycle brings every core that keeps running one bundle nearer to the end of the program. -/
theorem room_of_step {limit : Nat} (hp : m.program.GoesOn)
    (h : ∀ core ∈ m.cores, core.control.state = .running →
      m.program.size - core.control.pc < limit + 1) (hs : m.step = (n, none)) :
    ∀ next ∈ n.cores, next.control.state = .running →
      n.program.size - next.control.pc < limit := by
  obtain ⟨hgood, rfl⟩ := step_eq_none hs
  intro next hnext hrunning
  obtain ⟨core, hcore, hfollows⟩ := exists_follows_of_mem_sweep hp hgood next hnext
  unfold Core.Follows at hfollows
  split at hfollows
  · rename_i hcore_running
    have hroom := h core hcore hcore_running
    cases hb : m.program.get? core.control.pc with
    | none =>
      rw [Program.after_of_get?_eq_none hb, hrunning] at hfollows
      exact absurd (Prod.mk.inj hfollows).2 (by decide)
    | some b =>
      have hlt : core.control.pc < m.program.size := (Array.getElem?_eq_some_iff.mp hb).1
      rw [Program.after_of_get?_eq_some hb] at hfollows
      have hpc := (Prod.mk.inj hfollows).1
      dsimp only
      omega
  · rename_i hidle
    rw [hfollows] at hrunning
    exact absurd hrunning hidle

theorem runFor_ne_unfinished {limit : Nat} (hp : m.program.GoesOn)
    (h : ∀ core ∈ m.cores, core.control.state = .running →
      m.program.size - core.control.pc < limit) : (m.runFor limit).1 ≠ .unfinished := by
  induction limit generalizing m with
  | zero =>
    have hidle : m.isActive = false := by
      unfold isActive
      rw [List.any_eq_false]
      intro core hcore hrunning
      exact Nat.not_lt_zero _ (h core hcore (of_decide_eq_true hrunning))
    rw [runFor_of_not_isActive hidle]
    simp
  | succ limit ih =>
    rw [runFor]
    split
    · rcases hs : m.step with ⟨n, fault⟩
      cases fault with
      | some f => simp
      | none =>
        have hprogram : n.program = m.program := by
          obtain ⟨-, rfl⟩ := step_eq_none hs
          rfl
        dsimp only
        apply ih
        · rwa [hprogram]
        · exact room_of_step hp h hs
    · simp

/-- On a program without halts and jumps every call comes to an end. -/
theorem exists_ends (hp : m.program.GoesOn) : ∃ e n, m.Ends e n := by
  have hends : (m.resume.runFor (m.program.size + 1)).1 ≠ .unfinished := by
    apply runFor_ne_unfinished
    · exact hp
    · intro core _ _
      exact Nat.lt_succ_of_le (Nat.sub_le _ _)
  exact ⟨_, _, hends, m.program.size + 1, rfl⟩

end Machine

/-! ## Cores before the same bundle -/

namespace Program

variable {p : Program} {b : Bundle} {f : Bundle → Bool} {pc : Nat}

def countBefore (p : Program) (f : Bundle → Bool) (pc : Nat) : Nat :=
  (p.bundles.toList.take pc).countP f

theorem countBefore_succ (h : p.get? pc = some b) :
    p.countBefore f (pc + 1) = p.countBefore f pc + if f b then 1 else 0 := by
  have hb : p.bundles.toList[pc]? = some b := by
    rw [Array.getElem?_toList]
    exact h
  rw [countBefore, List.take_add_one, hb, List.countP_append, countBefore]
  simp [List.countP_cons]

theorem countBefore_size : p.countBefore f p.size = p.bundles.countP f := by
  rw [countBefore, size, ← Array.length_toList, List.take_length, Array.countP_toList]

theorem countBefore_le : p.countBefore f pc ≤ p.bundles.countP f := by
  rw [countBefore, ← Array.countP_toList]
  exact (List.take_sublist _ _).countP_le

/-- How many bundles before `pc` pause a machine that honours pauses or does not. -/
def pausesBefore (p : Program) (honorPause : Bool) (pc : Nat) : Nat :=
  p.countBefore (fun b => honorPause && b.pauses) pc

end Program

namespace Machine

/-- All cores stand before the bundle `pc` in one run state, and the cycles of the bundles before it
have been counted. -/
structure InStep (p : Program) (honorPause : Bool) (pc : Nat) (state : RunState) (m : Machine) :
    Prop where
  program : m.program = p
  honorPause : m.honorPause = honorPause
  nonempty : m.cores ≠ []
  cores : ∀ core ∈ m.cores, core.control.pc = pc ∧ core.control.state = state
  pc_le : pc ≤ p.size
  cycle : m.cycle = p.countBefore Bundle.isEffective pc

namespace InStep

variable {p : Program} {honorPause : Bool} {pc : Nat} {state : RunState} {m n : Machine}

theorem isActive (h : InStep p honorPause pc state m) :
    m.isActive = decide (state = .running) := by
  rw [Bool.eq_iff_iff]
  simp only [Machine.isActive, List.any_eq_true, decide_eq_true_eq]
  constructor
  · rintro ⟨core, hcore, hrunning⟩
    rw [← (h.cores core hcore).2, hrunning]
  · intro hrunning
    obtain ⟨core, hcore⟩ := List.exists_mem_of_ne_nil m.cores h.nonempty
    exact ⟨core, hcore, (h.cores core hcore).2.trans hrunning⟩

theorem isFinished (h : InStep p honorPause pc state m) :
    m.isFinished = decide (state = .stopped) := by
  rw [Bool.eq_iff_iff]
  simp only [Machine.isFinished, List.all_eq_true, decide_eq_true_eq]
  constructor
  · intro hstopped
    obtain ⟨core, hcore⟩ := List.exists_mem_of_ne_nil m.cores h.nonempty
    rw [← (h.cores core hcore).2, hstopped core hcore]
  · intro hstopped core hcore
    exact (h.cores core hcore).2.trans hstopped

theorem resume (h : InStep p honorPause pc state m) :
    InStep p honorPause pc (if state = .paused then .running else state) m.resume := by
  constructor
  · exact h.program
  · exact h.honorPause
  · simpa [Machine.resume] using h.nonempty
  · intro next hnext
    obtain ⟨core, hcore, rfl⟩ := List.mem_map.mp hnext
    obtain ⟨hpc, hstate⟩ := h.cores core hcore
    rw [← hpc, ← hstate]
    split <;> simp
  · exact h.pc_le
  · exact h.cycle

theorem step (h : InStep p honorPause pc .running m) (hp : p.GoesOn) (hs : m.step = (n, none)) :
    InStep p honorPause (p.after honorPause pc).1 (p.after honorPause pc).2 n := by
  obtain ⟨rfl, rfl, hnonempty, hcores, hpc_le, hcycle⟩ := h
  obtain ⟨hgood, rfl⟩ := step_eq_none hs
  constructor
  · rfl
  · rfl
  · rw [← List.length_pos_iff, length_cores_sweep]
    exact List.length_pos_iff.mpr hnonempty
  · intro next hnext
    obtain ⟨core, hcore, hfollows⟩ := exists_follows_of_mem_sweep hp hgood next hnext
    obtain ⟨hpc, hrunning⟩ := hcores core hcore
    rw [Core.Follows, if_pos hrunning, hpc] at hfollows
    exact Prod.mk.inj hfollows
  · cases hb : m.program.get? pc with
    | none => rwa [Program.after_of_get?_eq_none hb]
    | some b =>
      rw [Program.after_of_get?_eq_some hb]
      exact (Array.getElem?_eq_some_iff.mp hb).1
  · dsimp only
    rw [effective_sweep hcores hgood, Program.isEffectiveAt,
      List.isEmpty_eq_false_iff.mpr hnonempty]
    cases hb : m.program.get? pc with
    | none => simpa [Program.after_of_get?_eq_none hb] using hcycle
    | some b =>
      rw [Program.after_of_get?_eq_some hb, Program.countBefore_succ hb, ← hcycle]
      cases hb : b.isEffective <;> simp [hb]

theorem runFor (h : InStep p honorPause pc .running m) (hp : p.GoesOn) {limit : Nat}
    (hrun : m.runFor limit = (.settled, n)) :
    ∃ pc' state', InStep p honorPause pc' state' n ∧
      (state' = .paused ∧ p.pausesBefore honorPause pc' = p.pausesBefore honorPause pc + 1 ∨
        state' = .stopped ∧ pc' = p.size ∧
          p.pausesBefore honorPause pc' = p.pausesBefore honorPause pc) := by
  induction limit generalizing m pc with
  | zero => simp [Machine.runFor, h.isActive] at hrun
  | succ limit ih =>
    rw [Machine.runFor, h.isActive] at hrun
    rcases hs : m.step with ⟨o, fault⟩
    rw [hs] at hrun
    cases fault with
    | some f => cases (Prod.mk.inj hrun).1
    | none =>
      have hnext := h.step hp hs
      dsimp only [decide_true, if_true] at hrun
      cases hb : p.get? pc with
      | none =>
        rw [Program.after_of_get?_eq_none hb] at hnext
        rw [runFor_of_not_isActive (by rw [hnext.isActive]; rfl)] at hrun
        obtain rfl := (Prod.mk.inj hrun).2
        have hend : p.size ≤ pc := Array.getElem?_eq_none_iff.mp hb
        exact ⟨pc, .stopped, hnext, .inr ⟨rfl, Nat.le_antisymm h.pc_le hend, rfl⟩⟩
      | some b =>
        have hpauses : p.pausesBefore honorPause (pc + 1) =
            p.pausesBefore honorPause pc + if honorPause && b.pauses then 1 else 0 :=
          Program.countBefore_succ hb
        rw [Program.after_of_get?_eq_some hb] at hnext
        split at hpauses
        · rename_i hpause
          rw [if_pos hpause] at hnext
          rw [runFor_of_not_isActive (by rw [hnext.isActive]; rfl)] at hrun
          obtain rfl := (Prod.mk.inj hrun).2
          exact ⟨pc + 1, .paused, hnext, .inl ⟨rfl, hpauses⟩⟩
        · rename_i hpause
          rw [if_neg hpause] at hnext
          rw [← Nat.add_zero (p.pausesBefore honorPause pc), ← hpauses]
          exact ih hnext hrun

end InStep

/-! ## Calls one after the other -/

/-- Some calls of the machine `m`, none of which faults, lead to the machine `n`. -/
inductive Settles (m : Machine) : (calls : Nat) → (n : Machine) → Prop where
  | start : Settles m 0 m
  | call {calls : Nat} {n o : Machine} :
    Settles m calls n → n.Ends .settled o → Settles m (calls + 1) o

section Calls

variable {p : Program} {honorPause : Bool} {m n : Machine} {calls : Nat}

/-- Every call gets past one pause, until one comes to the end of the program. -/
theorem Settles.inStep (h : m.Settles calls n) (hp : p.GoesOn)
    (hstart : InStep p honorPause 0 .running m) :
    ∃ pc state, InStep p honorPause pc state n ∧
      (state ≠ .stopped ∧ p.pausesBefore honorPause pc = calls ∨
        state = .stopped ∧ pc = p.size ∧ p.pausesBefore honorPause pc < calls) := by
  induction h with
  | start => exact ⟨0, .running, hstart, .inl ⟨by simp, rfl⟩⟩
  | call _ hends ih =>
    obtain ⟨pc, state, hstep, hcalls⟩ := ih
    obtain ⟨-, limit, hrun⟩ := hends
    have hresumed := hstep.resume
    rcases hcalls with ⟨hstate, hpauses⟩ | ⟨rfl, hpc, hpauses⟩
    · have hrunning : (if state = .paused then .running else state) = RunState.running := by
        cases state <;> simp at hstate ⊢
      rw [hrunning] at hresumed
      obtain ⟨pc', state', hstep', hcase⟩ := hresumed.runFor hp hrun
      rw [hpauses] at hcase
      rcases hcase with ⟨rfl, hpauses'⟩ | ⟨rfl, hpc', hpauses'⟩
      · exact ⟨pc', .paused, hstep', .inl ⟨by simp, hpauses'⟩⟩
      · exact ⟨pc', .stopped, hstep', .inr ⟨rfl, hpc', by omega⟩⟩
    · rw [runFor_of_not_isActive (by rw [hresumed.isActive]; rfl)] at hrun
      obtain rfl := (Prod.mk.inj hrun).2
      exact ⟨pc, .stopped, hresumed, .inr ⟨rfl, hpc, by omega⟩⟩

theorem exists_settles (hp : p.GoesOn) (hstart : InStep p honorPause 0 .running m)
    (hgood : ∀ k < calls, ∀ n, m.Settles k n → ∀ fault o, ¬ n.Ends (.faulted fault) o) :
    ∃ n, m.Settles calls n := by
  induction calls with
  | zero => exact ⟨m, .start⟩
  | succ calls ih =>
    obtain ⟨n, hn⟩ := ih fun k hk => hgood k (Nat.lt_succ_of_lt hk)
    obtain ⟨pc, state, hstep, -⟩ := hn.inStep hp hstart
    obtain ⟨e, o, hends⟩ := exists_ends (m := n) (hstep.program ▸ hp)
    cases e with
    | settled => exact ⟨o, hn.call hends⟩
    | faulted fault => exact absurd hends (hgood calls (Nat.lt_succ_self calls) n hn fault o)
    | unfinished => exact absurd rfl hends.1

end Calls

theorem inStep_freshCores {count : Nat} (hcount : 1 ≤ count) (words : Nat) (mem : Array Word)
    (p : Program) (widths : Widths) (regions : Regions) (honorPause : Bool) :
    InStep p honorPause 0 .running
      { cores := freshCores count words, mem, program := p, regions, widths, honorPause } := by
  constructor
  · rfl
  · rfl
  · simp only [freshCores, ne_eq, List.map_eq_nil_iff, List.range_eq_nil]
    omega
  · intro core hcore
    obtain ⟨id, -, rfl⟩ := List.mem_map.mp hcore
    exact ⟨rfl, rfl⟩
  · exact Nat.zero_le _
  · rfl

/-- On a program without halts and jumps every call of every machine comes to an end. As long as no
call faults, fresh cores are finished just from the call on that is one more than the bundles with a
pause, or from the first call on where pauses are not honoured. They all stand behind the last
bundle then, and the cycles are the issue cycles of the program. -/
theorem finishes_after_issueCycles {p : Program} (hp : p.GoesOn) {count : Nat} (hcount : 1 ≤ count)
    (words : Nat) (mem : Array Word) (widths : Widths) (regions : Regions) (honorPause : Bool) :
    let start : Machine :=
      { cores := freshCores count words, mem, program := p, regions, widths, honorPause }
    let calls := if honorPause then p.bundles.countP Bundle.pauses + 1 else 1
    (∀ m : Machine, m.program = p → ∃ e n, m.Ends e n) ∧
      ((∀ k < calls, ∀ m, start.Settles k m → ∀ fault n, ¬ m.Ends (.faulted fault) n) →
        ∃ m, start.Settles calls m) ∧
      ∀ k m, start.Settles k m →
        (m.isFinished = true ↔ calls ≤ k) ∧
        (calls ≤ k → (∀ core ∈ m.cores, core.control.pc = p.size) ∧
          m.cycle = p.issueCycles) := by
  intro start calls
  have hstart : InStep p honorPause 0 .running start :=
    inStep_freshCores hcount words mem p widths regions honorPause
  have hcalls : p.bundles.countP (fun b => honorPause && b.pauses) + 1 = calls := by
    cases honorPause <;> simp [calls]
  refine ⟨fun m hm => exists_ends (hm ▸ hp), exists_settles hp hstart, ?_⟩
  intro k m hm
  obtain ⟨pc, state, hstep, hcase⟩ := hm.inStep hp hstart
  rw [hstep.isFinished, decide_eq_true_eq]
  rcases hcase with ⟨hstate, hpauses⟩ | ⟨hstate, rfl, hpauses⟩
  · have hle : p.pausesBefore honorPause pc ≤ _ := Program.countBefore_le
    have hearly : ¬ calls ≤ k := by omega
    exact ⟨iff_of_false hstate hearly, fun hlate => absurd hlate hearly⟩
  · have hall : p.pausesBefore honorPause p.size = _ := Program.countBefore_size
    have hpcs : ∀ core ∈ m.cores, core.control.pc = p.size :=
      fun core hcore => (hstep.cores core hcore).1
    refine ⟨iff_of_true hstate (by omega), fun _ => ⟨hpcs, ?_⟩⟩
    rw [hstep.cycle, Program.countBefore_size, Program.issueCycles]

/-- Two cores, a pause behind the first two bundles, and a bundle of a note alone. -/
theorem finishes_after_issueCycles_two_cores :
    let p : Program := .ofList [.ofOps [.const ⟨0⟩ 3, .const ⟨1⟩ 4], .ofOps [.note "sum"],
      .ofOps [.scalar .add ⟨2⟩ ⟨0⟩ ⟨1⟩, .pause], .single (.storeWord ⟨0⟩ ⟨2⟩)]
    let start : Machine :=
      { cores := freshCores 2 8, mem := Array.replicate 8 0, program := p }
    p.GoesOn ∧ (∃ m, start.Ends .settled m ∧ m.isFinished = false) ∧
      ∃ m, start.Settles 2 m ∧ m.isFinished = true ∧ m.cycle = 3 ∧
        ∀ core ∈ m.cores, core.control.pc = 4 := by
  intro p start
  have hp : p.GoesOn := by
    intro b hb
    simp only [p, Program.ofList, List.mem_toArray] at hb
    revert b
    decide +kernel
  have hcalls : p.bundles.countP Bundle.pauses + 1 = 2 := by decide +kernel
  have hsize : p.size = 4 := rfl
  have hissue : p.issueCycles = 3 := by decide +kernel
  obtain ⟨m, hfirst, hrest⟩ : ∃ m, start.Ends .settled m ∧ m.isFinished = false ∧
      (m.resume.runFor 2).1 = .settled := by
    refine ⟨(start.resume.runFor 3).2, ⟨by simp, 3, Prod.ext ?_ rfl⟩, ?_, ?_⟩
    all_goals decide +kernel
  have hsecond : m.Ends .settled (m.resume.runFor 2).2 :=
    ⟨by simp, 2, Prod.ext hrest.2 rfl⟩
  have hsettles : start.Settles 2 (m.resume.runFor 2).2 := (Settles.start.call hfirst).call hsecond
  obtain ⟨-, -, hall⟩ :=
    finishes_after_issueCycles hp (by decide : 1 ≤ 2) 8 (Array.replicate 8 0) {} [] true
  obtain ⟨hfinished, hend⟩ := hall 2 _ hsettles
  rw [if_pos rfl, hcalls] at hfinished hend
  obtain ⟨hpc, hcycle⟩ := hend (Nat.le_refl 2)
  exact ⟨hp, ⟨m, hfirst, hrest.1⟩, _, hsettles, hfinished.mpr (Nat.le_refl 2), hcycle.trans hissue,
    hpc⟩

end Machine

end TreeWalk
