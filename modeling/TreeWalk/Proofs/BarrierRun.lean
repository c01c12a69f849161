import TreeWalk.Proofs.RestState
import TreeWalk.Proofs.UndisturbedRun

/-!
# Runs that halt or pause

A run without jumps does to the contents what its straight operations do, and to the run state what
its halts and pauses do. Call by call, a program of such runs is followed from one resting place of
its core to the next.
-/

namespace TreeWalk

def FlowOp.isJump : FlowOp → Bool
  | .jumpIf .. | .jumpByIf .. | .jump _ | .jumpTo _ => true
  | _ => false

namespace Op

def isJump : Op → Bool
  | flow op => op.isJump
  | _ => false

def rests (honorPause : Bool) (op : Op) : Bool := (op.rest? honorPause).isSome

variable {op : Op}

theorem rest?_of_isStraight (h : op.isStraight = true) (honorPause : Bool) :
    op.rest? honorPause = none := by
  cases op with
  | flow op => cases op <;> first | rfl | cases h
  | alu | valu | load | store | note => rfl

theorem eq_halt_or_eq_pause (hstraight : op.isStraight ≠ true) (hjump : op.isJump = false) :
    op = .flow .halt ∨ op = .pause := by
  cases op with
  | flow op =>
    cases op with
    | halt => exact .inl rfl
    | pause => exact .inr rfl
    | jumpIf | jumpByIf | jump | jumpTo => cases hjump
    | select | addImm | blockSelect | trace | coreId => exact absurd rfl hstraight
  | alu | valu | load | store | note => exact absurd rfl hstraight

theorem execute_eq_self (hstraight : op.isStraight ≠ true) (hjump : op.isJump = false)
    (s : Contents) : op.execute s = some s := by
  rcases eq_halt_or_eq_pause hstraight hjump with rfl | rfl <;>
    simp [Op.execute, Op.pause, Op.effect, FlowOp.effect, pure, Except.pure, Contents.commit,
      Contents.view, Scratch.write, Memory.write]

end Op

section RestAfter

variable {honorPause : Bool} {ops : List Op}

theorem Op.rest?_ne_running (op : Op) : op.rest? honorPause ≠ some .running := by
  cases op with
  | flow op => cases op <;> cases honorPause <;> simp [Op.rest?, FlowOp.rest?]
  | alu | valu | load | store | note => simp [Op.rest?]

theorem restAfter_of_no_halt (h : ∀ op ∈ ops, op.rest? honorPause ≠ some .stopped)
    (state : RunState) :
    restAfter honorPause ops state = if ops.any (Op.rests honorPause) then .paused else state := by
  induction ops generalizing state with
  | nil => rfl
  | cons op rest ih =>
    rw [restAfter_cons, ih fun x hx => h x (List.mem_cons_of_mem op hx), List.any_cons]
    cases hop : op.rest? honorPause with
    | none => simp [Op.rests, hop]
    | some target =>
      have hpaused : target = .paused := by
        cases target with
        | running => exact absurd hop op.rest?_ne_running
        | paused => rfl
        | stopped => exact absurd hop (h op List.mem_cons_self)
      simp [Op.rests, hop, hpaused]

theorem restAfter_ne_running (h : ops.any (Op.rests honorPause) = true) (state : RunState) :
    restAfter honorPause ops state ≠ .running := by
  induction ops generalizing state with
  | nil => cases h
  | cons op rest ih =>
    rw [restAfter_cons]
    by_cases hrest : rest.any (Op.rests honorPause) = true
    · exact ih hrest _
    · have hquiet : ∀ x ∈ rest, x.rest? honorPause = none := by simpa [Op.rests] using hrest
      have hop : Op.rests honorPause op = true := by
        rw [List.any_cons, Bool.or_eq_true] at h
        exact h.resolve_right hrest
      obtain ⟨target, htarget⟩ := Option.isSome_iff_exists.mp hop
      rw [restAfter_of_no_halt (fun x hx => by simp [hquiet x hx]), if_neg hrest, htarget]
      rintro rfl
      exact op.rest?_ne_running htarget

end RestAfter

/-! ## The straight part of a run -/

section StraightPart

variable {run : List Op} {s t : Contents}

theorem execute_filter_isStraight (hjump : ∀ op ∈ run, op.isJump = false) (s : Contents) :
    execute (run.filter Op.isStraight) s = execute run s := by
  induction run generalizing s with
  | nil => rfl
  | cons op rest ih =>
    have ih := ih fun x hx => hjump x (List.mem_cons_of_mem op hx)
    by_cases hop : op.isStraight = true
    · rw [List.filter_cons_of_pos hop, execute, execute]
      exact Option.bind_congr fun t _ => ih t
    · rw [List.filter_cons_of_neg hop, ih, execute,
        Op.execute_eq_self hop (hjump op List.mem_cons_self), Option.bind_some]

theorem Undisturbed.filter_isStraight (h : Undisturbed run s) :
    Undisturbed (run.filter Op.isStraight) s := by
  intro before op after heq
  obtain ⟨before, rest, rfl, rfl, hrest⟩ := List.filter_eq_append_iff.mp heq
  obtain ⟨gap, after, rfl, hgap, -, -⟩ := List.filter_eq_cons_iff.mp hrest
  have hstores : (wishes s.view (before.filter Op.isStraight)).mem =
      (wishes s.view (before ++ gap)).mem := by
    refine flatMap_eq_of_filter_eq (fun op (h : op.engine ≠ .store) => Op.mem_wish_eq_nil h) ?_
    have hkeep (ops : List Op) : (ops.filter Op.isStraight).filter (fun op => op.engine = .store) =
        ops.filter fun op => op.engine = .store := by
      rw [List.filter_filter]
      refine List.filter_congr fun x _ => ?_
      cases x <;> simp [Op.engine, Op.isStraight]
    have hnone : gap.filter Op.isStraight = [] := List.filter_eq_nil_iff.mpr hgap
    rw [hkeep, List.filter_append, ← hkeep gap, hnone, List.filter_nil, List.append_nil]
  rw [hstores]
  exact h (before ++ gap) op after (by simp)

theorem Bundle.issued_ofOps_filter (run : List Op) :
    (ofOps (run.filter Op.isStraight)).issued = (ofOps run).issued.filter Op.isStraight := by
  rw [issued, issued, List.filter_flatMap]
  refine List.flatMap_congr fun e _ => ?_
  rw [on_ofOps, on_ofOps, List.filter_filter, List.filter_filter]
  simp only [Bool.and_comm]

theorem Bundle.Within.filter {widths : Widths} (h : (ofOps run).Within widths) :
    (ofOps (run.filter Op.isStraight)).Within widths := by
  intro e he
  refine Nat.le_trans ?_ (h e he)
  rw [count_ofOps, count_ofOps]
  exact List.filter_sublist.countP_le

def Effect.inState (e : Effect) (state : RunState) : Effect :=
  { e with control := { e.control with state } }

theorem collect_filter_isStraight {v : View} {ops : List Op}
    (hjump : ∀ op ∈ ops, op.isJump = false) (e : Effect) (state : RunState) :
    (∀ e', collect v (ops.filter Op.isStraight) e = (e', none) →
      collect v ops (e.inState state) = (e'.inState (restAfter v.honorPause ops state), none)) ∧
    ((collect v (ops.filter Op.isStraight) e).2 ≠ none →
      (collect v ops (e.inState state)).2 ≠ none) := by
  induction ops generalizing e state with
  | nil => exact ⟨fun e' h => by cases h; rfl, id⟩
  | cons op rest ih =>
    have ih := ih fun x hx => hjump x (List.mem_cons_of_mem op hx)
    by_cases hop : op.isStraight = true
    · rw [List.filter_cons_of_pos hop, restAfter_cons, Op.rest?_of_isStraight hop]
      simp only [collect, op.effect_control hop v e.control,
        op.effect_control hop v (e.inState state).control]
      cases op.effect v {} with
      | error f => exact ⟨fun e' h => by simp [Except.map] at h, fun _ => by simp [Except.map]⟩
      | ok f =>
        exact ih { scratch := e.scratch ++ f.scratch, mem := e.mem ++ f.mem,
                   control := (f.under e.control).control } state
    · have heffect : op.effect v (e.inState state).control =
          .ok { control := { e.control with state := (op.rest? v.honorPause).getD state } } := by
        rcases Op.eq_halt_or_eq_pause hop (hjump op List.mem_cons_self) with rfl | rfl
        · rfl
        · cases hhonor : v.honorPause <;>
            simp [Op.pause, Op.effect, FlowOp.effect, hhonor, Op.rest?, FlowOp.rest?, pure,
              Except.pure, Effect.inState]
      have hnext : collect v (op :: rest) (e.inState state) =
          collect v rest (e.inState ((op.rest? v.honorPause).getD state)) := by
        simp only [collect, heffect]
        simp [Effect.inState]
      rw [List.filter_cons_of_neg hop, restAfter_cons, hnext]
      exact ih e _

end StraightPart

/-! ## Issuing a run without jumps -/

/-- What a run without jumps needs to become a bundle. -/
structure Bundlable (widths : Widths) (run : List Op) : Prop where
  noJump : ∀ op ∈ run, op.isJump = false
  fits : ∀ op ∈ run, op.Fits
  spares : run.Pairwise Op.Spares
  within : (Bundle.ofOps run).Within widths

theorem Effect.commit_inState (e : Effect) (state : RunState) (id : Nat)
    (scratch mem : Array Word) :
    (e.inState state).commit id scratch mem =
      let r := e.commit id scratch mem
      ⟨{ r.core with control.state := state }, r.mem, r.fault⟩ := by
  unfold Effect.commit Effect.inState
  rcases Scratch.write e.scratch scratch with ⟨scratch', fault⟩
  cases fault <;> rfl

namespace Core

variable {run : List Op} {widths : Widths} {s t : Contents}

theorem issue_eq_collect {b : Bundle} (h : b.Within widths) (core : Core) (mem : Array Word)
    (honorPause : Bool) (pc : Nat) :
    core.issue mem b widths honorPause pc =
      match collect (core.view mem honorPause pc) b.issued { control := core.control } with
      | (e, none) => e.commit core.id core.scratch mem
      | (e, fault) => ⟨⟨core.id, core.scratch, e.control⟩, mem, fault⟩ := by
  rw [issue_eq, collectEngines_eq_collect h]
  rfl

theorem issue_ofOps_filter (h : Bundlable widths run) (core : Core) (mem : Array Word)
    (honorPause : Bool) (pc : Nat) :
    let straight := core.issue mem (.ofOps (run.filter Op.isStraight)) widths honorPause pc
    let whole := core.issue mem (.ofOps run) widths honorPause pc
    (straight.fault = none → whole =
      ⟨{ straight.core with control.state := restAfter honorPause run core.control.state },
        straight.mem, none⟩) ∧
    (straight.fault ≠ none → whole.fault ≠ none) := by
  have hjump : ∀ op ∈ (Bundle.ofOps run).issued, op.isJump = false := fun op hop =>
    h.noJump op (List.mem_filter.mp ((Bundle.issued_ofOps_perm run).mem_iff.mp hop)).1
  obtain ⟨hgood, hbad⟩ := collect_filter_isStraight (v := core.view mem honorPause pc) hjump
    { control := core.control } core.control.state
  have hself : ({ control := core.control } : Effect).inState core.control.state =
      { control := core.control } := rfl
  rw [hself, ← Bundle.issued_ofOps_filter, restAfter_issued_ofOps] at hgood
  rw [hself, ← Bundle.issued_ofOps_filter] at hbad
  rw [issue_eq_collect h.within, issue_eq_collect h.within.filter]
  rcases hc : collect (core.view mem honorPause pc)
    (Bundle.ofOps (run.filter Op.isStraight)).issued { control := core.control } with ⟨e, fault⟩
  rw [hc] at hbad
  cases fault with
  | none =>
    rw [hgood e hc]
    simp only [Effect.commit_inState]
    exact ⟨fun hfault => by rw [hfault]; rfl, fun hfault => hfault⟩
  | some f =>
    refine ⟨fun hfault => absurd hfault (by simp), fun _ => ?_⟩
    rcases hw : collect (core.view mem honorPause pc) (Bundle.ofOps run).issued
      { control := core.control } with ⟨e', fault⟩
    rw [hw] at hbad
    cases fault with
    | none => exact absurd rfl (hbad (by simp))
    | some f' => simp

/-- A run that goes well leaves the contents that its operations make, and the run state that its
halts and pauses set. -/
theorem issue_ofOps (h : Bundlable widths run) (hs : Undisturbed run s) (honorPause : Bool)
    (pc next : Nat) :
    (∀ t, execute run s = some t →
      (s.core next .running).issue s.mem (.ofOps run) widths honorPause pc =
        ⟨t.core next (restAfter honorPause run .running), t.mem, none⟩) ∧
    (execute run s = none →
      ((s.core next .running).issue s.mem (.ofOps run) widths honorPause pc).fault ≠ none) := by
  have hstraight : ∀ op ∈ run.filter Op.isStraight, op.isStraight = true :=
    fun op hop => (List.mem_filter.mp hop).2
  have hfit : ∀ op ∈ run.filter Op.isStraight, op.Fits :=
    fun op hop => h.fits op (List.mem_filter.mp hop).1
  have hspares := h.spares.sublist (List.filter_sublist (p := Op.isStraight))
  have hexecute : executeTogether (Bundle.ofOps (run.filter Op.isStraight)).issued s =
      execute run s := by
    rw [executeTogether_issued_ofOps_eq hspares hstraight,
      executeTogether_eq_execute_of_undisturbed hstraight hfit hspares hs.filter_isStraight,
      execute_filter_isStraight h.noJump]
  obtain ⟨hgood, hbad⟩ := issue_ofOps_filter h (s.core next .running) s.mem honorPause pc
  refine ⟨fun t ht => ?_, fun hnone => ?_⟩
  · have hissue := issue_eq_of_executeTogether (Packing.isStraight_ofOps hstraight) h.within.filter
      (hexecute.trans ht) honorPause pc next .running
    rw [hissue] at hgood
    exact hgood rfl
  · exact hbad (issue_fault_of_executeTogether (Packing.isStraight_ofOps hstraight) h.within.filter
      (hexecute.trans hnone) honorPause pc next .running)

end Core

namespace Machine

variable {m n o : Machine} {calls : Nat}

/-! ## Calls from the first one on -/

theorem settles_zero_iff : m.Settles 0 n ↔ n = m := by
  constructor
  · rintro ⟨⟩
    rfl
  · rintro rfl
    exact .start

theorem settles_succ_iff :
    m.Settles (calls + 1) n ↔ ∃ o, m.Ends .settled o ∧ o.Settles calls n := by
  induction calls generalizing n with
  | zero =>
    constructor
    · rintro (_ | ⟨⟨⟩, hends⟩)
      exact ⟨n, hends, .start⟩
    · rintro ⟨o, hends, ⟨⟩⟩
      exact .call .start hends
  | succ calls ih =>
    constructor
    · rintro (_ | ⟨hsettles, hends⟩)
      obtain ⟨o, hfirst, hrest⟩ := ih.mp hsettles
      exact ⟨o, hfirst, .call hrest hends⟩
    · rintro ⟨o, hfirst, _ | ⟨hrest, hends⟩⟩
      exact .call (ih.mpr ⟨o, hfirst, hrest⟩) hends

/-- The call that is under way settles, and some more calls lead to the machine `n`. -/
def Reaches (m : Machine) (calls : Nat) (n : Machine) : Prop :=
  ∃ o limit, m.runFor limit = (.settled, o) ∧ o.Settles calls n

theorem settles_succ_iff_reaches : m.Settles (calls + 1) n ↔ m.resume.Reaches calls n := by
  rw [settles_succ_iff]
  constructor
  · rintro ⟨o, ⟨-, limit, hrun⟩, hsettles⟩
    exact ⟨o, limit, hrun, hsettles⟩
  · rintro ⟨o, limit, hrun, hsettles⟩
    exact ⟨o, ⟨by simp, limit, hrun⟩, hsettles⟩

theorem reaches_iff_of_idle (h : m.isActive = false) :
    m.Reaches calls n ↔ m.Settles calls n := by
  constructor
  · rintro ⟨o, limit, hrun, hsettles⟩
    rw [runFor_of_not_isActive h] at hrun
    obtain rfl := (Prod.mk.inj hrun).2
    exact hsettles
  · exact fun hsettles => ⟨m, 0, runFor_of_not_isActive h 0, hsettles⟩

theorem reaches_iff_of_step (hactive : m.isActive = true) (hstep : m.step = (o, none)) :
    m.Reaches calls n ↔ o.Reaches calls n := by
  constructor
  · rintro ⟨q, limit, hrun, hsettles⟩
    cases limit with
    | zero =>
      rw [runFor, hactive] at hrun
      cases hrun
    | succ limit =>
      rw [runFor, hactive, if_pos rfl, hstep] at hrun
      exact ⟨q, limit, hrun, hsettles⟩
  · rintro ⟨q, limit, hrun, hsettles⟩
    refine ⟨q, limit + 1, ?_, hsettles⟩
    rw [runFor, hactive, if_pos rfl, hstep]
    exact hrun

theorem not_reaches_of_fault (hactive : m.isActive = true) (hstep : m.step.2 ≠ none) :
    ¬ m.Reaches calls n := by
  rintro ⟨q, limit, hrun, -⟩
  rcases hs : m.step with ⟨o, fault⟩
  rw [hs] at hstep
  cases fault with
  | none => exact hstep rfl
  | some f =>
    cases limit with
    | zero =>
      rw [runFor, hactive] at hrun
      cases hrun
    | succ limit =>
      rw [runFor, hactive, if_pos rfl, hs] at hrun
      cases hrun

/-! ## From one resting place to the next -/

variable {run last : List Op} {rs : List (List Op)} {s : Contents} {pc : Nat}

theorem step_ofOps (hbundle : m.program.get? pc = some (.ofOps run))
    (h : Bundlable m.widths run) (hs : Undisturbed run s) (cycle : Nat) :
    (∀ t, execute run s = some t → (m.holding s pc .running cycle).step =
      (m.holding t (pc + 1) (restAfter m.honorPause run .running)
        (cycle + if (Bundle.ofOps run).isEffective then 1 else 0), none)) ∧
    (execute run s = none → (m.holding s pc .running cycle).step.2 ≠ none) := by
  obtain ⟨hgood, hbad⟩ := Core.issue_ofOps h hs m.honorPause pc (pc + 1)
  refine ⟨fun t ht => ?_, fun hnone => ?_⟩
  · rw [step_holding, advance_of_get? hbundle, hgood t ht]
    cases (Bundle.ofOps run).isEffective <;> rfl
  · have hfault := hbad hnone
    rw [step_holding, advance_of_get? hbundle]
    rcases hissue : (s.core (pc + 1) .running).issue s.mem (.ofOps run) m.widths m.honorPause pc
      with ⟨core, mem, fault⟩
    rw [hissue] at hfault
    cases fault with
    | none => exact absurd rfl hfault
    | some f => simp

theorem reaches_holding_iff (hbundle : m.program.get? pc = some (.ofOps run))
    (h : Bundlable m.widths run) (hs : Undisturbed run s) (cycle : Nat) :
    (m.holding s pc .running cycle).Reaches calls n ↔
      ∃ t, execute run s = some t ∧
        (m.holding t (pc + 1) (restAfter m.honorPause run .running)
          (cycle + if (Bundle.ofOps run).isEffective then 1 else 0)).Reaches calls n := by
  have hactive : (m.holding s pc .running cycle).isActive = true :=
    isActive_holding m s pc .running cycle
  obtain ⟨hgood, hbad⟩ := step_ofOps hbundle h hs cycle
  cases hrun : execute run s with
  | none => simpa using not_reaches_of_fault hactive (hbad hrun)
  | some t => simpa using reaches_iff_of_step hactive (hgood t hrun)

/-- A core that rests stays where it is until the next call, which wakes it if it only paused. -/
theorem reaches_resting_iff {state : RunState} (hstate : state ≠ .running) (cycle : Nat) :
    (m.holding s pc state cycle).Reaches calls n ↔ (m.holding s pc state cycle).Settles calls n :=
  reaches_iff_of_idle (by rw [isActive_holding]; exact decide_eq_false hstate)

theorem reaches_past_iff (hbundle : m.program.get? pc = some (.ofOps run))
    (h : Bundlable m.widths run) (hs : Undisturbed run s)
    (hhalt : ∀ op ∈ run, op.rest? m.honorPause ≠ some .stopped) (cycle : Nat) :
    (m.holding s pc .running cycle).Reaches
        (calls + if run.any (Op.rests m.honorPause) then 1 else 0) n ↔
      ∃ t, execute run s = some t ∧
        (m.holding t (pc + 1) .running
          (cycle + if (Bundle.ofOps run).isEffective then 1 else 0)).Reaches calls n := by
  rw [reaches_holding_iff hbundle h hs, restAfter_of_no_halt hhalt]
  refine exists_congr fun t => and_congr_right fun _ => ?_
  split
  · rw [reaches_resting_iff (by simp), settles_succ_iff_reaches,
      resume_holding_of_ne_stopped (by simp)]
  · rfl

/-- Past runs that do not halt, one call for each that pauses, a core comes to rest behind the next
run that halts or pauses, with what all of them make of its contents. -/
theorem reaches_iff (hprogram : m.HasBundles pc ((rs ++ [last]).map .ofOps))
    (hruns : ∀ r ∈ rs ++ [last], Bundlable m.widths r) (hs : AllUndisturbed (rs ++ [last]) s)
    (hhalt : ∀ r ∈ rs, ∀ op ∈ r, op.rest? m.honorPause ≠ some .stopped)
    (hrest : last.any (Op.rests m.honorPause) = true) (cycle : Nat) :
    (m.holding s pc .running cycle).Reaches
        (rs.countP fun r => r.any (Op.rests m.honorPause)) n ↔
      ∃ t, execute (rs.flatten ++ last) s = some t ∧
        n = m.holding t (pc + rs.length + 1) (restAfter m.honorPause last .running)
          (cycle + ((rs ++ [last]).map Bundle.ofOps).countP Bundle.isEffective) := by
  induction rs generalizing s pc cycle with
  | nil =>
    rw [List.countP_nil, reaches_holding_iff hprogram.head (hruns last (by simp)) hs.1]
    refine exists_congr fun t => and_congr_right fun _ => ?_
    rw [reaches_resting_iff (restAfter_ne_running hrest .running)]
    simp only [settles_zero_iff, List.length_nil, Nat.add_zero, List.nil_append, List.map_cons,
      List.map_nil, List.countP_cons, List.countP_nil, Nat.zero_add]
  | cons run rs ih =>
    have hpc : pc + (run :: rs).length + 1 = pc + 1 + rs.length + 1 := by
      rw [List.length_cons]
      omega
    have hcycle : cycle + (((run :: rs) ++ [last]).map Bundle.ofOps).countP Bundle.isEffective =
        (cycle + if (Bundle.ofOps run).isEffective then 1 else 0) +
          ((rs ++ [last]).map Bundle.ofOps).countP Bundle.isEffective := by
      rw [List.cons_append, List.map_cons, List.countP_cons]
      omega
    rw [List.countP_cons, reaches_past_iff hprogram.head (hruns run (by simp)) hs.1
      (hhalt run List.mem_cons_self), List.flatten_cons, List.append_assoc, execute_append, hpc,
      hcycle]
    have hrest_iff (t : Contents) (ht : execute run s = some t) :=
      ih hprogram.tail (fun r hr => hruns r (List.mem_cons_of_mem run hr)) (hs.2 t ht)
        (fun r hr => hhalt r (List.mem_cons_of_mem run hr))
        (cycle + if (Bundle.ofOps run).isEffective then 1 else 0)
    cases ht : execute run s with
    | none => simp
    | some t => simpa using hrest_iff t ht

end Machine

end TreeWalk
