import TreeWalk.Proofs.BarrierRun
import TreeWalk.Proofs.StoreHistory

/-!
# Halts and pauses of packed code

A halt or a pause reads and writes no address, so packing lets the operations behind it join its
bundle as long as the engines have room. They have taken effect when the core rests. The packed
program therefore rests with the same contents as the program of one operation a bundle just when
these operations change nothing.
-/

namespace TreeWalk

namespace Contents

theorem id_of_execute {ops : List Op} {s t : Contents} (h : execute ops s = some t) :
    t.id = s.id := by
  induction ops generalizing s with
  | nil =>
    obtain rfl := Option.some.inj h
    rfl
  | cons op rest ih =>
    obtain ⟨u, hu, hrest⟩ := Option.bind_eq_some_iff.mp h
    unfold Op.execute at hu
    split at hu
    · exact (ih hrest).trans (commit_frame hu).1
    · cases hu

end Contents

namespace Machine

theorem observed_holding_iff {m n : Machine} {s t : Contents} (hid : s.id = t.id)
    {pc pc' cycle cycle' : Nat} {state state' : RunState} :
    ((m.holding s pc state cycle).cores.map (·.scratch) =
        (n.holding t pc' state' cycle').cores.map (·.scratch) ∧
      (m.holding s pc state cycle).cores.map (·.control.trace) =
        (n.holding t pc' state' cycle').cores.map (·.control.trace) ∧
      (m.holding s pc state cycle).mem = (n.holding t pc' state' cycle').mem) ↔ s = t := by
  rcases s with ⟨id, scratch, mem, trace⟩
  rcases t with ⟨id', scratch', mem', trace'⟩
  obtain rfl : id = id' := hid
  simp only [holding, Contents.core, List.map_cons, List.map_nil, List.cons.injEq, and_true,
    Contents.mk.injEq, true_and]
  tauto

/-- A program of runs rests behind each run that halts or pauses, with what all operations up to
there make of the contents. -/
theorem solo_settles_iff {widths : Widths} {before : List (List Op)} {last : List Op}
    {scratch mem : Array Word} {honorPause : Bool}
    (hruns : ∀ r ∈ before ++ [last], Bundlable widths r)
    (hs : AllUndisturbed (before ++ [last]) ⟨0, scratch, mem, #[]⟩)
    (hhalt : ∀ r ∈ before, ∀ op ∈ r, op.rest? honorPause ≠ some .stopped)
    (hrest : last.any (Op.rests honorPause) = true) (after : List (List Op)) (regions : Regions)
    (n : Machine) :
    let machine : Machine := .solo scratch mem
      (.ofList ((before ++ last :: after).map .ofOps)) widths regions honorPause
    machine.Settles (before.countP (fun r => r.any (Op.rests honorPause)) + 1) n ↔
      ∃ t, execute (before.flatten ++ last) ⟨0, scratch, mem, #[]⟩ = some t ∧
        n = machine.holding t (before.length + 1) (restAfter honorPause last .running)
          (machine.program.countBefore Bundle.isEffective (before.length + 1)) := by
  intro machine
  have hbundles : (before ++ last :: after).map Bundle.ofOps =
      [] ++ (before ++ [last]).map Bundle.ofOps ++ after.map Bundle.ofOps := by simp
  have hprogram : machine.HasBundles 0 ((before ++ [last]).map .ofOps) :=
    hasBundles_of_program_eq [] (after.map .ofOps) (congrArg Program.ofList hbundles)
  have hcycle : machine.program.countBefore Bundle.isEffective (before.length + 1) =
      0 + ((before ++ [last]).map Bundle.ofOps).countP Bundle.isEffective := by
    have htake : ((before ++ last :: after).map Bundle.ofOps).take (before.length + 1) =
        (before ++ [last]).map Bundle.ofOps := by
      rw [hbundles, List.nil_append]
      exact List.take_left' (by simp)
    simp only [Program.countBefore, machine, solo, Program.ofList, htake, Nat.zero_add]
  have hreaches := reaches_iff (n := n) hprogram hruns hs hhalt hrest 0
  rw [Nat.zero_add] at hreaches
  rw [hcycle, settles_succ_iff_reaches]
  exact hreaches

end Machine

namespace Packing

variable {widths : Widths} {ops : List Op}

theorem bundlable_cut (hwidths : ∀ e, e ≠ .debug → 1 ≤ widths.of e)
    (hjump : ∀ op ∈ ops, op.isJump = false) (hfits : ∀ op ∈ ops, op.Fits) (mode : Mode) :
    ∀ r ∈ cut mode widths ops, Bundlable widths r := by
  intro r hr
  obtain ⟨hspares, hwithin⟩ := cut_spec hwidths mode ops r hr
  have hsub := sublist_of_mem_cut hr
  exact ⟨fun op hop => hjump op (hsub.mem hop), fun op hop => hfits op (hsub.mem hop), hspares,
    hwithin⟩

theorem execute_append_barrier {barrier : Op} (hjump : barrier.isJump = false)
    {honorPause : Bool} {state : RunState} (hbarrier : barrier.rest? honorPause = some state)
    (xs post : List Op) (s : Contents) :
    execute (xs ++ barrier :: post) s = (execute xs s).bind (execute post) := by
  have hstraight : barrier.isStraight ≠ true := by
    intro h
    rw [Op.rest?_of_isStraight h] at hbarrier
    cases hbarrier
  rw [execute_append]
  refine Option.bind_congr fun t _ => ?_
  rw [execute, Op.execute_eq_self hstraight hjump, Option.bind_some]

section Barriers

variable {barrier : Op} {honorPause : Bool} {state : RunState}

/-- Packed code rests at the bundle of a halt or a pause with what the operations before the
barrier, and behind these the operations that have joined its bundle, make of the contents. -/
theorem settles_iff (hwidths : ∀ e, e ≠ .debug → 1 ≤ widths.of e) {mode : Mode}
    {before after : List (List Op)} {pre post : List Op}
    (hcut : cut mode widths ops = before ++ (pre ++ barrier :: post) :: after)
    (hjump : ∀ op ∈ ops, op.isJump = false) (hfits : ∀ op ∈ ops, op.Fits)
    (hbarrier : barrier.rest? honorPause = some state)
    (hhalt : ∀ op ∈ before.flatten, op.rest? honorPause ≠ some .stopped) {scratch mem : Array Word}
    (hs : AllUndisturbed (before ++ [pre ++ barrier :: post]) ⟨0, scratch, mem, #[]⟩)
    (regions : Regions) (m : Machine) :
    let machine : Machine :=
      .solo scratch mem (.ofList (pack mode widths ops)) widths regions honorPause
    machine.Settles (before.countP (fun r => r.any (Op.rests honorPause)) + 1) m ↔
      ∃ u t, execute (before.flatten ++ pre) ⟨0, scratch, mem, #[]⟩ = some u ∧
        execute post u = some t ∧
        m = machine.holding t (before.length + 1) (restAfter honorPause post state)
          (machine.program.countBefore Bundle.isEffective (before.length + 1)) := by
  intro machine
  have hruns : ∀ r ∈ before ++ [pre ++ barrier :: post], Bundlable widths r := by
    intro r hr
    refine bundlable_cut hwidths hjump hfits mode r ?_
    rw [hcut]
    grind
  have hquiet : ∀ r ∈ before, ∀ op ∈ r, op.rest? honorPause ≠ some .stopped :=
    fun r hr op hop => hhalt op (List.mem_flatten.mpr ⟨r, hr, hop⟩)
  have hop : barrier ∈ ops := by
    rw [← flatten_cut mode widths ops, hcut]
    simp
  have hstate : restAfter honorPause (pre ++ barrier :: post) .running =
      restAfter honorPause post state := by
    rw [restAfter_append, restAfter_cons, hbarrier, Option.getD_some]
  have hiff := Machine.solo_settles_iff hruns hs hquiet (by simp [Op.rests, hbarrier]) after
    regions m
  rw [← hcut, ← pack_eq_map_cut, hstate, ← List.append_assoc,
    execute_append_barrier (hjump barrier hop) hbarrier] at hiff
  refine hiff.trans ?_
  constructor
  · rintro ⟨t, ht, rfl⟩
    obtain ⟨u, hu, ht⟩ := Option.bind_eq_some_iff.mp ht
    exact ⟨u, t, hu, ht, rfl⟩
  · rintro ⟨u, t, hu, ht, rfl⟩
    exact ⟨t, Option.bind_eq_some_iff.mpr ⟨u, hu, ht⟩, rfl⟩

theorem unit_settles_iff (hwidths : ∀ e, e ≠ .debug → 1 ≤ widths.of e) {xs ys : List Op}
    (hops : ops = xs ++ barrier :: ys) (hjump : ∀ op ∈ ops, op.isJump = false)
    (hfits : ∀ op ∈ ops, op.Fits) (hbarrier : barrier.rest? honorPause = some state)
    (hhalt : ∀ op ∈ xs, op.rest? honorPause ≠ some .stopped) (scratch mem : Array Word)
    (regions : Regions) (n : Machine) :
    let machine : Machine :=
      .solo scratch mem (.ofList (pack .unit widths ops)) widths regions honorPause
    machine.Settles (xs.countP (Op.rests honorPause) + 1) n ↔
      ∃ u, execute xs ⟨0, scratch, mem, #[]⟩ = some u ∧
        n = machine.holding u (xs.length + 1) state
          (machine.program.countBefore Bundle.isEffective (xs.length + 1)) := by
  have hcut : cut .unit widths ops =
      cut .unit widths xs ++ ([] ++ barrier :: []) :: cut .unit widths ys := by
    simp [cut, hops]
  have hflat : (cut .unit widths xs).flatten = xs := flatten_cut .unit widths xs
  have hcount : (cut .unit widths xs).countP (fun r => r.any (Op.rests honorPause)) =
      xs.countP (Op.rests honorPause) := by
    rw [cut, List.countP_map]
    exact List.countP_congr fun op _ => by simp
  have hlength : (cut .unit widths xs).length = xs.length := List.length_map ..
  have hs : AllUndisturbed (cut .unit widths xs ++ [[] ++ barrier :: []])
      ⟨0, scratch, mem, #[]⟩ := by
    refine allUndisturbed_of_memory (fun r hr => ?_) _
    obtain ⟨op, rfl⟩ : ∃ op, r = [op] := by
      rcases List.mem_append.mp hr with hr | hr
      · obtain ⟨op, -, rfl⟩ := List.mem_map.mp hr
        exact ⟨op, rfl⟩
      · exact ⟨barrier, List.mem_singleton.mp hr⟩
    exact List.pairwise_singleton ..
  have hiff := settles_iff hwidths hcut hjump hfits hbarrier (by rwa [hflat]) hs regions n
  simpa only [hcount, hflat, hlength, List.append_nil, execute, Option.some.injEq,
    exists_eq_left', exists_and_left, restAfter_nil] using hiff

end Barriers

/-- At a halt or a pause that no halt precedes, code of one operation a bundle rests with what the
operations before the barrier make of the contents. Packed code rests at the bundle of the barrier,
and there the operations that have joined it have taken effect too. So both rest with the same
scratch, trace and memory just when these operations change nothing, provided that no load up to
there is disturbed by a store of its own bundle. -/
theorem packed_rests_at_barrier (hwidths : ∀ e, e ≠ .debug → 1 ≤ widths.of e) {xs ys : List Op}
    {barrier : Op} (hops : ops = xs ++ barrier :: ys) (hjump : ∀ op ∈ ops, op.isJump = false)
    (hfits : ∀ op ∈ ops, op.Fits) {honorPause : Bool} {state : RunState}
    (hbarrier : barrier.rest? honorPause = some state)
    (hhalt : ∀ op ∈ xs, op.rest? honorPause ≠ some .stopped)
    (scratch mem : Array Word) (regions : Regions) :
    let start : Contents := ⟨0, scratch, mem, #[]⟩
    let machine (mode : Mode) : Machine :=
      .solo scratch mem (.ofList (pack mode widths ops)) widths regions honorPause
    let cycles (mode : Mode) (bundles : Nat) : Nat :=
      (machine mode).program.countBefore Bundle.isEffective bundles
    ∃ before pre post after,
      runs widths ops = before ++ (pre ++ barrier :: post) :: after ∧
      before.flatten ++ pre = xs ∧ post ++ after.flatten = ys ∧
      (∀ n, (machine .unit).Settles (xs.countP (Op.rests honorPause) + 1) n ↔
        ∃ u, execute xs start = some u ∧
          n = (machine .unit).holding u (xs.length + 1) state (cycles .unit (xs.length + 1))) ∧
      (AllUndisturbed (before ++ [pre ++ barrier :: post]) start →
        (∀ m, (machine .wide).Settles
            (before.countP (fun r => r.any (Op.rests honorPause)) + 1) m ↔
          ∃ u t, execute xs start = some u ∧ execute post u = some t ∧
            m = (machine .wide).holding t (before.length + 1) (restAfter honorPause post state)
              (cycles .wide (before.length + 1))) ∧
        ∀ m n, (machine .wide).Settles
            (before.countP (fun r => r.any (Op.rests honorPause)) + 1) m →
          (machine .unit).Settles (xs.countP (Op.rests honorPause) + 1) n →
          ((m.cores.map (·.scratch) = n.cores.map (·.scratch) ∧
              m.cores.map (·.control.trace) = n.cores.map (·.control.trace) ∧ m.mem = n.mem) ↔
            ∀ u, execute xs start = some u → execute post u = some u)) := by
  intro start machine cycles
  obtain ⟨before, pre, post, after, hcut, rfl, hys⟩ :=
    exists_run_of_flatten_eq ((flatten_cut .wide widths ops).trans hops)
  have hunit := unit_settles_iff hwidths hops hjump hfits hbarrier hhalt scratch mem regions
  refine ⟨before, pre, post, after, hcut, rfl, hys, hunit, fun hs => ?_⟩
  have hwide := settles_iff hwidths hcut hjump hfits hbarrier
    (fun op hop => hhalt op (List.mem_append_left _ hop)) hs regions
  refine ⟨hwide, fun m n hm hn => ?_⟩
  obtain ⟨u, t, hu, ht, rfl⟩ := (hwide m).mp hm
  obtain ⟨u', hu', rfl⟩ := (hunit n).mp hn
  obtain rfl : u = u' := Option.some.inj (hu.symm.trans hu')
  rw [Machine.observed_holding_iff (Contents.id_of_execute ht)]
  constructor
  · rintro rfl v hv
    obtain rfl : t = v := Option.some.inj (hu.symm.trans hv)
    exact ht
  · intro h
    exact Option.some.inj (ht.symm.trans (h u hu))

/-- Two constants fill the loads of the bundle of a pause, so the constant behind it waits. -/
theorem packed_rests_at_full_bundle :
    let ops : List Op := [.const ⟨0⟩ 5, .const ⟨1⟩ 6, .pause, .const ⟨2⟩ 7]
    let machine (mode : Mode) : Machine :=
      .solo (Array.replicate 3 0) #[] (.ofList (pack mode {} ops)) {}
    ∃ m n, (machine .wide).Settles 1 m ∧ (machine .unit).Settles 1 n ∧
      m.cores.map (·.scratch) = n.cores.map (·.scratch) ∧
      m.cores.map (·.control.trace) = n.cores.map (·.control.trace) ∧ m.mem = n.mem := by
  intro ops machine
  have hwidths : ∀ e, e ≠ Engine.debug → 1 ≤ ({} : Widths).of e := by
    intro e _
    cases e <;> decide
  have hfits : ∀ op ∈ ops, op.Fits := by
    simp [ops, Op.const, Op.pause, Op.Fits, LoadOp.Fits, FlowOp.Fits]
  have hops : ops = ops.take 2 ++ .pause :: ops.drop 3 := rfl
  have hbarrier : Op.rest? true .pause = some .paused := rfl
  obtain ⟨before, pre, post, after, hcut, hpre, -, -, hwide⟩ :=
    packed_rests_at_barrier hwidths hops (by decide) hfits hbarrier (by decide)
      (Array.replicate 3 0) #[] []
  have hpost : before = [] ∧ post = [] := by
    have hruns : runs {} ops = [ops.take 3, ops.drop 3] := by decide +kernel
    rw [hruns] at hcut
    cases before with
    | nil =>
      rw [List.flatten_nil, List.nil_append] at hpre
      subst hpre
      simpa [ops, eq_comm] using (List.cons.inj hcut).1
    | cons run before =>
      obtain ⟨rfl, -⟩ := List.cons.inj hcut
      have hlength := congrArg List.length hpre
      simp [ops] at hlength
  obtain ⟨rfl, rfl⟩ := hpost
  have hrest (mode : Mode) :
      (machine mode).Settles 1 ((machine mode).resume.runFor 3).2 :=
    .call .start ⟨by simp, 3, Prod.ext (by cases mode <;> decide +kernel) rfl⟩
  have hs : AllUndisturbed ([] ++ [pre ++ [.pause]]) ⟨0, Array.replicate 3 0, #[], #[]⟩ := by
    refine allUndisturbed_of_memory (fun r hr => ?_) _
    obtain rfl := List.mem_singleton.mp hr
    rw [← List.nil_append pre, ← List.flatten_nil, hpre]
    decide
  refine ⟨_, _, hrest .wide, hrest .unit, ((hwide hs).2 _ _ (hrest .wide) (hrest .unit)).mpr ?_⟩
  exact fun u _ => rfl

/-- A constant behind a pause is in its place when the packed program pauses. The program of one
operation a bundle pauses before it. -/
theorem packed_pause_lets_const_pass :
    let ops : List Op := [.pause, .const ⟨0⟩ 7]
    let machine (mode : Mode) : Machine :=
      .solo (Array.replicate 1 0) #[] (.ofList (pack mode {} ops)) {}
    ∃ m n, (machine .wide).Settles 1 m ∧ (machine .unit).Settles 1 n ∧
      m.cores.map (·.control.state) = [.paused] ∧ n.cores.map (·.control.state) = [.paused] ∧
      m.cores.map (·.scratch) = [#[7]] ∧ n.cores.map (·.scratch) = [#[0]] := by
  intro ops machine
  have hrest (mode : Mode) :
      (machine mode).Settles 1 ((machine mode).resume.runFor 1).2 :=
    .call .start ⟨by simp, 1, Prod.ext (by cases mode <;> decide +kernel) rfl⟩
  exact ⟨_, _, hrest .wide, hrest .unit, by decide +kernel, by decide +kernel, by decide +kernel,
    by decide +kernel⟩

end Packing

end TreeWalk
