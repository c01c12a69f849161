import TreeWalk.Proofs.BuildSteps
import TreeWalk.Proofs.KernelRun

/-!
# The scratch budget of a build

A step of a build looks at the capacity only where it asks for scratch. It therefore comes to the
same result on every capacity that is large enough, and on a smaller one it ends at the first
request that passes it.
-/

namespace TreeWalk

/-- The request passes a capacity, within which all words in use still lie. -/
def OutOfScratch.Passes (e : OutOfScratch) (capacity : Nat) : Prop :=
  e.inUse ≤ capacity ∧ capacity < e.inUse + e.requested

namespace Draft

variable {α β : Type} {d d' d'' : Draft}

def withCapacity (d : Draft) (capacity : Nat) : Draft :=
  { d with arena := { d.arena with capacity } }

theorem fails_of_gives_bind {step : Drafting α} {f : α → Drafting β} {a : α} {e : OutOfScratch}
    (h : Gives step d a d') (hf : Fails (f a) d' e d'') : Fails (step >>= f) d e d'' := by
  unfold Gives at h
  rw [Fails, perform_bind, h]
  exact hf

theorem Fails.bind {step : Drafting α} {f : α → Drafting β} {e : OutOfScratch}
    (h : Fails step d e d') : Fails (step >>= f) d e d' := by
  unfold Fails at h
  rw [Fails, perform_bind, h]

/-- With the scratch that `d'` uses, the step comes from `d` to the result `a` and to `d'`. With
less it runs out of scratch. -/
structure Needs (step : Drafting α) (d : Draft) (a : α) (d' : Draft) : Prop where
  used : d.used ≤ d'.used
  gives : ∀ capacity, d'.used ≤ capacity →
    Gives step (d.withCapacity capacity) a (d'.withCapacity capacity)
  fails : ∀ capacity, d.used ≤ capacity → capacity < d'.used →
    ∃ e left, Fails step (d.withCapacity capacity) e left ∧ e.Passes capacity

namespace Needs

variable {step : Drafting α} {a : α}

theorem of_gives (hused : d'.used = d.used)
    (h : ∀ capacity, Gives step (d.withCapacity capacity) a (d'.withCapacity capacity)) :
    Needs step d a d' := by
  constructor
  · exact Nat.le_of_eq hused.symm
  · exact fun capacity _ => h capacity
  · intro capacity hle hlt
    omega

theorem pure (a : α) (d : Draft) : Needs (Pure.pure a) d a d :=
  of_gives rfl fun _ => gives_pure_iff.mpr ⟨rfl, rfl⟩

theorem emit (op : Op) (d : Draft) :
    Needs (Draft.emit op) d () { d with pending := d.pending.push op } :=
  of_gives rfl fun _ => gives_emit_iff.mpr rfl

theorem bind {f : α → Drafting β} {b : β} (h : Needs step d a d') (hf : Needs (f a) d' b d'') :
    Needs (step >>= f) d b d'' := by
  constructor
  · exact Nat.le_trans h.used hf.used
  · intro capacity hle
    have hfirst := h.gives capacity (Nat.le_trans hf.used hle)
    exact gives_bind_iff.mpr ⟨a, _, hfirst, hf.gives capacity hle⟩
  · intro capacity hle hlt
    by_cases hfirst : capacity < d'.used
    · obtain ⟨e, left, hfails, hpasses⟩ := h.fails capacity hle hfirst
      exact ⟨e, left, hfails.bind, hpasses⟩
    · have hle' : d'.used ≤ capacity := Nat.le_of_not_lt hfirst
      obtain ⟨e, left, hfails, hpasses⟩ := hf.fails capacity hle' hlt
      exact ⟨e, left, fails_of_gives_bind (h.gives capacity hle') hfails, hpasses⟩

theorem get_bind {f : Draft → Drafting β} {b : β} (hf : ∀ c, f (d.withCapacity c) = f d)
    (h : Needs (f d) d b d') : Needs (do f (← get)) d b d' := by
  constructor
  · exact h.used
  · intro capacity hle
    rw [gives_get_bind_iff, hf]
    exact h.gives capacity hle
  · intro capacity hle hlt
    obtain ⟨e, left, hfails, hpasses⟩ := h.fails capacity hle hlt
    have hget : Gives (get : Drafting Draft) (d.withCapacity capacity) (d.withCapacity capacity)
        (d.withCapacity capacity) := rfl
    refine ⟨e, left, fails_of_gives_bind hget ?_, hpasses⟩
    rw [hf]
    exact hfails

end Needs

/-- From every draft the step needs some amount of scratch, whatever the capacity. -/
def Scales (step : Drafting α) : Prop := ∀ d, ∃ a d', Needs step d a d'

namespace Scales

variable {step : Drafting α}

theorem pure (a : α) : Scales (Pure.pure a : Drafting α) := fun d => ⟨a, d, .pure a d⟩

theorem emit (op : Op) : Scales (Draft.emit op) := fun d => ⟨_, _, .emit op d⟩

theorem bind {f : α → Drafting β} (h : Scales step) (hf : ∀ a, Scales (f a)) :
    Scales (step >>= f) := by
  intro d
  obtain ⟨a, d', ha⟩ := h d
  obtain ⟨b, d'', hb⟩ := hf a d'
  exact ⟨b, d'', ha.bind hb⟩

theorem reserve (name : Option String) (n : Nat) : Scales (Draft.reserve name n) := by
  intro d
  let regions := name.elim d.arena.regions fun name =>
    d.arena.regions.insert ⟨Addr.ofNat d.used, name, n⟩
  let d' : Draft := { d with arena := ⟨d.used + n, d.arena.capacity, regions⟩ }
  have hgives : ∀ capacity, d'.used ≤ capacity →
      Gives (Draft.reserve name n) (d.withCapacity capacity) (Addr.ofNat d.used)
        (d'.withCapacity capacity) := by
    intro capacity hle
    have hreserve : (d.withCapacity capacity).arena.reserve name n =
        .ok (Addr.ofNat d.used, (d'.withCapacity capacity).arena) := Arena.reserve_of_fits hle
    rw [Gives, perform_reserve, hreserve]
    rfl
  have hfails : ∀ capacity, d.used ≤ capacity → capacity < d'.used →
      ∃ e left, Fails (Draft.reserve name n) (d.withCapacity capacity) e left ∧
        e.Passes capacity := by
    intro capacity hused hlt
    have hreserve : (d.withCapacity capacity).arena.reserve name n =
        .error ⟨name, n, d.used, capacity⟩ := Arena.reserve_eq_error_iff.mpr ⟨hlt, rfl⟩
    have hfails : Fails (Draft.reserve name n) (d.withCapacity capacity)
        ⟨name, n, d.used, capacity⟩ (d.withCapacity capacity) := by
      rw [Fails, perform_reserve, hreserve]
    exact ⟨_, _, hfails, hused, hlt⟩
  exact ⟨Addr.ofNat d.used, d', Nat.le_add_right _ _, hgives, hfails⟩

/-- A step of a build needs some amount of scratch if its parts do. -/
theorem compositional : Compositional fun _ step => Scales step := by
  constructor
  · exact pure
  · exact emit
  · exact reserve
  · intro f d
    exact ⟨PUnit.unit, { d with pool := f d.pool }, .of_gives rfl fun _ => gives_modify_iff.mpr rfl⟩
  · intro α f hf h d
    obtain ⟨a, d', ha⟩ := h d d
    exact ⟨a, d', ha.get_bind fun capacity => hf _ d rfl⟩
  · exact bind

end Scales

end Draft

namespace Kernel

def onFrame (c : BuildConfig) (w : Workload) (p : Pipeline) (f : Frame) (d : Draft) : Kernel :=
  let setup := d.pending.toList
  let body := bodyOps f p w.iterations
  let program := programOf c setup body
  ⟨program, d.arena.regions, ⟨setup.length, body.length, program.size, d.used, p⟩⟩

variable {c : BuildConfig} {w : Workload} {p : Pipeline}

theorem build_of_gives (hp : c.pipelineFor w.chunks = .ok p) {f : Frame} {d : Draft}
    (hframe : Draft.Gives (Frame.reserve ⟨w.height, w.batch, p.bufferCount⟩)
      (.ofCapacity c.capacity) f d) : build c w = .ok (onFrame c w p f d) := by
  unfold Draft.Gives at hframe
  unfold build
  simp only [hp, bind, Except.bind]
  rw [hframe]
  rfl

theorem build_of_fails (hp : c.pipelineFor w.chunks = .ok p) {e : OutOfScratch} {d : Draft}
    (hframe : Draft.Fails (Frame.reserve ⟨w.height, w.batch, p.bufferCount⟩)
      (.ofCapacity c.capacity) e d) : build c w = .error (.outOfScratch e) := by
  unfold Draft.Fails at hframe
  unfold build
  simp only [hp, bind, Except.bind]
  rw [hframe]
  rfl

/-- With a pipeline that fits there is one kernel. Each capacity either holds its scratch, or is
passed by one of the requests for it. -/
theorem exists_build_eq (hp : c.pipelineFor w.chunks = .ok p) :
    ∃ kernel : Kernel, ∀ capacity,
      (kernel.stats.scratchUsed ≤ capacity ∧ build { c with capacity } w = .ok kernel) ∨
      (capacity < kernel.stats.scratchUsed ∧
        ∃ e, build { c with capacity } w = .error (.outOfScratch e) ∧ e.Passes capacity) := by
  obtain ⟨f, d, hneeds⟩ := Draft.Scales.compositional.frame
    ⟨w.height, w.batch, p.bufferCount⟩ (.ofCapacity 0)
  use onFrame c w p f d
  intro capacity
  have hp' : BuildConfig.pipelineFor { c with capacity } w.chunks = .ok p := hp
  by_cases hle : d.used ≤ capacity
  · have hbuild : build { c with capacity } w =
        .ok (onFrame { c with capacity } w p f (d.withCapacity capacity)) :=
      build_of_gives hp' (hneeds.gives capacity hle)
    exact .inl ⟨hle, hbuild⟩
  · have hlt : capacity < d.used := Nat.lt_of_not_le hle
    obtain ⟨e, left, hfails, hpasses⟩ := hneeds.fails capacity (Nat.zero_le _) hlt
    exact .inr ⟨hlt, e, build_of_fails hp' hfails, hpasses⟩

theorem exists_pipelineFor {e : OutOfScratch} (h : build c w = .error (.outOfScratch e)) :
    ∃ p, c.pipelineFor w.chunks = .ok p := by
  cases hp : c.pipelineFor w.chunks with
  | ok p => exact ⟨p, rfl⟩
  | error cause =>
    have hcause : build c w = .error cause := by
      unfold build
      rw [hp]
      rfl
    obtain rfl : cause = .outOfScratch e := Except.error.inj (hcause.symm.trans h)
    unfold BuildConfig.pipelineFor at hp
    split at hp
    · cases hp
    · split at hp <;> cases hp

/-- The scratch that a kernel reports is what it needs: every capacity that holds it leads to the
same kernel, and no smaller one leads to any. A build that runs out of scratch names a request that
passes the capacity, within which all words in use still lie. -/
theorem build_capacity_sharp (c : BuildConfig) (w : Workload) (capacity : Nat) :
    (∀ kernel, build c w = .ok kernel →
      ((∃ k, build { c with capacity } w = .ok k) ↔ kernel.stats.scratchUsed ≤ capacity) ∧
      ∀ k, build { c with capacity } w = .ok k → k = kernel) ∧
    ∀ e, build { c with capacity } w = .error (.outOfScratch e) →
      e.inUse ≤ capacity ∧ capacity < e.inUse + e.requested := by
  constructor
  · intro kernel hbuild
    obtain ⟨p, -, -, hp, -⟩ := build_eq_ok hbuild
    obtain ⟨kernel', hkernel'⟩ := exists_build_eq hp
    have hsame : ∀ capacity k, build { c with capacity } w = .ok k →
        kernel'.stats.scratchUsed ≤ capacity ∧ k = kernel' := by
      intro capacity k hk
      rcases hkernel' capacity with ⟨hle, hholds⟩ | ⟨-, e, hfails, -⟩
      · exact ⟨hle, Except.ok.inj (hk.symm.trans hholds)⟩
      · rw [hfails] at hk
        cases hk
    obtain ⟨-, rfl⟩ := hsame c.capacity kernel hbuild
    constructor
    · constructor
      · rintro ⟨k, hk⟩
        exact (hsame capacity k hk).1
      · intro hle
        rcases hkernel' capacity with ⟨-, hholds⟩ | ⟨hlt, -⟩
        · exact ⟨kernel, hholds⟩
        · exact absurd hlt (Nat.not_lt.mpr hle)
    · exact fun k hk => (hsame capacity k hk).2
  · intro e hbuild
    obtain ⟨p, hp⟩ := exists_pipelineFor hbuild
    obtain ⟨kernel, hkernel⟩ := exists_build_eq (c := { c with capacity }) hp
    rcases hkernel capacity with ⟨-, hholds⟩ | ⟨-, e', hfails, hpasses⟩
    · rw [hholds] at hbuild
      cases hbuild
    · rw [hfails] at hbuild
      cases hbuild
      exact hpasses

/-- Two rounds of eight lanes on a tree of three nodes fit into 225 words, and not into 224. -/
theorem build_capacity_sharp_small :
    let c : BuildConfig := { pipeline := some ⟨1, 0⟩, capacity := 400 }
    let w : Workload := ⟨1, 8, 2⟩
    ∃ kernel, build c w = .ok kernel ∧ build { c with capacity := 225 } w = .ok kernel ∧
      ∀ k, build { c with capacity := 224 } w ≠ .ok k := by
  intro c w
  obtain ⟨kernel, hbuild, hscratch⟩ : ∃ k, build c w = .ok k ∧ k.stats.scratchUsed = 225 :=
    exists_eq_ok (by decide +kernel)
  obtain ⟨hholds, hsame⟩ := (build_capacity_sharp c w 225).1 kernel hbuild
  obtain ⟨hlacks, -⟩ := (build_capacity_sharp c w 224).1 kernel hbuild
  obtain ⟨k, hk⟩ := hholds.mpr (Nat.le_of_eq hscratch)
  refine ⟨kernel, hbuild, hsame k hk ▸ hk, fun k' hk' => ?_⟩
  have hle : kernel.stats.scratchUsed ≤ 224 := hlacks.mp ⟨k', hk'⟩
  omega

end Kernel

end TreeWalk
