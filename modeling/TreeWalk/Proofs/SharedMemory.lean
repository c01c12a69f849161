import TreeWalk.Proofs.StoreHistory

/-!
# Cores that share the memory

The cores of a machine issue one after the other, and each sees the stores of those before it. Where
no bundle both loads and stores this makes no difference: a bundle that loads finds the memory as
the first core found it, and a bundle that stores puts the same words there once more. So a crew of
cores that start alike does what a single core does, cycle by cycle.
-/

namespace TreeWalk

def Op.asksCoreId : Op → Bool
  | flow (.coreId _) => true
  | _ => false

/-- The bundle does the same on every core, and does not both load and store. -/
structure Bundle.Shareable (b : Bundle) : Prop where
  fits : ∀ op ∈ b.issued, op.Fits
  anonymous : ∀ op ∈ b.issued, op.asksCoreId = false
  oneWay : (∀ op ∈ b.issued, op.writesMemory = false) ∨ ∀ op ∈ b.issued, op.readsMemory = false

theorem Op.effect_coreId {op : Op} (h : op.asksCoreId = false) (v : View) (id : Nat)
    (c : Control) : op.effect { v with coreId := id } c = op.effect v c := by
  refine effect_congr_view rfl rfl rfl (fun dest hop => ?_) (fun _ => rfl)
  subst hop
  cases h

theorem Memory.write_write (stores : List (Nat × Word)) (mem : Array Word) :
    Memory.write stores (Memory.write stores mem) = Memory.write stores mem := by
  apply Array.ext_getElem?
  intro addr
  by_cases h : addr < mem.size
  · have h' : addr < (Memory.write stores mem).size := by rwa [Memory.size_write]
    rw [Memory.getElem?_write stores h', Memory.wordAfter, Memory.getElem?_write stores h,
      Memory.wordAfter, ← Option.or_assoc, Option.or_self]
  · rw [Array.getElem?_eq_none (by simpa [Memory.size_write] using h),
      Array.getElem?_eq_none (by simpa [Memory.size_write] using h)]

namespace Core

def withId (core : Core) (id : Nat) : Core := { core with id }

variable {core next : Core} {mem mem' mem'' : Array Word} {b : Bundle} {widths : Widths}
  {honorPause : Bool} {pc : Nat}

/-- A bundle that loads does not store, so a core that issues it leaves the memory alone. -/
theorem eq_of_readsMemory (hb : b.Shareable) {e : Effect}
    (hcollected : collectEngines (core.view mem honorPause pc) widths b Engine.issuing
      { control := core.control } = (e, none))
    (hmem : mem'' = mem ∨ mem'' = Memory.write e.mem mem) :
    ∀ op ∈ b.issued, op.readsMemory = true → mem'' = mem := by
  intro op hop hreads
  rcases hb.oneWay with hwrites | hreads'
  · rw [collectEngines_eq_collect (count_le_of_collectEngines hcollected)] at hcollected
    have hnil : e.mem = [] := mem_collect_eq_nil hwrites hcollected
    rw [hnil] at hmem
    rcases hmem with rfl | rfl <;> rfl
  · simp [hreads' op hop] at hreads

theorem collectEngines_withId (hb : b.Shareable) (hsize : mem''.size = mem.size)
    (hloads : ∀ op ∈ b.issued, op.readsMemory = true → mem'' = mem) (id : Nat) :
    collectEngines ((core.withId id).view mem'' honorPause pc) widths b Engine.issuing
        { control := (core.withId id).control } =
      collectEngines (core.view mem honorPause pc) widths b Engine.issuing
        { control := core.control } := by
  apply collectEngines_congr (v := (core.withId id).view mem'' honorPause pc)
    (w := core.view mem honorPause pc) rfl
  intro engine hengine op hop c
  have hop : op ∈ b.issued := List.mem_flatMap.mpr ⟨engine, hengine, hop⟩
  calc op.effect ((core.withId id).view mem'' honorPause pc) c
      = op.effect (core.view mem'' honorPause pc) c :=
        Op.effect_coreId (hb.anonymous op hop) (core.view mem'' honorPause pc) id c
    _ = op.effect (core.view mem honorPause pc) c :=
        Op.effect_congr (v := core.view mem'' honorPause pc) (w := core.view mem honorPause pc)
          (hb.fits op hop) ⟨rfl, rfl, rfl, rfl, fun _ _ => rfl⟩ hsize (hloads op hop) c

/-- A bundle that has been issued well on one core is issued in the same way on another one, which
finds the memory as it was before or as the first core has left it. -/
theorem issue_withId (hb : b.Shareable)
    (h : core.issue mem b widths honorPause pc = ⟨next, mem', none⟩)
    (hmem : mem'' = mem ∨ mem'' = mem') (id : Nat) :
    (core.withId id).issue mem'' b widths honorPause pc = ⟨next.withId id, mem', none⟩ := by
  have hgood : (core.issue mem b widths honorPause pc).fault = none := by rw [h]
  obtain ⟨hcollected, hwrite⟩ := collected_of_fault_eq_none hgood
  set e := core.asked mem b widths honorPause pc
  have hcommit : (⟨⟨core.id, (Scratch.write e.scratch core.scratch).1, e.control⟩,
      Memory.write e.mem mem, none⟩ : Issued) = ⟨next, mem', none⟩ := by
    rw [← h, issue_eq, hcollected]
    simp only [Effect.commit, hwrite]
  obtain ⟨rfl, rfl⟩ : _ = next ∧ _ = mem' := by simpa using hcommit
  have hsize : mem''.size = mem.size := by
    rcases hmem with rfl | rfl
    · rfl
    · exact Memory.size_write _ _
  have hloads := eq_of_readsMemory hb hcollected hmem
  have hstores : Memory.write e.mem mem'' = Memory.write e.mem mem := by
    rcases hmem with rfl | rfl
    · rfl
    · exact Memory.write_write _ _
  have hscratch : Scratch.write e.scratch (core.withId id).scratch =
      ((Scratch.write e.scratch core.scratch).1, none) := by
    have hnone : (Scratch.write e.scratch core.scratch).2 = none := by rw [hwrite]
    exact Prod.ext rfl hnone
  rw [issue_eq, collectEngines_withId hb hsize hloads id, hcollected]
  simp only [Effect.commit, hscratch, hstores]
  rfl

end Core

namespace Machine

/-- The machine with a crew of cores in the place of each of its cores. -/
def crew (m : Machine) (ids : List Nat) : Machine :=
  { m with cores := m.cores.flatMap fun core => ids.map core.withId }

variable {p : Program} {widths : Widths} {honorPause : Bool} {core next : Core}
  {mem mem' mem'' : Array Word} {effective : Bool}

theorem advance_withId (hp : ∀ b ∈ p.bundles, b.Shareable)
    (h : advance p widths honorPause core mem = (⟨next, mem', none⟩, effective))
    (hmem : mem'' = mem ∨ mem'' = mem') (id : Nat) :
    advance p widths honorPause (core.withId id) mem'' =
      (⟨next.withId id, mem', none⟩, effective) := by
  have hcontrol : (core.withId id).control = core.control := rfl
  unfold advance at h ⊢
  rw [hcontrol]
  split at h
  · rename_i hidle
    cases h
    rw [if_pos hidle, or_self_iff.mp hmem]
  · rename_i hrunning
    rw [if_neg hrunning]
    dsimp only at h ⊢
    cases hb : p.get? core.control.pc with
    | none =>
      rw [hb] at h
      cases h
      rw [or_self_iff.mp hmem]
      rfl
    | some b =>
      rw [hb] at h
      obtain ⟨hissue, rfl⟩ := Prod.mk.inj h
      have hshared := Core.issue_withId (hp b (Array.mem_of_getElem? hb)) hissue hmem id
      exact Prod.ext hshared rfl

theorem sweep_crew (hp : ∀ b ∈ p.bundles, b.Shareable)
    (h : advance p widths honorPause core mem = (⟨next, mem', none⟩, effective))
    (id : Nat) (ids : List Nat) (hmem : mem'' = mem ∨ mem'' = mem') :
    sweep p widths honorPause ((id :: ids).map core.withId) mem'' =
      ⟨(id :: ids).map next.withId, mem', effective, none⟩ := by
  induction ids generalizing id mem'' with
  | nil =>
    rw [List.map_singleton, sweep, advance_withId hp h hmem id]
    simp [sweep]
  | cons other ids ih =>
    have hrest := ih other (.inr rfl)
    rw [List.map_cons, sweep, advance_withId hp h hmem id]
    dsimp only
    rw [hrest]
    simp

section Crew

variable {m n : Machine} {ids : List Nat}

theorem isActive_crew (hids : ids ≠ []) : (m.crew ids).isActive = m.isActive := by
  obtain ⟨id, hid⟩ := List.exists_mem_of_ne_nil ids hids
  rw [Bool.eq_iff_iff]
  simp only [isActive, crew, List.any_eq_true, List.mem_flatMap, List.mem_map]
  constructor
  · rintro ⟨_, ⟨core, hcore, _, -, rfl⟩, hrunning⟩
    exact ⟨core, hcore, hrunning⟩
  · rintro ⟨core, hcore, hrunning⟩
    exact ⟨core.withId id, ⟨core, hcore, id, hid, rfl⟩, hrunning⟩

theorem resume_crew (m : Machine) (ids : List Nat) : (m.crew ids).resume = m.resume.crew ids := by
  simp only [resume, crew, List.map_flatMap, List.flatMap_map, List.map_map]
  congr 2
  funext core
  apply List.map_congr_left
  intro id _
  unfold Core.withId
  dsimp only [Function.comp]
  split <;> rfl

theorem step_crew (hp : ∀ b ∈ m.program.bundles, b.Shareable) (hids : ids ≠ [])
    (hcores : m.cores = [core]) (h : m.step = (n, none)) :
    (m.crew ids).step = (n.crew ids, none) ∧ n.program = m.program ∧
      ∃ next, n.cores = [next] := by
  rcases m with ⟨cores, mem, program, regions, widths, cycle, honorPause⟩
  obtain rfl : cores = [core] := hcores
  simp only [step, sweep] at h
  rcases ha : advance program widths honorPause core mem with ⟨⟨next, mem', fault⟩, effective⟩
  rw [ha] at h
  cases fault with
  | some f => simp at h
  | none =>
    obtain ⟨id, rest, rfl⟩ := List.exists_cons_of_ne_nil hids
    simp only [Bool.or_false, Prod.mk.injEq, and_true] at h
    subst h
    have hsweep : sweep program widths honorPause ((id :: rest).map core.withId) mem =
        ⟨(id :: rest).map next.withId, mem', effective, none⟩ :=
      sweep_crew hp ha id rest (.inl rfl)
    refine ⟨?_, rfl, next, rfl⟩
    simp only [crew, step, List.flatMap_singleton, hsweep]

theorem runFor_crew {limit : Nat} (hp : ∀ b ∈ m.program.bundles, b.Shareable) (hids : ids ≠ [])
    (hcores : m.cores = [core]) (h : m.runFor limit = (.settled, n)) :
    (m.crew ids).runFor limit = (.settled, n.crew ids) ∧ n.program = m.program ∧
      ∃ next, n.cores = [next] := by
  induction limit generalizing m core with
  | zero =>
    rw [runFor] at h ⊢
    rw [isActive_crew hids]
    split at h
    · cases h
    · rename_i hidle
      cases h
      rw [if_neg hidle]
      exact ⟨rfl, rfl, core, hcores⟩
  | succ limit ih =>
    rw [runFor] at h ⊢
    rw [isActive_crew hids]
    split at h
    · rename_i hactive
      rw [if_pos hactive]
      rcases hs : m.step with ⟨o, fault⟩
      rw [hs] at h
      cases fault with
      | some f => cases h
      | none =>
        obtain ⟨hstep, hprogram, next, hnext⟩ := step_crew hp hids hcores hs
        rw [hstep, ← hprogram]
        exact ih (hprogram ▸ hp) hnext h
    · rename_i hidle
      cases h
      rw [if_neg hidle]
      exact ⟨rfl, rfl, core, hcores⟩

/-- A call that ends well on one core ends well on a crew, with the same memory and cycles. -/
theorem Ends.crew (h : m.Ends .settled n) (hp : ∀ b ∈ m.program.bundles, b.Shareable)
    (hids : ids ≠ []) (hcores : m.cores = [core]) :
    (m.crew ids).Ends .settled (n.crew ids) ∧ n.program = m.program ∧
      ∃ next, n.cores = [next] := by
  obtain ⟨-, limit, hrun⟩ := h
  have hresumed : ∃ core, m.resume.cores = [core] := by
    rw [resume, hcores]
    exact ⟨_, rfl⟩
  obtain ⟨core', hcore'⟩ := hresumed
  obtain ⟨hcrew, hprogram, next, hnext⟩ := runFor_crew (m := m.resume) hp hids hcore' hrun
  rw [← resume_crew] at hcrew
  exact ⟨⟨by simp, limit, hcrew⟩, hprogram, next, hnext⟩

end Crew

end Machine

end TreeWalk
