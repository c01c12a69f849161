import TreeWalk.Proofs.MachineRun

/-!
# Bundles that break off

A bundle that faults stores nothing. It leaves the scratch alone as well, with one exception: the
scratch writes are checked one by one while they are made, so that a write out of bounds is found
when those before it have been made already.
-/

namespace TreeWalk

namespace Core

variable {core : Core} {mem : Array Word} {b : Bundle} {widths : Widths} {honorPause : Bool}
  {pc : Nat} {fault : Fault}

/-- A bundle breaks off either before anything is committed or at a scratch write. -/
theorem issue_of_fault (h : (core.issue mem b widths honorPause pc).fault = some fault) :
    (core.issue mem b widths honorPause pc).mem = mem ∧
      ((core.issue mem b widths honorPause pc).core.scratch = core.scratch ∨
        collectEngines (core.view mem honorPause pc) widths b Engine.issuing
            { control := core.control } = (core.asked mem b widths honorPause pc, none) ∧
          Scratch.write (core.asked mem b widths honorPause pc).scratch core.scratch =
            ((core.issue mem b widths honorPause pc).core.scratch, some fault)) := by
  rw [issue_eq] at h ⊢
  unfold asked
  rcases hc : collectEngines (core.view mem honorPause pc) widths b Engine.issuing
    { control := core.control } with ⟨e, stopped⟩
  rw [hc] at h
  cases stopped with
  | some f => exact ⟨rfl, .inl rfl⟩
  | none =>
    simp only [Effect.commit] at h ⊢
    rcases hw : Scratch.write e.scratch core.scratch with ⟨scratch, broken⟩
    rw [hw] at h
    cases broken with
    | none => cases h
    | some f =>
      obtain rfl : f = fault := Option.some.inj h
      exact ⟨rfl, .inr ⟨trivial, rfl⟩⟩

/-- A bundle that faults leaves the memory as it was, and the scratch, too, unless it writes to a
scratch address out of bounds behind others that are in bounds. Then all of its operations have been
carried out, and what has been made of their writes is just those before the first that is out of
bounds. -/
theorem broken_bundle_commits_earlier_writes
    (h : (core.issue mem b widths honorPause pc).fault = some fault) :
    (core.issue mem b widths honorPause pc).mem = mem ∧
      ((core.issue mem b widths honorPause pc).core.scratch = core.scratch ∨
        ∃ made a w rest,
          (core.asked mem b widths honorPause pc).scratch = made ++ (a, w) :: rest ∧
          (made ++ (a, w) :: rest).map (·.1) = b.issued.flatMap Op.writes ∧ made ≠ [] ∧
          (∀ x ∈ made, x.1.toNat < core.scratch.size) ∧ core.scratch.size ≤ a.toNat ∧
          fault = .scratchOutOfBounds a.toNat core.scratch.size ∧
          (core.issue mem b widths honorPause pc).core.scratch =
            (Scratch.write made core.scratch).1) := by
  obtain ⟨hmem, hscratch⟩ := issue_of_fault h
  refine ⟨hmem, ?_⟩
  rcases hscratch with hsame | ⟨hcollected, hwrite⟩
  · exact .inl hsame
  · have hkeys := map_fst_collectEngines hcollected
    rw [List.map_nil, List.nil_append] at hkeys
    obtain ⟨made, a, w, rest, hasked, hmade, ha, hfault, hleft⟩ :=
      Scratch.exists_made_of_write_fault (congrArg Prod.snd hwrite)
    rw [hwrite] at hleft
    by_cases hnil : made = []
    · subst hnil
      exact .inl hleft
    · exact .inr ⟨made, a, w, rest, hasked, hasked ▸ hkeys, hnil, hmade, ha, hfault, hleft⟩

/-- A sum and the first half of a block are written before the block leaves the scratch. The store
of the same bundle is not made. -/
theorem broken_bundle_commits_earlier_writes_half_block :
    let core : Core := ⟨0, #[5, 2] ++ Array.replicate 14 0, {}⟩
    let mem : Array Word := Array.replicate 8 7
    let b : Bundle :=
      .ofOps [.scalar .add ⟨2⟩ ⟨0⟩ ⟨1⟩, .broadcast ⟨12⟩ ⟨0⟩, .storeWord ⟨0⟩ ⟨1⟩]
    let r := core.issue mem b {} true 0
    r.fault = some (.scratchOutOfBounds 16 16) ∧ r.mem = mem ∧
      r.core.scratch = #[5, 2, 7] ++ Array.replicate 9 0 ++ Array.replicate 4 5 := by
  intro core mem b r
  have hfault : r.fault = some (.scratchOutOfBounds 16 16) := by decide +kernel
  exact ⟨hfault, (broken_bundle_commits_earlier_writes hfault).1, by decide +kernel⟩

/-- Of two constants that a bundle sets, the first is kept when the second is out of bounds. -/
theorem broken_bundle_sets_word :
    let core : Core := ⟨0, Array.replicate 4 0, {}⟩
    let mem : Array Word := #[0]
    let b : Bundle := .ofOps [.const ⟨0⟩ 7, .const ⟨9⟩ 1]
    let r := core.issue mem b {} true 0
    r.fault = some (.scratchOutOfBounds 9 4) ∧ r.core.scratch = #[7, 0, 0, 0] ∧
      r.core.scratch ≠ core.scratch := by
  decide +kernel

end Core

end TreeWalk
