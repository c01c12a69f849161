import TreeWalk.CommandLine.CheckedRun
import TreeWalk.Proofs.EncodedImage
import TreeWalk.Proofs.LaneWalk
import TreeWalk.Proofs.ScratchBudget

/-!
# Which parameter is blamed

A checked run asks for two things before its kernel runs: that a word can address the memory image
of tree and batch, and that the kernel's registers find room in the scratch. Height and batch both
lengthen the image, while only the batch takes more and more scratch.
-/

namespace TreeWalk

theorem Kernel.two_mul_batch_le {c : BuildConfig} {w : Workload} {k : Kernel}
    (h : build c w = .ok k) (hcapacity : c.capacity < 2 ^ 32) :
    2 * w.batch ≤ k.stats.scratchUsed := by
  obtain ⟨p, f, d, -, hreserve, -, hused⟩ := build_eq_ok h
  have hfresh : Draft.Kept False HeaderRegs.wordCount (.ofCapacity c.capacity) :=
    ⟨Draft.bounded_ofCapacity hcapacity, False.elim⟩
  obtain ⟨-, -, hf, -⟩ := Frame.reserve_spec hfresh hreserve
  have htop := hf.top.stop
  have hstop := hf.stop
  simp only at htop hstop
  omega

namespace Settings

variable {s : Settings}

def ExceedsScratch (s : Settings) : Prop :=
  ∃ capacity kernel, Kernel.build { s.buildConfig with capacity } s.workload = .ok kernel ∧
    scratchSize < kernel.stats.scratchUsed

theorem build_cases (s : Settings) :
    (¬ s.ExceedsScratch ∧ ∃ kernel, Kernel.build s.buildConfig s.workload = .ok kernel) ∨
    (s.ExceedsScratch ∧ ∃ e, Kernel.build s.buildConfig s.workload = .error (.outOfScratch e)) := by
  have hp : s.buildConfig.pipelineFor s.workload.chunks = .ok (.choose s.workload.chunks) := rfl
  obtain ⟨kernel, hkernel⟩ := Kernel.exists_build_eq hp
  -- scratch of exactly the words that the kernel takes
  have hneeds : Kernel.build { s.buildConfig with capacity := kernel.stats.scratchUsed }
      s.workload = .ok kernel := by
    rcases hkernel kernel.stats.scratchUsed with ⟨-, hbuild⟩ | ⟨hlt, -⟩
    · exact hbuild
    · exact absurd hlt (Nat.lt_irrefl _)
  rcases hkernel scratchSize with ⟨hle, hbuild⟩ | ⟨hlt, e, hbuild, -⟩
  · left
    refine ⟨?_, kernel, hbuild⟩
    rintro ⟨capacity, kernel', hbuild', hlt⟩
    rcases hkernel capacity with ⟨-, hsame⟩ | ⟨-, e, hfails, -⟩
    · obtain rfl : kernel' = kernel := Except.ok.inj (hbuild'.symm.trans hsame)
      exact absurd hlt (Nat.not_lt.mpr hle)
    · rw [hfails] at hbuild'
      cases hbuild'
  · right
    exact ⟨⟨_, kernel, hneeds, hlt⟩, e, hbuild⟩

theorem exceedsScratch_of_batch (h : scratchSize < 2 * s.batch) : s.ExceedsScratch := by
  rcases s.build_cases with ⟨-, kernel, hbuild⟩ | ⟨hexceeds, -⟩
  · have hcapacity : scratchSize < 2 ^ 32 := by decide
    have hbatch := Kernel.two_mul_batch_le hbuild hcapacity
    exact ⟨_, kernel, hbuild, Nat.lt_of_lt_of_le h hbatch⟩
  · exact hexceeds

end Settings

namespace CheckedRun

/-- The image has to hold the header, and tree and batch twice over with the room behind them. -/
theorem isAddressable_iff {height batch : Nat} :
    isAddressable height batch = true ↔
      8 + 2 * (2 ^ (height + 1) - 1 + 2 * batch) + 48 ≤ 2 ^ 32 - 1 := by
  unfold isAddressable
  rw [Option.isSome_iff_exists]
  simp only [Option.bind_eq_some_iff, Tree.nodeCount?_eq_some_iff, Image.length?_eq_some_iff]
  constructor
  · rintro ⟨length, nodes, ⟨rfl, -⟩, rfl, hle⟩
    exact hle
  · intro hle
    have hword : Word.maxSize = 2 ^ 32 - 1 := by decide
    exact ⟨_, _, ⟨rfl, by omega⟩, rfl, hle⟩

theorem isAddressable_zero_iff {height : Nat} : isAddressable height 0 = true ↔ height ≤ 29 := by
  rw [isAddressable_iff]
  constructor
  · intro hle
    by_contra hheight
    have hpow : 2 ^ 31 ≤ 2 ^ (height + 1) := Nat.pow_le_pow_right (by decide) (by omega)
    omega
  · intro hheight
    have hpow : 2 ^ (height + 1) ≤ 2 ^ 30 := Nat.pow_le_pow_right (by decide) (by omega)
    omega

theorem isAddressable_zero_of_isAddressable {height batch : Nat}
    (h : isAddressable height batch = true) : isAddressable height 0 = true := by
  rw [isAddressable_iff] at h ⊢
  omega

/-- On a tree that can be addressed, a batch that makes the image too long fills the scratch. -/
theorem scratchSize_lt_of_not_isAddressable {height batch : Nat}
    (hheight : isAddressable height 0 = true) (h : isAddressable height batch = false) :
    scratchSize < 2 * batch := by
  have hscratch : scratchSize = 1536 := rfl
  have hle := isAddressable_zero_iff.mp hheight
  have hpow : 2 ^ (height + 1) ≤ 2 ^ 30 := Nat.pow_le_pow_right (by decide) (by omega)
  rw [← Bool.not_eq_true, isAddressable_iff] at h
  omega

theorem check_error {m : Machine} {w : ImageWalk} {pause : Nat} {e : Failure}
    (h : check m w pause = .error e) : (∃ f, e = .fault f) ∨ ∃ d, e = .mismatch d := by
  fun_induction check m w pause with
  | case1 => cases h
  | case2 | case3 | case4 =>
    cases h
    exact .inl ⟨_, rfl⟩
  | case5 =>
    cases h
    exact .inr ⟨_, rfl⟩
  | case6 _ _ _ _ _ _ _ _ _ _ ih => exact ih h

theorem runKernel_error {k : Kernel} {mem : Array Word} {e : Failure}
    (h : runKernel k mem = .error e) : (∃ f, e = .fault f) ∨ ∃ d, e = .mismatch d := by
  unfold runKernel at h
  split at h
  · cases h
    exact .inl ⟨_, rfl⟩
  · rename_i w _
    cases hcheck : check (.standard mem k.program k.regions) w 0 with
    | error e' =>
      rw [hcheck] at h
      cases h
      exact check_error hcheck
    | ok _ =>
      rw [hcheck] at h
      cases h

section Run

variable {s : Settings}

theorem run_of_not_isAddressable (hbatch : s.batch % laneCount = 0)
    (h : isAddressable s.height s.batch = false) :
    (run s).result = .error (.invalidHeight s.height) := by
  simp [run, hbatch, h]

theorem run_of_build_error (hbatch : s.batch % laneCount = 0)
    (h : isAddressable s.height s.batch = true) {e : BuildError}
    (hbuild : Kernel.build s.buildConfig s.workload = .error e) :
    (run s).result = .error (.build e) := by
  simp [run, hbatch, h, hbuild]

theorem exists_sampleWorkload?_eq (seed rounds : Nat) {height lanes : Nat}
    (h : isAddressable height lanes = true) :
    ∃ sample, sampleWorkload? seed height lanes rounds = some sample := by
  unfold isAddressable at h
  cases hcount : Tree.nodeCount? height with
  | none => simp [hcount] at h
  | some count =>
    simp [sampleWorkload?, Tree.sample?, hcount]

theorem run_of_build (hbatch : s.batch % laneCount = 0)
    (h : isAddressable s.height s.batch = true) {kernel : Kernel}
    (hbuild : Kernel.build s.buildConfig s.workload = .ok kernel) :
    ∃ mem, (run s).result = runKernel kernel mem := by
  obtain ⟨⟨tree, batch⟩, hsample⟩ := exists_sampleWorkload?_eq s.seed s.rounds h
  use Image.encode tree batch
  simp [run, hbatch, h, hbuild, hsample]

/-- A height is blamed if the tree alone makes the image too long, and never if the image can be
addressed. In that case the run is out of scratch exactly if the kernel takes more than there is.
What is left is a batch that makes the image too long: its kernel would be out of scratch as well,
but the height is blamed for it. -/
theorem run_blames (hbatch : s.batch % laneCount = 0) :
    (isAddressable s.height 0 = false →
      (run s).result = .error (.invalidHeight s.height)) ∧
    (isAddressable s.height s.batch = true →
      (∀ height, (run s).result ≠ .error (.invalidHeight height)) ∧
      (s.ExceedsScratch ↔ ∃ e, (run s).result = .error (.build (.outOfScratch e)))) ∧
    (isAddressable s.height 0 = true → isAddressable s.height s.batch = false →
      s.ExceedsScratch ∧ (run s).result = .error (.invalidHeight s.height)) := by
  refine ⟨?_, ?_, ?_⟩
  · intro hheight
    apply run_of_not_isAddressable hbatch
    rw [← Bool.not_eq_true] at hheight ⊢
    exact fun h => hheight (isAddressable_zero_of_isAddressable h)
  · intro haddressable
    rcases s.build_cases with ⟨hfits, kernel, hbuild⟩ | ⟨hexceeds, e, hbuild⟩
    · obtain ⟨mem, hrun⟩ := run_of_build hbatch haddressable hbuild
      rw [hrun]
      constructor
      · intro height herror
        simpa using runKernel_error herror
      · apply iff_of_false hfits
        rintro ⟨e, herror⟩
        simpa using runKernel_error herror
    · rw [run_of_build_error hbatch haddressable hbuild]
      constructor
      · simp
      · exact iff_of_true hexceeds ⟨e, rfl⟩
  · intro hheight himage
    constructor
    · exact Settings.exceedsScratch_of_batch (scratchSize_lt_of_not_isAddressable hheight himage)
    · exact run_of_not_isAddressable hbatch himage

/-- The image for 2048 lanes can be addressed, and the run is out of scratch. -/
theorem run_blames_scratch :
    let s : Settings := { height := 4, batch := 2048 }
    s.batch % laneCount = 0 ∧ isAddressable s.height s.batch = true ∧ s.ExceedsScratch ∧
      ∃ e, (run s).result = .error (.build (.outOfScratch e)) := by
  intro s
  have hbatch : s.batch % laneCount = 0 := by decide
  have haddressable : isAddressable s.height s.batch = true := by decide
  have hexceeds : s.ExceedsScratch := Settings.exceedsScratch_of_batch (by decide)
  obtain ⟨-, hscratch⟩ := (run_blames hbatch).2.1 haddressable
  exact ⟨hbatch, haddressable, hexceeds, hscratch.mp hexceeds⟩

/-- The image for `2 ^ 30` lanes cannot be addressed. A tree of height 4 is blamed for it, although
it can be, and although the batch takes too much scratch. -/
theorem run_blames_height_for_batch :
    let s : Settings := { height := 4, batch := 2 ^ 30 }
    s.batch % laneCount = 0 ∧ isAddressable s.height 0 = true ∧ s.ExceedsScratch ∧
      (run s).result = .error (.invalidHeight 4) := by
  intro s
  have hbatch : s.batch % laneCount = 0 := by decide
  have hheight : isAddressable s.height 0 = true := by decide
  have himage : isAddressable s.height s.batch = false := by decide
  have hexceeds : s.ExceedsScratch := Settings.exceedsScratch_of_batch (by decide)
  exact ⟨hbatch, hheight, hexceeds, run_of_not_isAddressable hbatch himage⟩

end Run

end CheckedRun

end TreeWalk
