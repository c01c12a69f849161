import TreeWalk.Proofs.BodyWrites
import TreeWalk.Proofs.KernelRun
import TreeWalk.Proofs.SetupOrder

/-!
# Registers of a kernel

A kernel never reads a scratch word before it has set it, and stays in the scratch that it has laid
out. What it only reads after the setup or the preload is set by one operation alone.
-/

namespace TreeWalk

/-- The registers that the setup fills: the header scalars, the pooled constants, and the node
count in every lane. -/
def Frame.setupRegisters (f : Frame) (pool : ConstPool) : List (List Addr) :=
  f.header.words.map (fun a => [a]) ++ pool.scalars.map (fun x => [x.2]) ++
    pool.vectors.map (fun x => x.2.block) ++ [f.nodeCount.block]

section Setup

open Draft

variable {f : Frame} {shape : FrameShape} {d : Draft}

theorem Draft.HasScalar.mem_written {value : Word} {a : Addr} (h : d.HasScalar value a) :
    a ∈ written d.pending.toList := TreeWalk.mem_written.mpr ⟨_, h, List.mem_singleton.mpr rfl⟩

theorem Draft.HasVector.mem_written {value : Word} {a b : Addr} (h : d.HasVector value a)
    (hb : b ∈ a.block) : b ∈ written d.pending.toList := by
  obtain ⟨source, -, hbroadcast⟩ := h
  exact TreeWalk.mem_written.mpr ⟨_, hbroadcast, hb⟩

theorem Frame.LaidOut.setUp (h : f.LaidOut shape d) :
    f.SetUp fun a => a ∈ written d.pending.toList := by
  obtain ⟨hf, h, -, -, -⟩ := h
  refine ⟨fun a ha => ?_, fun b hb a ha => ?_, fun a ha => ?_,
    h.chunkOffsets_length.trans hf.chunks.symm, fun a ha => ?_, ?_⟩
  · obtain ⟨i, hi⟩ := List.mem_iff_getElem?.mp ha
    obtain ⟨addr, -, hload⟩ := h.header i a hi
    exact mem_written.mpr ⟨_, hload, List.mem_singleton.mpr rfl⟩
  · rcases List.mem_append.mp hb with hb | hb
    · simp only [List.mem_cons, List.not_mem_nil, or_false] at hb
      rcases hb with rfl | rfl | rfl | rfl
      · exact h.one.mem_written ha
      · exact h.two.mem_written ha
      · exact h.three.mem_written ha
      · exact mem_written.mpr ⟨_, h.nodeCount, ha⟩
    · obtain ⟨_, hvector⟩ := Mix.Lowered.constants_of_carries h.stages b hb
      exact hvector.mem_written ha
  · obtain ⟨i, hi⟩ := List.mem_iff_getElem?.mp ha
    exact (h.chunkOffsets i a hi).mem_written
  · obtain ⟨i, hi⟩ := List.mem_iff_getElem?.mp ha
    exact (h.topOffsets i a hi).mem_written
  · rw [h.topOffsets_length, TopNodes.count, hf.top.depth]

/-- Every register of the setup is set by one operation of it. -/
theorem Frame.LaidOut.setsOnce (h : f.LaidOut shape d) :
    ∀ register ∈ f.setupRegisters d.pool, SetsOnce d.pending.toList register := by
  have hop {op : Op} (hop : op ∈ d.pending.toList) : SetsOnce d.pending.toList op.writes :=
    .of_pairwise h.tracked.code.pairwise_writesApart hop fun _ => id
  intro register hregister
  simp only [Frame.setupRegisters, List.mem_append, List.mem_map, List.mem_singleton] at hregister
  rcases hregister with ((⟨a, ha, rfl⟩ | ⟨x, hx, rfl⟩) | ⟨x, hx, rfl⟩) | rfl
  · obtain ⟨i, hi⟩ := List.mem_iff_getElem?.mp ha
    obtain ⟨addr, -, hload⟩ := h.setBy.header i a hi
    exact hop hload
  · exact hop (h.tracked.scalars x hx)
  · obtain ⟨source, -, hbroadcast⟩ := h.tracked.vectors x hx
    exact hop hbroadcast
  · exact hop h.setBy.nodeCount

end Setup

namespace Kernel

section Phases

variable {f : Frame} {shape : FrameShape} {d : Draft} {p : Pipeline} {space : Iterations}

theorem bounds_of_mem_written_bodyOps (h : f.LaidOut shape d)
    (hp : p.Suits shape.chunks shape.workSets) (hchunks : space.chunks = shape.chunks) {a : Addr}
    (ha : a ∈ written (bodyOps f p space)) : f.indices.toNat ≤ a.toNat ∧ a.toNat < d.used := by
  obtain ⟨op, hop, ha⟩ := mem_written.mp ha
  have hsetUp := h.setUp
  exact writesWithin_bodyOps h.layout hp hchunks
    ⟨hsetUp.chunkOffsets_length, hsetUp.topOffsets_length⟩ op hop a ha

theorem definesBeforeUse_phases (h : f.LaidOut shape d)
    (hp : p.Suits shape.chunks shape.workSets) (hchunks : space.chunks = shape.chunks) :
    DefinesBeforeUse (d.pending.toList ++ bodyOps f p space) := by
  have hbody := usesDefined_bodyOps h.layout hp hchunks h.setUp
  exact definesBeforeUse_iff.mpr
    ((definesBeforeUse_iff.mp h.code).append hbody fun a => Or.inr)

theorem lt_used_of_mem_phases (h : f.LaidOut shape d)
    (hp : p.Suits shape.chunks shape.workSets) (hchunks : space.chunks = shape.chunks) {op : Op}
    (hop : op ∈ d.pending.toList ++ bodyOps f p space) :
    ∀ a ∈ op.reads ++ op.writes, a.toNat < d.used := by
  have hwritten : ∀ a ∈ written (d.pending.toList ++ bodyOps f p space), a.toNat < d.used := by
    intro a ha
    rw [written_append, List.mem_append] at ha
    rcases ha with ha | ha
    · obtain ⟨hle, hle'⟩ := h.layout.indices_le
      have := h.below a ha
      omega
    · exact (bounds_of_mem_written_bodyOps h hp hchunks ha).2
  intro a ha
  rcases List.mem_append.mp ha with ha | ha
  · -- what is read was written before
    exact hwritten a ((definesBeforeUse_phases h hp hchunks).mem_written hop ha)
  · exact hwritten a (mem_written.mpr ⟨op, hop, ha⟩)

theorem setsOnce_phases (h : f.LaidOut shape d) (hp : p.Suits shape.chunks shape.workSets)
    (hchunks : space.chunks = shape.chunks) :
    ∀ register ∈ f.setupRegisters d.pool ++ f.top.registers,
      SetsOnce (d.pending.toList ++ bodyOps f p space) register := by
  have hapart {a : Addr} (hsetup : a ∈ written d.pending.toList)
      (hbody : a ∈ written (bodyOps f p space)) : False :=
    Nat.not_lt.mpr (bounds_of_mem_written_bodyOps h hp hchunks hbody).1 (h.below a hsetup)
  intro register hregister
  rcases List.mem_append.mp hregister with hregister | hregister
  · have honce := h.setsOnce register hregister
    exact honce.append_right fun a ha => hapart (honce.mem_written ha)
  · have hsetUp := h.setUp
    have honce : SetsOnce (bodyOps f p space) register :=
      setsOnce_bodyOps h.layout hp hchunks
        ⟨hsetUp.chunkOffsets_length, hsetUp.topOffsets_length⟩ register hregister
    exact honce.append_left fun a ha hsetup => hapart hsetup (honce.mem_written ha)

end Phases

/-- Every kernel that is built defines its registers before their use: setup and second phase in
their order read no word that no earlier operation has set, touch only words below `scratchUsed`,
and set each header scalar, each pooled constant, the node count in every lane and each register of
the top nodes by exactly one operation. -/
theorem defines_registers_before_use {c : BuildConfig} {w : Workload} {k : Kernel}
    (hbuild : build c w = .ok k) (hcapacity : c.capacity < 2 ^ 32)
    (hbuffers : ∀ p, c.pipeline = some p →
      p.groupWidth * (1 + p.prefetchGroups) < Size.limit) :
    ∃ p f d, c.pipelineFor w.chunks = .ok p ∧
      Draft.Gives (Frame.reserve ⟨w.height, w.batch, p.bufferCount⟩) (.ofCapacity c.capacity) f d ∧
      let setup := d.pending.toList
      let body := bodyOps f p w.iterations
      k.program = programOf c setup body ∧
      DefinesBeforeUse (setup ++ body) ∧
      (∀ op ∈ setup ++ body, ∀ a ∈ op.reads ++ op.writes, a.toNat < k.stats.scratchUsed) ∧
      ∀ register ∈ f.setupRegisters d.pool ++ f.top.registers,
        SetsOnce (setup ++ body) register := by
  obtain ⟨p, f, d, hp, hreserve, hprogram, hused⟩ := build_eq_ok hbuild
  have hsuits := BuildConfig.suits_pipelineFor hp hbuffers
  obtain ⟨hlaid, -⟩ := Frame.laidOut_of_reserve hcapacity hreserve
  refine ⟨p, f, d, hp, hreserve, hprogram, definesBeforeUse_phases hlaid hsuits rfl, ?_,
    setsOnce_phases hlaid hsuits rfl⟩
  rw [hused]
  exact fun op hop => lt_used_of_mem_phases hlaid hsuits rfl hop

/-- Four rounds of sixteen lanes on a tree of height three, with prefetch. -/
theorem defines_registers_before_use_prefetch :
    let c : BuildConfig := { pipeline := some ⟨1, 1⟩, capacity := 400 }
    let w : Workload := ⟨3, 16, 4⟩
    ∃ k p f d, build c w = .ok k ∧ c.pipelineFor w.chunks = .ok p ∧
      Draft.Gives (Frame.reserve ⟨w.height, w.batch, p.bufferCount⟩) (.ofCapacity c.capacity) f d ∧
      k.program = programOf c d.pending.toList (bodyOps f p w.iterations) ∧
      DefinesBeforeUse (d.pending.toList ++ bodyOps f p w.iterations) ∧
      (∀ op ∈ d.pending.toList ++ bodyOps f p w.iterations, ∀ a ∈ op.reads ++ op.writes,
        a.toNat < k.stats.scratchUsed) ∧
      ∀ register ∈ f.setupRegisters d.pool ++ f.top.registers,
        SetsOnce (d.pending.toList ++ bodyOps f p w.iterations) register := by
  intro c w
  obtain ⟨k, hbuild, -⟩ : ∃ k, build c w = .ok k ∧ True := exists_eq_ok (by decide +kernel)
  obtain ⟨p, f, d, hp, hreserve, hprogram, horder, hbounds, honce⟩ :=
    defines_registers_before_use hbuild (by decide) (by simp [c, Size.limit])
  exact ⟨k, p, f, d, hbuild, hp, hreserve, hprogram, horder, hbounds, honce⟩

end Kernel

end TreeWalk
