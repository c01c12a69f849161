import TreeWalk.Proofs.EncodedWalk
import TreeWalk.Proofs.KernelPacking
import TreeWalk.Proofs.SetupOrder

/-!
# Kernels walk the batch

A kernel that is built for a workload, run on an image of that workload, pauses once with the
memory as it was and once with the memory as the walk leaves it.
-/

namespace TreeWalk

theorem execute_note (text : String) (s : Contents) : (Op.note text).execute s = some s := by
  simp [Op.execute, Op.effect, pure, Except.pure, Contents.commit, Scratch.write, Memory.write]

namespace BuildConfig

theorem suits_pipelineFor {c : BuildConfig} {chunks : Nat} {p : Pipeline}
    (h : c.pipelineFor chunks = .ok p)
    (hbuffers : ∀ p, c.pipeline = some p →
      p.groupWidth * (1 + p.prefetchGroups) < Size.limit) :
    p.Suits chunks p.bufferCount := by
  unfold pipelineFor at h
  split at h
  · obtain rfl : Pipeline.choose chunks = p := Except.ok.inj h
    refine ⟨Pipeline.choose_fits chunks, ?_, Nat.le_refl _⟩
    unfold Pipeline.choose
    split
    · have hwidth : min Pipeline.maxChosenWidth (chunks / 2) ≤ 3 := Nat.min_le_left _ _
      simp only [Size.limit]
      omega
    · simp [Size.limit]
  · rename_i q hq
    split at h
    · rename_i hfits
      obtain rfl : q = p := Except.ok.inj h
      exact ⟨hfits, hbuffers q hq, Nat.le_refl _⟩
    · cases h

end BuildConfig

namespace Kernel

theorem build_eq_ok {c : BuildConfig} {w : Workload} {k : Kernel} (h : build c w = .ok k) :
    ∃ p f d, c.pipelineFor w.chunks = .ok p ∧
      Draft.Gives (Frame.reserve ⟨w.height, w.batch, p.bufferCount⟩) (.ofCapacity c.capacity) f d ∧
      k.program = programOf c d.pending.toList (bodyOps f p w.iterations) ∧
      k.stats.scratchUsed = d.used := by
  unfold build at h
  cases hp : c.pipelineFor w.chunks with
  | error e => simp [hp, bind, Except.bind] at h
  | ok p =>
    simp only [hp, bind, Except.bind] at h
    split at h
    · cases h
    · rename_i f d hreserve
      obtain rfl := Except.ok.inj h
      exact ⟨p, f, d, rfl, hreserve, rfl, rfl⟩

/-- A kernel consists of a setup that lays out its frame in the scratch at hand, and of a body for
that frame. -/
theorem laidOut_of_build {c : BuildConfig} {w : Workload} {k : Kernel} (h : build c w = .ok k)
    (hcapacity : c.capacity < 2 ^ 32)
    (hbuffers : ∀ p, c.pipeline = some p → p.groupWidth * (1 + p.prefetchGroups) < Size.limit) :
    ∃ p f d, Frame.LaidOut f ⟨w.height, w.batch, p.bufferCount⟩ d ∧ d.used ≤ c.capacity ∧
      p.Suits w.chunks p.bufferCount ∧
      k.program = programOf c d.pending.toList (bodyOps f p w.iterations) := by
  obtain ⟨p, f, d, hp, hreserve, hprogram, -⟩ := build_eq_ok h
  obtain ⟨hlaid, hused⟩ := Frame.laidOut_of_reserve hcapacity hreserve
  exact ⟨p, f, d, hlaid, hused, BuildConfig.suits_pipelineFor hp hbuffers, hprogram⟩

/-- On packable phases that do not fault a kernel's program pauses behind each of them, and takes as
many cycles as it has effective bundles. -/
theorem ends_programOf {c : BuildConfig} {setup body : List Op} (hsetup : Packing.Packable setup)
    (hbody : Packing.Packable body) (hwidths : ∀ e, e ≠ .debug → 1 ≤ c.widths.of e)
    {scratch mem : Array Word} {s t : Contents} (hs : execute setup ⟨0, scratch, mem, #[]⟩ = some s)
    (ht : execute body s = some t) (regions : Regions) :
    ∃ m n, (Machine.solo scratch mem (programOf c setup body) c.widths regions).Ends .settled m ∧
      m.mem = s.mem ∧ m.cores.map (·.control.state) = [.paused] ∧ m.Ends .settled n ∧
      n.mem = t.mem ∧ n.cycle = (programOf c setup body).issueCycles := by
  obtain ⟨hfirst, hexecute⟩ := Packing.pack_spec hsetup hwidths c.mode
  obtain ⟨hsecond, hexecute'⟩ := Packing.pack_spec hbody hwidths c.mode
  set first := Packing.pack c.mode c.widths setup with hfirst_eq
  set second := Packing.pack c.mode c.widths body with hsecond_eq
  set m := Machine.solo scratch mem (programOf c setup body) c.widths regions with hm
  have hprogram : m.program =
      .ofList (first ++ [.single .pause] ++ second ++ [.single .pause]) := rfl
  have hflow : 1 ≤ m.widths.flow := hwidths .flow (by simp)
  -- the bundles of both phases, and the pausing ones
  have hat₁ : m.HasBundles 0 first :=
    Machine.hasBundles_of_program_eq [] ([.single .pause] ++ second ++ [.single .pause])
      (by simp [hprogram])
  have hat₂ : m.HasBundles (first.length + 1) second := by
    have hat := Machine.hasBundles_of_program_eq (first ++ [.single .pause]) [.single .pause]
      hprogram
    rwa [List.length_append] at hat
  have hpause₁ : m.program.get? (0 + first.length) = some (.single .pause) := by
    have hat : m.HasBundles first.length [.single .pause] :=
      Machine.hasBundles_of_program_eq first (second ++ [.single .pause]) (by simp [hprogram])
    rw [Nat.zero_add]
    exact hat.head
  have hpause₂ : m.program.get? (first.length + 1 + second.length) = some (.single .pause) := by
    have hat : m.HasBundles (first ++ [Bundle.single .pause] ++ second).length [.single .pause] :=
      Machine.hasBundles_of_program_eq _ [] (by simp [hprogram])
    rw [List.length_append, List.length_append] at hat
    exact hat.head
  have hends₁ := Machine.ends_at_pause hat₁ hpause₁ (fun b hb => (hfirst b hb).1)
    (fun b hb => (hfirst b hb).2) hflow rfl ((hexecute _).trans hs)
    (by decide : RunState.running ≠ .stopped) 0
  have hends₂ := Machine.ends_at_pause hat₂ hpause₂ (fun b hb => (hsecond b hb).1)
    (fun b hb => (hsecond b hb).2) hflow rfl ((hexecute' _).trans ht)
    (by decide : RunState.paused ≠ .stopped) (0 + first.countP Bundle.isEffective + 1)
  have hcycles : 0 + first.countP Bundle.isEffective + 1 + second.countP Bundle.isEffective + 1 =
      (programOf c setup body).issueCycles := by
    have heffective : (Bundle.single .pause).isEffective = true := rfl
    change _ = m.program.issueCycles
    rw [hprogram]
    simp only [Program.issueCycles, Program.ofList, List.countP_toArray, List.countP_append,
      List.countP_singleton, heffective, if_true]
    omega
  rw [Nat.zero_add first.length] at hends₁
  exact ⟨_, _, hends₁, rfl, rfl, hends₂, rfl, hcycles⟩

section Phases

variable {f : Frame} {shape : FrameShape} {d : Draft} {mem : Array Word} {s : Contents}
  {layout : Image.Layout} {p : Pipeline}

theorem execute_setup (hd : Draft.Tracked HeaderRegs.wordCount d) (hset : f.SetBy shape d)
    (hs : d.used ≤ s.scratch.size) (hmem : HeaderRegs.wordCount ≤ s.mem.size) :
    ∃ t, execute d.pending.toList s = some t ∧
      Contents.DiffersIn (Addr.Among (written d.pending.toList)) s t ∧ f.Ready s.mem t := by
  obtain ⟨t, hrun, hdiffers, hdone⟩ := hd.execute_pending hs hmem
  exact ⟨t, hrun, hdiffers, hdiffers.mem ▸ hset.ready hdone⟩

theorem execute_loads (hf : f.Layout shape d.used) (hset : f.SetBy shape d)
    (hready : f.Ready mem s) (hmem : s.mem = mem) (hin : Image.InBounds layout mem)
    (hheight : layout.height = shape.height) (hbatch : shape.batch ≤ layout.batch)
    (hs : d.used ≤ s.scratch.size) :
    ∃ t, execute (NodeValues.preloadOps f ++ BatchTransfer.loadOps f) s = some t ∧
      d.used ≤ t.scratch.size ∧ RoundLoop.Walked f layout mem (fun _ => 0) t := by
  have hoffsets : f.chunkOffsets.length = f.chunks := hset.chunkOffsets_length.trans hf.chunks.symm
  obtain ⟨t₀, h₀, hsize₀, hprimed⟩ :=
    NodeValues.execute_preload hf hset hready hmem hin hheight hs
  obtain ⟨t₁, h₁, hsize₁, hwalked⟩ :=
    BatchTransfer.execute_loadOps hf hoffsets hprimed hin hbatch (hsize₀.symm ▸ hs)
  refine ⟨t₁, ?_, (hsize₁.trans hsize₀).symm ▸ hs, hwalked⟩
  rw [execute_append, h₀, Option.bind_some, h₁]

/-- The second phase takes every lane through all rounds before it turns to the stores. -/
theorem execute_walkOps (space : Iterations) (hf : f.Layout shape d.used)
    (hset : f.SetBy shape d) (hready : f.Ready mem s) (hmem : s.mem = mem)
    (hw : Image.Walkable layout mem) (hheight : layout.height = shape.height)
    (hbatch : layout.batch = shape.batch) (hp : p.Suits shape.chunks shape.workSets)
    (hchunks : space.chunks = shape.chunks) (hspace : space.height = layout.height)
    (htotal : space.rounds * space.chunks < Size.limit) (hs : d.used ≤ s.scratch.size) :
    ∃ t, execute (walkOps f p space ++ BatchTransfer.addressOps f) s = some t ∧
      d.used ≤ t.scratch.size ∧ BatchTransfer.Addressed f layout t ∧
      RoundLoop.Walked f layout mem (fun _ => space.rounds) t := by
  obtain ⟨hle, hle'⟩ := hf.indices_le
  have hoffsets : f.chunkOffsets.length = f.chunks := hset.chunkOffsets_length.trans hf.chunks.symm
  have hlanes : shape.batch ≤ layout.batch := Nat.le_of_eq hbatch.symm
  -- the loads
  obtain ⟨t₁, h₁, hs₁, hwalked₁⟩ := execute_loads hf hset hready hmem hw.inBounds hheight hlanes hs
  -- the rounds
  obtain ⟨t₂, h₂, hsize₂, hwalked₂⟩ :=
    hwalked₁.ops hw hf hbatch hp hchunks hspace hs₁ htotal
  have hs₂ : d.used ≤ t₂.scratch.size := hsize₂.symm ▸ hs₁
  -- the addresses of the batch again
  obtain ⟨t₃, h₃, hdiffers₃, haddressed₃⟩ :=
    BatchTransfer.execute_addressOps hf hoffsets hwalked₂.ready hw.inBounds hlanes hs₂
  have hwalked₃ : RoundLoop.Walked f layout mem (fun _ => space.rounds) t₃ :=
    hwalked₂.of_differs hf hdiffers₃ fun i hi => by omega
  refine ⟨t₃, ?_, hdiffers₃.size.symm ▸ hs₂, haddressed₃, hwalked₃⟩
  rw [execute_append, walkOps, execute, execute_note, Option.bind_some, execute_append, h₁,
    Option.bind_some, h₂, Option.bind_some, h₃]

theorem execute_bodyOps (space : Iterations) (hf : f.Layout shape d.used)
    (hset : f.SetBy shape d) (hready : f.Ready mem s) (hmem : s.mem = mem)
    (hw : Image.Walkable layout mem) (hheight : layout.height = shape.height)
    (hbatch : layout.batch = shape.batch) (hp : p.Suits shape.chunks shape.workSets)
    (hchunks : space.chunks = shape.chunks) (hspace : space.height = layout.height)
    (htotal : space.rounds * space.chunks < Size.limit) (hs : d.used ≤ s.scratch.size) :
    ∃ t, execute (bodyOps f p space) s = some t ∧ (shape.batch % laneCount = 0 →
      Image.Shows layout mem (fun _ => space.rounds) t.mem) := by
  obtain ⟨t, hrun, ht, haddressed, hwalked⟩ := execute_walkOps space hf hset hready hmem hw hheight
    hbatch hp hchunks hspace htotal hs
  obtain ⟨mem', hstores, hshows⟩ :=
    BatchTransfer.execute_storeBlocks hf hw hbatch haddressed hwalked ht
  refine ⟨{ t with mem := mem' }, ?_, hshows⟩
  rw [bodyOps_eq_walkOps, execute_append, hrun, Option.bind_some, hstores]

end Phases

theorem passes_lt {layout : Image.Layout} {mem : Array Word} (hw : Image.Walkable layout mem)
    {w : Workload} (hbatch : layout.batch = w.batch) (hrounds : layout.rounds = w.rounds) :
    w.rounds * w.chunks < Size.limit := by
  have hword (i : Nat) : Image.headerWord mem i < 2 ^ 32 := UInt32.toNat_lt _
  have hrounds_lt : w.rounds < 2 ^ 32 := by
    rw [← hrounds, hw.header]
    exact hword 0
  have hbatch_lt : w.batch < 2 ^ 32 := by
    rw [← hbatch, hw.header]
    exact hword 2
  have hchunks_lt : w.chunks < 2 ^ 32 := Nat.lt_of_le_of_lt (Nat.div_le_self _ _) hbatch_lt
  exact Nat.lt_of_lt_of_le (Nat.mul_lt_mul'' hrounds_lt hchunks_lt) (by decide)

/-- A kernel on an image of its workload. One core comes to its first pause with the memory
untouched, and to its second one with a batch of full chunks walked. -/
theorem ends_of_build {c : BuildConfig} {w : Workload} {k : Kernel} (hbuild : build c w = .ok k)
    (hcapacity : c.capacity < 2 ^ 32) (hwidths : ∀ e, e ≠ .debug → 1 ≤ c.widths.of e)
    (hbuffers : ∀ p, c.pipeline = some p → p.groupWidth * (1 + p.prefetchGroups) < Size.limit)
    {layout : Image.Layout} {mem scratch : Array Word} (hw : Image.Walkable layout mem)
    (hheight : layout.height = w.height) (hbatch : layout.batch = w.batch)
    (hrounds : layout.rounds = w.rounds) (hscratch : c.capacity ≤ scratch.size) :
    ∃ m n, (Machine.solo scratch mem k.program c.widths k.regions).Ends .settled m ∧
      m.mem = mem ∧ m.cores.map (·.control.state) = [.paused] ∧ m.Ends .settled n ∧
      n.cycle = k.program.issueCycles ∧ (w.batch % laneCount = 0 →
        Image.Shows layout mem (fun _ => layout.rounds) n.mem) := by
  obtain ⟨p, f, d, hlaid, hused, hsuits, hprogram⟩ := laidOut_of_build hbuild hcapacity hbuffers
  have hused' : d.used ≤ scratch.size := Nat.le_trans hused hscratch
  obtain ⟨s, hsetup, hdiffers, hready⟩ := execute_setup (s := ⟨0, scratch, mem, #[]⟩)
    hlaid.tracked hlaid.setBy hused' (Nat.le_trans (by decide) hw.header_le)
  obtain ⟨t, hbody, hshows⟩ := execute_bodyOps w.iterations hlaid.layout hlaid.setBy hready
    hdiffers.mem hw hheight hbatch hsuits rfl hheight.symm (passes_lt hw hbatch hrounds)
    (hdiffers.size.symm ▸ hused')
  obtain ⟨m, n, hends₁, hmem₁, hpaused, hends₂, hmem₂, hcycle⟩ := ends_programOf (c := c)
    hlaid.tracked.code.packable (packable_bodyOps hlaid.layout hsuits rfl) hwidths hsetup hbody
    k.regions
  rw [hprogram]
  refine ⟨m, n, hends₁, hmem₁.trans hdiffers.mem, hpaused, hends₂, hcycle, fun hlanes => ?_⟩
  rw [hmem₂, hrounds]
  exact hshows hlanes

/-- A kernel that is built for the workload of an image walks it: on a machine of one core it comes
to its first pause with the memory untouched, and then to its second one with the whole memory as
the walk shows it last. -/
theorem ends_as_walked {c : BuildConfig} {w : Workload} {k : Kernel} (hbuild : build c w = .ok k)
    (hcapacity : c.capacity < 2 ^ 32) (hwidths : ∀ e, e ≠ .debug → 1 ≤ c.widths.of e)
    (hbuffers : ∀ p, c.pipeline = some p → p.groupWidth * (1 + p.prefetchGroups) < Size.limit)
    (hlanes : w.batch % laneCount = 0) {mem : Array Word} (hsize : mem.size ≤ 2 ^ 32)
    {walk : ImageWalk} (hstart : ImageWalk.start mem = .ok walk)
    (hheight : walk.layout.height = w.height) (hbatch : walk.layout.batch = w.batch)
    (hrounds : walk.layout.rounds = w.rounds) (hapart : walk.layout.PartsApart)
    (hroots : ∀ lane < w.batch, mem[walk.layout.indicesAt + lane]? = some 0)
    {scratch : Array Word} (hscratch : c.capacity ≤ scratch.size) :
    ∃ m n w₁ w₂, (Machine.solo scratch mem k.program c.widths k.regions).Ends .settled m ∧
      m.mem = mem ∧ m.cores.map (·.control.state) = [.paused] ∧ m.Ends .settled n ∧
      walk.next = .shown w₁ ∧ w₁.next = .shown w₂ ∧ w₂.next = .exhausted ∧ n.mem = w₂.mem := by
  obtain ⟨hwalk, hw⟩ := ImageWalk.walkable_of_start hstart hsize hapart (hbatch ▸ hroots)
  obtain ⟨w₁, w₂, hnext₁, -, hnext₂, hlast, hshows⟩ := ImageWalk.next_next hw hwalk
  obtain ⟨m, n, hends₁, hmem, hpaused, hends₂, -, hwalked⟩ :=
    ends_of_build hbuild hcapacity hwidths hbuffers hw hheight hbatch hrounds hscratch
  exact ⟨m, n, w₁, w₂, hends₁, hmem, hpaused, hends₂, hnext₁, hnext₂, hlast,
    (hwalked hlanes).unique hshows⟩

/-- Five rounds of sixteen lanes on a tree of height three, with prefetch. The fourth round finds
the lanes at the leaves, where each of them loads its own node. -/
theorem ends_as_walked_prefetch :
    let c : BuildConfig := { pipeline := some ⟨1, 1⟩, capacity := 400 }
    let w : Workload := ⟨3, 16, 5⟩
    let tree : Tree := ⟨3, #[3, 5, 8, 13, 21, 34, 55, 89, 144, 233, 377, 610, 987, 1597, 2584]⟩
    let b : Batch := ⟨List.replicate 16 0, (List.range 16).map UInt32.ofNat, 5⟩
    let mem := Image.encode tree b
    let walked : List Word := [1, 2, 1, 1, 2, 1, 1, 2, 1, 1, 1, 1, 2, 1, 2, 2,
      3541364454, 2691142899, 3613455450, 3048523986, 135725451, 3717225946, 819225124, 3682407399,
      772866298, 3285202704, 4027039270, 1389831056, 1782578411, 1827941174, 1356671507, 137318079]
    ∃ k walk m n w₁ w₂, build c w = .ok k ∧ ImageWalk.start mem = .ok walk ∧
      (Machine.solo (Array.replicate 400 0) mem k.program c.widths k.regions).Ends .settled m ∧
      m.mem = mem ∧ m.cores.map (·.control.state) = [.paused] ∧ m.Ends .settled n ∧
      walk.next = .shown w₁ ∧ w₁.next = .shown w₂ ∧ w₂.next = .exhausted ∧ n.mem = w₂.mem ∧
      (n.mem.extract 23 55).toList = walked := by
  intro c w tree b mem walked
  obtain ⟨k, hbuild, -⟩ : ∃ k, build c w = .ok k ∧ True := exists_eq_ok (by decide +kernel)
  obtain ⟨hstart, hw⟩ : ImageWalk.start mem = .ok ⟨mem, Image.layoutFor tree b, .fresh⟩ ∧
      Image.Walkable (Image.layoutFor tree b) mem :=
    ImageWalk.walkable_encode rfl rfl (by decide) (by decide) (by decide +kernel)
  obtain ⟨m, n, w₁, w₂, hends, hmem, hpaused, hends', hnext, hnext', hlast, hfinal⟩ :=
    ends_as_walked hbuild (by decide) (fun e _ => Widths.one_le_default e)
      (by simp [c, Size.limit]) (by decide) hw.size_le hstart rfl rfl rfl hw.apart hw.roots
      (show c.capacity ≤ (Array.replicate 400 (0 : Word)).size by simp [c])
  refine ⟨k, _, m, n, w₁, w₂, hbuild, hstart, hends, hmem, hpaused, hends', hnext, hnext', hlast,
    hfinal, ?_⟩
  -- the words that the walk shows last
  have hwords :
      (ImageWalk.roundsOn (Image.layoutFor tree b) (Image.layoutFor tree b).rounds mem).map
        (fun shown => (shown.extract 23 55).toList) = some walked := by decide +kernel
  obtain rfl := ImageWalk.Next.shown.inj hnext
  have hrounds := ImageWalk.roundsOn_of_next (w := ⟨mem, Image.layoutFor tree b, .begun⟩) rfl hnext'
  dsimp only at hrounds
  rw [hrounds, Option.map_some] at hwords
  rw [hfinal]
  exact Option.some.inj hwords

end Kernel

end TreeWalk
