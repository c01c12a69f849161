import TreeWalk.Proofs.KernelRegisters
import TreeWalk.Proofs.SharedMemory

/-!
# Kernels on several cores

Between its last load from memory and its first store a kernel works out the addresses to store to.
Every store reads one of them, so that no bundle can reach from a load across to a store. The
kernel's bundles are therefore fit for cores that share the memory.
-/

namespace TreeWalk

theorem Op.asksCoreId_of_isQuiet {op : Op} (h : op.isQuiet = true) : op.asksCoreId = false := by
  cases op with
  | alu | valu | load => rfl
  | store | flow | note => cases h

theorem Op.IsPlain.same_on_cores {op : Op} (h : op.IsPlain) :
    op.Fits ∧ op.asksCoreId = false ∧ op.writesMemory = false :=
  ⟨h.2, Op.asksCoreId_of_isQuiet h.1, Op.writesMemory_of_isQuiet h.1⟩

namespace Packing

variable {mode : Mode} {widths : Widths}

theorem exists_sparing_runs (hwidths : ∀ e, e ≠ .debug → 1 ≤ widths.of e) (mode : Mode)
    (ops : List Op) : ∃ rs : List (List Op), pack mode widths ops = rs.map Bundle.ofOps ∧
      rs.flatten = ops ∧ ∀ r ∈ rs, r.Pairwise Op.Spares :=
  ⟨cut mode widths ops, pack_eq_map_cut mode widths ops, flatten_cut mode widths ops,
    fun r hr => (cut_spec hwidths mode ops r hr).1⟩

/-- A run that spares what it writes cannot reach across operations that set what those behind
them read. -/
theorem oneWay_of_between {front between back before after r : List Op}
    (hsplit : front ++ between ++ back = before ++ r ++ after) (hr : r.Pairwise Op.Spares)
    (hfront : ∀ op ∈ front, op.writesMemory = false)
    (hbetween : ∀ op ∈ between, op.writesMemory = false ∧ op.readsMemory = false)
    (hback : ∀ op ∈ back, op.readsMemory = false ∧ ∃ a ∈ op.reads, a ∈ written between) :
    (∀ op ∈ r, op.writesMemory = false) ∨ ∀ op ∈ r, op.readsMemory = false := by
  rw [List.append_assoc, List.append_assoc] at hsplit
  rcases List.append_eq_append_iff.mp hsplit with ⟨rest, -, hrest⟩ | ⟨rest, rfl, hrest⟩
  · -- the run begins behind the front
    right
    intro op hop
    have hmem : op ∈ between ++ back := by simp [hrest, hop]
    rcases List.mem_append.mp hmem with hmem | hmem
    · exact (hbetween op hmem).2
    · exact (hback op hmem).1
  · left
    rw [← List.append_assoc] at hrest
    rcases List.append_eq_append_iff.mp hrest with ⟨more, hmore, -⟩ | ⟨more, rfl, rfl⟩
    · -- it ends before the back begins
      intro op hop
      have hmem : op ∈ rest ++ between := by simp [hmore, hop]
      rcases List.mem_append.mp hmem with hmem | hmem
      · exact hfront op (List.mem_append_right before hmem)
      · exact (hbetween op hmem).1
    · -- it has all of the middle, so that nothing can stand behind that
      obtain ⟨-, -, hacross⟩ := List.pairwise_append.mp hr
      intro op hop
      rcases List.mem_append.mp hop with hop | hop
      · rcases List.mem_append.mp hop with hop | hop
        · exact hfront op (List.mem_append_right before hop)
        · exact (hbetween op hop).1
      · obtain ⟨-, a, hread, hwritten⟩ := hback op (List.mem_append_left after hop)
        obtain ⟨x, hx, hxa⟩ := mem_written.mp hwritten
        exact absurd hread (hacross x (List.mem_append_right rest hx) op hop a hxa).1

/-- Packed code that loads first and stores last, with what the stores read set in between. -/
theorem shareable_pack {front between back : List Op}
    (hwidths : ∀ e, e ≠ .debug → 1 ≤ widths.of e) (mode : Mode)
    (hops : ∀ op ∈ front ++ between ++ back, op.Fits ∧ op.asksCoreId = false)
    (hfront : ∀ op ∈ front, op.writesMemory = false)
    (hbetween : ∀ op ∈ between, op.writesMemory = false ∧ op.readsMemory = false)
    (hback : ∀ op ∈ back, op.readsMemory = false ∧ ∃ a ∈ op.reads, a ∈ written between) :
    ∀ b ∈ pack mode widths (front ++ between ++ back), b.Shareable := by
  obtain ⟨rs, hpack, hflat, hspares⟩ := exists_sparing_runs hwidths mode (front ++ between ++ back)
  rw [hpack]
  intro b hb
  obtain ⟨r, hr, rfl⟩ := List.mem_map.mp hb
  obtain ⟨before, after, hrs⟩ := List.append_of_mem hr
  have hsplit : front ++ between ++ back = before.flatten ++ r ++ after.flatten := by
    rw [← hflat, hrs]
    simp
  have hissued {op : Op} (hop : op ∈ (Bundle.ofOps r).issued) : op ∈ r :=
    (List.mem_filter.mp ((Bundle.issued_ofOps_perm r).mem_iff.mp hop)).1
  have hmem {op : Op} (hop : op ∈ r) : op ∈ front ++ between ++ back := by
    rw [hsplit]
    simp [hop]
  constructor
  · exact fun op hop => (hops op (hmem (hissued hop))).1
  · exact fun op hop => (hops op (hmem (hissued hop))).2
  · rcases oneWay_of_between hsplit (hspares r hr) hfront hbetween hback with h | h
    · exact .inl fun op hop => h op (hissued hop)
    · exact .inr fun op hop => h op (hissued hop)

theorem shareable_pack_of_forall {ops : List Op} (hwidths : ∀ e, e ≠ .debug → 1 ≤ widths.of e)
    (mode : Mode)
    (hops : ∀ op ∈ ops, op.Fits ∧ op.asksCoreId = false ∧ op.writesMemory = false) :
    ∀ b ∈ pack mode widths ops, b.Shareable := by
  have hsplit : ops = ops ++ [] ++ [] := by simp
  rw [hsplit]
  apply shareable_pack hwidths
  · intro op hop
    rw [← hsplit] at hop
    exact ⟨(hops op hop).1, (hops op hop).2.1⟩
  · exact fun op hop => (hops op hop).2.2
  · simp
  · simp

end Packing

namespace Kernel

section Phases

variable {f : Frame} {shape : FrameShape} {d : Draft} {p : Pipeline} {space : Iterations}
  {c : BuildConfig}

theorem shareable_setup (h : f.LaidOut shape d)
    (hwidths : ∀ e, e ≠ .debug → 1 ≤ c.widths.of e) :
    ∀ b ∈ Packing.pack c.mode c.widths d.pending.toList, b.Shareable :=
  Packing.shareable_pack_of_forall hwidths c.mode fun op hop =>
    Op.IsPlain.same_on_cores (h.tracked.code.isQuiet_and_fits op hop)

/-- The addresses of the stores are worked out between the loads and the stores. -/
theorem shareable_bodyOps (h : f.LaidOut shape d) (hp : p.Suits shape.chunks shape.workSets)
    (hchunks : space.chunks = shape.chunks) (hwidths : ∀ e, e ≠ .debug → 1 ≤ c.widths.of e) :
    ∀ b ∈ Packing.pack c.mode c.widths (bodyOps f p space), b.Shareable := by
  have hwalk : ∀ op ∈ walkOps f p space,
      op.Fits ∧ op.asksCoreId = false ∧ op.writesMemory = false := by
    intro op hop
    rcases of_mem_walkOps h.layout hp hchunks hop with rfl | hplain
    · exact ⟨trivial, rfl, rfl⟩
    · exact hplain.same_on_cores
  have haddress : ∀ op ∈ BatchTransfer.addressOps f, op.writesMemory = false ∧
      op.readsMemory = false := by
    intro op hop
    obtain ⟨x, -, hop⟩ := List.mem_flatMap.mp hop
    rcases List.mem_pair.mp hop with rfl | rfl <;> exact ⟨rfl, rfl⟩
  rw [bodyOps_eq_walkOps]
  apply Packing.shareable_pack hwidths
  · intro op hop
    rcases List.mem_append.mp hop with hop | hop
    · rcases List.mem_append.mp hop with hop | hop
      · exact ⟨(hwalk op hop).1, (hwalk op hop).2.1⟩
      · have hplain := (BatchTransfer.isPlain_addressOps f op hop).same_on_cores
        exact ⟨hplain.1, hplain.2.1⟩
    · obtain ⟨x, hx, rfl⟩ := List.mem_map.mp hop
      exact ⟨BatchTransfer.fits_blockPairs h.layout x hx, rfl⟩
  · exact fun op hop => (hwalk op hop).2.2
  · exact haddress
  · intro op hop
    obtain ⟨x, hx, rfl⟩ := List.mem_map.mp hop
    constructor
    · rfl
    · exact ⟨x.1, List.mem_cons_self,
        BatchTransfer.fst_mem_written_addressOps h.setUp.chunkOffsets_length x hx⟩

theorem shareable_programOf (h : f.LaidOut shape d) (hp : p.Suits shape.chunks shape.workSets)
    (hchunks : space.chunks = shape.chunks) (hwidths : ∀ e, e ≠ .debug → 1 ≤ c.widths.of e) :
    ∀ b ∈ (programOf c d.pending.toList (bodyOps f p space)).bundles, b.Shareable := by
  have hissued : (Bundle.single .pause).issued = [.pause] := rfl
  have hpause : (Bundle.single .pause).Shareable := by
    constructor
    · exact hissued ▸ List.forall_mem_singleton.mpr trivial
    · exact hissued ▸ List.forall_mem_singleton.mpr rfl
    · exact .inl (hissued ▸ List.forall_mem_singleton.mpr rfl)
  intro b hb
  simp only [programOf, Program.ofList, List.mem_toArray, List.mem_append, List.mem_singleton]
    at hb
  rcases hb with ((hb | rfl) | hb) | rfl
  · exact shareable_setup h hwidths b hb
  · exact hpause
  · exact shareable_bodyOps h hp hchunks hwidths b hb
  · exact hpause

end Phases

/-- A kernel does on any number of cores what it does on one. Both runs end well, with the memory
and the cycles that a single core comes to, and at the end every core is as the single one. -/
theorem ends_alike_on_cores {c : BuildConfig} {w : Workload} {k : Kernel}
    (hbuild : build c w = .ok k) (hcapacity : c.capacity < 2 ^ 32)
    (hwidths : ∀ e, e ≠ .debug → 1 ≤ c.widths.of e)
    (hbuffers : ∀ p, c.pipeline = some p → p.groupWidth * (1 + p.prefetchGroups) < Size.limit)
    {mem : Array Word} (hsize : mem.size ≤ 2 ^ 32)
    {walk : ImageWalk} (hstart : ImageWalk.start mem = .ok walk)
    (hheight : walk.layout.height = w.height) (hbatch : walk.layout.batch = w.batch)
    (hrounds : walk.layout.rounds = w.rounds) (hapart : walk.layout.PartsApart)
    (hroots : ∀ lane < w.batch, mem[walk.layout.indicesAt + lane]? = some 0)
    {scratch : Array Word} (hscratch : c.capacity ≤ scratch.size) {count : Nat}
    (hcount : 1 ≤ count) :
    let machine (count : Nat) : Machine :=
      { cores := (List.range count).map fun id => ⟨id, scratch, {}⟩, mem, program := k.program,
        regions := k.regions, widths := c.widths }
    ∃ m n m' n', (machine 1).Ends .settled m ∧ m.Ends .settled n ∧
      (machine count).Ends .settled m' ∧ m'.Ends .settled n' ∧
      m'.mem = m.mem ∧ m'.cycle = m.cycle ∧ n'.mem = n.mem ∧ n'.cycle = n.cycle ∧
      ∃ core, n.cores = [core] ∧ n'.cores = (List.range count).map core.withId := by
  intro machine
  obtain ⟨-, hw⟩ := ImageWalk.walkable_of_start hstart hsize hapart (hbatch ▸ hroots)
  obtain ⟨p, f, d, hlaid, -, hsuits, hprogram⟩ := laidOut_of_build hbuild hcapacity hbuffers
  obtain ⟨m, n, hfirst, -, -, hsecond, -⟩ :=
    ends_of_build hbuild hcapacity hwidths hbuffers hw hheight hbatch hrounds hscratch
  have hshared : ∀ b ∈ k.program.bundles, b.Shareable :=
    hprogram ▸ shareable_programOf hlaid hsuits rfl hwidths
  have hids : List.range count ≠ [] := by
    rw [Ne, List.range_eq_nil]
    omega
  obtain ⟨hfirst', hkept, core, hcore⟩ := hfirst.crew hshared hids rfl
  obtain ⟨hsecond', -, core', hcore'⟩ := hsecond.crew (hkept ▸ hshared) hids hcore
  have hcrew : machine count =
      (Machine.solo scratch mem k.program c.widths k.regions).crew (List.range count) := by
    simp only [machine, Machine.crew, Machine.solo, List.flatMap_singleton]
    rfl
  refine ⟨m, n, _, _, hfirst, hsecond, hcrew ▸ hfirst', hsecond', rfl, rfl, rfl, rfl, core', hcore',
    ?_⟩
  rw [Machine.crew, hcore', List.flatMap_singleton]

/-- Three cores, three rounds of eight lanes, and a tree of three nodes. Each core takes the same 75
cycles. -/
theorem ends_alike_on_three_cores :
    let c : BuildConfig := { pipeline := some ⟨1, 0⟩, capacity := 400 }
    let w : Workload := ⟨1, 8, 3⟩
    let tree : Tree := ⟨1, #[3, 5, 8]⟩
    let b : Batch := ⟨List.replicate 8 0, [1, 2, 3, 4, 5, 6, 7, 8], 3⟩
    let mem := Image.encode tree b
    let indices : List Word := [1, 2, 1, 1, 1, 2, 1, 1]
    let values : List Word := [4086199454, 121220055, 882033122, 363911198, 3218819716, 3092590753,
      870022912, 1901502630]
    ∃ k, build c w = .ok k ∧
      let machine (count : Nat) : Machine :=
        { cores := (List.range count).map fun id => ⟨id, Array.replicate 400 0, {}⟩, mem,
          program := k.program, regions := k.regions, widths := c.widths }
      ∃ m n m' n', (machine 1).Ends .settled m ∧ m.Ends .settled n ∧
        (machine 3).Ends .settled m' ∧ m'.Ends .settled n' ∧ m'.mem = mem ∧ n'.mem = n.mem ∧
        (∀ lane < 8, n'.mem[11 + lane]? = indices[lane]? ∧ n'.mem[19 + lane]? = values[lane]?) ∧
        n'.cycle = 75 ∧ n'.cores.length = 3 := by
  intro c w tree b mem indices values
  obtain ⟨k, hbuild, hcycles⟩ : ∃ k, build c w = .ok k ∧ k.program.issueCycles = 75 :=
    exists_eq_ok (by decide +kernel)
  have hwidths (e : Engine) (_ : e ≠ .debug) : 1 ≤ c.widths.of e := Widths.one_le_default e
  have hbuffers : ∀ p, c.pipeline = some p →
      p.groupWidth * (1 + p.prefetchGroups) < Size.limit := by simp [c, Size.limit]
  have hscratch : c.capacity ≤ (Array.replicate 400 (0 : Word)).size := by simp [c]
  obtain ⟨hstart, hw⟩ : ImageWalk.start mem = .ok ⟨mem, Image.layoutFor tree b, .fresh⟩ ∧
      Image.Walkable (Image.layoutFor tree b) mem :=
    ImageWalk.walkable_encode rfl rfl (by decide) (by decide) (by decide +kernel)
  obtain ⟨m, n, m', n', hfirst, hsecond, hfirst', hsecond', hmem, -, hmem', hcycle', core, -,
      hcores⟩ :=
    ends_alike_on_cores hbuild (by decide) hwidths hbuffers hw.size_le hstart rfl rfl rfl hw.apart
      hw.roots hscratch (by decide : 1 ≤ 3)
  -- what the single core comes to
  obtain ⟨m₁, n₁, hends, hsame, -, hends', hcycle, hshows⟩ :=
    ends_of_build hbuild (by decide) hwidths hbuffers hw rfl rfl rfl hscratch
  obtain ⟨-, rfl⟩ := hfirst.unique hends
  obtain ⟨-, rfl⟩ := hsecond.unique hends'
  have hindices : ∀ lane < 8, some (Image.laneAfter (Image.layoutFor tree b) mem lane 3).1 =
      indices[lane]? := by decide +kernel
  have hvalues : ∀ lane < 8, some (Image.laneAfter (Image.layoutFor tree b) mem lane 3).2 =
      values[lane]? := by decide +kernel
  refine ⟨k, hbuild, m, n, m', n', hfirst, hsecond, hfirst', hsecond', hmem.trans hsame, hmem',
    fun lane hlane => ⟨?_, ?_⟩, ?_, ?_⟩
  · rw [hmem']
    exact ((hshows (by decide)).index lane hlane).trans (hindices lane hlane)
  · rw [hmem']
    exact ((hshows (by decide)).value lane hlane).trans (hvalues lane hlane)
  · rw [hcycle', hcycle, hcycles]
  · simp [hcores]

end Kernel

end TreeWalk
