import TreeWalk.Proofs.LoopOrder
import TreeWalk.Proofs.PassMeaning

/-!
# The round loop walks the batch

After any number of passes every chunk has gone as many rounds as passes were about it. At the end
of the round loop, whatever its shape, every lane has gone all rounds.
-/

namespace TreeWalk

namespace TopNodes

variable {f : Frame} {shape : FrameShape} {used : Nat} {node : Nat → Word} {s t : Contents}

theorem toNat_node (hf : f.Layout shape used) {i : Nat} (hi : i < f.top.count) :
    (f.top.node i).toNat = f.top.scalars.toNat + i := by
  have hscalars := hf.top.scalars
  obtain ⟨hle, hle'⟩ := hf.indices_le
  have hlt := hf.stop_lt
  exact Addr.toNat_offset (by omega)

theorem Loaded.of_differs {W : Nat → Prop} (h : f.top.Loaded node s) (hf : f.Layout shape used)
    (hdiffers : Contents.DiffersIn W s t)
    (hW : ∀ i, f.top.scalars.toNat ≤ i → i < f.transferAddrs.toNat → ¬ W i) :
    f.top.Loaded node t := by
  have hscalars := hf.top.scalars
  have haddrs := hf.top.addrs
  obtain ⟨hle, -⟩ := hf.indices_le
  have hblock {a : Addr} (ha : a ∈ f.top.blocks) {l : Nat} (hl : l < laneCount) :
      t.lane l a = s.lane l a := by
    obtain ⟨hlow, hhigh⟩ := hf.topBlocks a ha
    exact hdiffers.lane (hW _ (by omega) (by omega))
  refine ⟨fun i hi => ?_, fun n1 n2 hlevel l hl => ?_, fun n0 n1 n2 n3 hlevel l hl => ?_⟩
  · have hnode := toNat_node hf hi
    rw [← h.scalars i hi]
    exact hdiffers.lane (hW _ (by omega) (by omega))
  · rw [hblock (by simp [TopNodes.blocks, hlevel]) hl,
      hblock (by simp [TopNodes.blocks, hlevel]) hl]
    exact h.level1 n1 n2 hlevel l hl
  · have hmem {a : Addr} (ha : a ∈ [n0, n1, n2, n3]) : a ∈ f.top.blocks :=
      List.mem_append_right _ (by simpa [hlevel] using ha)
    rw [hblock (hmem (by simp)) hl, hblock (hmem (by simp)) hl, hblock (hmem (by simp)) hl,
      hblock (hmem (by simp)) hl]
    exact h.level2 n0 n1 n2 n3 hlevel l hl

end TopNodes

/-- Constants and top nodes are in place. -/
structure Frame.Primed (f : Frame) (layout : Image.Layout) (mem : Array Word) (s : Contents) :
    Prop where
  ready : f.Ready mem s
  top : f.top.Loaded (fun i => mem.getD (layout.nodesAt + i) 0) s
  mem_eq : s.mem = mem

theorem Frame.Primed.of_differs {f : Frame} {shape : FrameShape} {used : Nat}
    {layout : Image.Layout} {mem : Array Word} {s t : Contents} {W : Nat → Prop}
    (h : f.Primed layout mem s) (hf : f.Layout shape used) (hdiffers : Contents.DiffersIn W s t)
    (hsetup : ∀ i < f.indices.toNat, ¬ W i)
    (htop : ∀ i, f.top.scalars.toNat ≤ i → i < f.transferAddrs.toNat → ¬ W i) :
    f.Primed layout mem t :=
  ⟨h.ready.of_differs hf hdiffers hsetup, h.top.of_differs hf hdiffers htop,
    hdiffers.mem.trans h.mem_eq⟩

/-- In a primed frame the node value of a lane is the node that the lane stands at. -/
theorem Frame.Primed.node_eq {f : Frame} {layout : Image.Layout} {mem : Array Word} {s : Contents}
    (h : f.Primed layout mem s) (hw : Image.InBounds layout mem) {m : RoundLoop.Member} {l : Nat}
    (hl : l < laneCount) {index : Word} (hindex : s.lane l (f.indexBlock m.chunk) = index)
    (hlevel : Image.OnLevel m.depth index) (hlt : index.toNat < layout.nodeCount) :
    m.node f s l = some (mem.getD (layout.nodesAt + index.toNat) 0) := by
  have hnodes := hw.nodes
  exact RoundLoop.Member.node_eq h.ready hw.header h.top h.mem_eq hl hindex hlevel (by omega)
    hw.size_le

namespace RoundLoop

/-- Constants and top nodes are in place, and every chunk has gone as many rounds as `done` says. -/
structure Walked (f : Frame) (layout : Image.Layout) (mem : Array Word) (done : Nat → Nat)
    (s : Contents) : Prop where
  ready : f.Ready mem s
  top : f.top.Loaded (fun i => mem.getD (layout.nodesAt + i) 0) s
  mem_eq : s.mem = mem
  lanes : ∀ chunk < f.chunks, ∀ l < laneCount,
    (s.lane l (f.indexBlock chunk), s.lane l (f.valueBlock chunk)) =
      Image.laneAfter layout mem (chunk * laneCount + l) (done chunk)

theorem Walked.primed {f : Frame} {layout : Image.Layout} {mem : Array Word} {done : Nat → Nat}
    {s : Contents} (h : Walked f layout mem done s) : f.Primed layout mem s :=
  ⟨h.ready, h.top, h.mem_eq⟩

/-- How many of the first `n` passes are about a chunk, if `chunks` chunks take turns. -/
def roundsBefore (chunks n chunk : Nat) : Nat := (n + (chunks - 1 - chunk)) / chunks

theorem roundsBefore_zero {chunks chunk : Nat} (hchunk : chunk < chunks) :
    roundsBefore chunks 0 chunk = 0 := Nat.div_eq_of_lt (by omega)

theorem roundsBefore_mul {chunks chunk : Nat} (hchunk : chunk < chunks) (rounds : Nat) :
    roundsBefore chunks (rounds * chunks) chunk = rounds := by
  rw [roundsBefore, Nat.mul_comm, Nat.mul_add_div (by omega), Nat.div_eq_of_lt (by omega),
    Nat.add_zero]

theorem roundsBefore_mod {chunks : Nat} (hchunks : 0 < chunks) (n : Nat) :
    roundsBefore chunks n (n % chunks) = n / chunks := by
  have hmod := Nat.mod_lt n hchunks
  have hdiv := Nat.div_add_mod n chunks
  have hsum : n + (chunks - 1 - n % chunks) = chunks * (n / chunks) + (chunks - 1) := by omega
  rw [roundsBefore, hsum, Nat.mul_add_div hchunks,
    Nat.div_eq_of_lt (show chunks - 1 < chunks by omega), Nat.add_zero]

theorem roundsBefore_succ {chunks chunk : Nat} (hchunk : chunk < chunks) (n : Nat) :
    roundsBefore chunks (n + 1) chunk =
      Function.update (roundsBefore chunks n) (n % chunks) (n / chunks + 1) chunk := by
  have hpos : 0 < chunks := by omega
  have hmod := Nat.mod_lt n hpos
  have hdiv := Nat.div_add_mod n chunks
  by_cases heq : chunk = n % chunks
  · subst heq
    have hsum : n + 1 + (chunks - 1 - n % chunks) = chunks * (n / chunks + 1) := by
      rw [Nat.mul_add, Nat.mul_one]
      omega
    rw [Function.update_self, roundsBefore, hsum, Nat.mul_div_cancel_left _ hpos]
  · -- both sums are behind the same full turns
    have hturns {k r : Nat} (hr : r < chunks) : (chunks * k + r) / chunks = k := by
      rw [Nat.mul_add_div hpos, Nat.div_eq_of_lt hr, Nat.add_zero]
    rw [Function.update_of_ne heq, roundsBefore, roundsBefore]
    rcases Nat.lt_or_gt_of_ne heq with hlt | hgt
    · have hk : chunks * (n / chunks + 1) = chunks * (n / chunks) + chunks := Nat.mul_succ _ _
      rw [show n + 1 + (chunks - 1 - chunk) =
          chunks * (n / chunks + 1) + (n % chunks - chunk) by omega,
        show n + (chunks - 1 - chunk) =
          chunks * (n / chunks + 1) + (n % chunks - chunk - 1) by omega,
        hturns (by omega), hturns (by omega)]
    · rw [show n + 1 + (chunks - 1 - chunk) =
          chunks * (n / chunks) + (chunks + n % chunks - chunk) by omega,
        show n + (chunks - 1 - chunk) =
          chunks * (n / chunks) + (chunks - 1 + n % chunks - chunk) by omega,
        hturns (by omega), hturns (by omega)]

theorem Walked.of_differs {f : Frame} {shape : FrameShape} {used : Nat} {s t : Contents}
    {layout : Image.Layout} {mem : Array Word} {done : Nat → Nat} {W : Nat → Prop}
    (h : Walked f layout mem done s) (hf : f.Layout shape used)
    (hdiffers : Contents.DiffersIn W s t) (hW : ∀ i < f.transferAddrs.toNat, ¬ W i) :
    Walked f layout mem done t := by
  obtain ⟨hle, -⟩ := hf.indices_le
  obtain ⟨hready, htop, hmem⟩ :=
    h.primed.of_differs hf hdiffers (fun i hi => hW i (by omega)) fun i _ hi => hW i hi
  refine ⟨hready, htop, hmem, fun chunk hchunk l hl => ?_⟩
  obtain ⟨hindex, hlane⟩ := hf.toNat_indexBlock (hf.chunks ▸ hchunk)
  have hvalue := hf.toNat_valueBlock (hf.chunks ▸ hchunk)
  rw [hdiffers.lane (hW _ (by omega)), hdiffers.lane (hW _ (by omega))]
  exact h.lanes chunk hchunk l hl

section Passes

variable {f : Frame} {shape : FrameShape} {used set : Nat} {m : Member} {s : Contents}
  {layout : Image.Layout} {mem : Array Word} {done : Nat → Nat}

theorem Walked.congr {done' : Nat → Nat} (h : Walked f layout mem done s)
    (hdone : ∀ chunk < f.chunks, done chunk = done' chunk) : Walked f layout mem done' s :=
  ⟨h.ready, h.top, h.mem_eq,
    fun chunk hchunk l hl => hdone chunk hchunk ▸ h.lanes chunk hchunk l hl⟩

theorem Member.not_own_of_ne (hf : f.Layout shape used) (hm : m.InFrame f shape set) {chunk : Nat}
    (hchunk : chunk < shape.chunks) (hne : chunk ≠ m.chunk) {l : Nat} (hl : l < laneCount) :
    ¬ m.Own f ((f.indexBlock chunk).toNat + l) ∧ ¬ m.Own f ((f.valueBlock chunk).toNat + l) := by
  obtain ⟨hindex, hbatch⟩ := hf.toNat_indexBlock hchunk
  have hvalue := hf.toNat_valueBlock hchunk
  obtain ⟨hindex', hbatch'⟩ := hf.toNat_indexBlock hm.chunk_lt
  have hvalue' := hf.toNat_valueBlock hm.chunk_lt
  have hnodes := (Member.workSet_at hf hm).1.nodes
  simp only [laneCount] at *
  unfold Member.Own
  simp only [laneCount]
  omega

/-- A pass takes its chunk one round on. -/
theorem Walked.pass (h : Walked f layout mem done s) (hw : Image.Walkable layout mem)
    (hf : f.Layout shape used) (hbatch : layout.batch = shape.batch) (hm : m.InFrame f shape set)
    (hdepth : m.depth = done m.chunk % (layout.height + 1)) (hs : used ≤ s.scratch.size) :
    ∃ t, execute (passOps f m) s = some t ∧ Contents.DiffersIn (m.Own f) s t ∧
      Walked f layout mem (Function.update done m.chunk (done m.chunk + 1)) t := by
  have hlane_lt {chunk : Nat} (hchunk : chunk < shape.chunks) {l : Nat} (hl : l < laneCount) :
      chunk * laneCount + l < layout.batch := by
    have := (hf.toNat_indexBlock hchunk).2
    omega
  have hstart {l : Nat} (hl : l < laneCount) :=
    h.lanes m.chunk (hf.chunks.symm ▸ hm.chunk_lt) l hl
  have hnode : ∀ l < laneCount, m.node f s l = some (mem.getD (layout.nodesAt +
      (Image.laneAfter layout mem (m.chunk * laneCount + l) (done m.chunk)).1.toNat) 0) := by
    intro l hl
    have hlevel := hw.onLevel_laneAfter (hlane_lt hm.chunk_lt hl) (done m.chunk)
    have hlt := hw.laneAfter_lt_nodeCount (hlane_lt hm.chunk_lt hl) (done m.chunk)
    exact h.primed.node_eq hw.inBounds hl (congrArg Prod.fst (hstart hl)) (hdepth ▸ hlevel) hlt
  obtain ⟨hnone, hsome⟩ := execute_passOps hf hm hs
  cases ht : execute (passOps f m) s with
  | none =>
    obtain ⟨l, hl, hfault⟩ := hnone.mp ht
    rw [hnode l hl] at hfault
    cases hfault
  | some t =>
    obtain ⟨hdiffers, hlanes⟩ := hsome t ht
    obtain ⟨hready, htop, hmem⟩ := h.primed.of_differs hf hdiffers
      (fun i hi ho => absurd (Member.own_bounds hf hm ho).1 (Nat.not_le.mpr hi))
      fun i hi _ ho => absurd (Member.own_bounds hf hm ho).2 (Nat.not_lt.mpr hi)
    refine ⟨t, rfl, hdiffers, hready, htop, hmem, fun chunk hchunk l hl => ?_⟩
    by_cases heq : chunk = m.chunk
    · subst heq
      obtain ⟨node, hnode', hvalue, hindex⟩ := hlanes l hl
      rw [hnode l hl] at hnode'
      have hstep := h.ready.next_eq_step hl hw.header node (s.lane l (f.indexBlock m.chunk))
        (s.lane l (f.valueBlock m.chunk))
      rw [← hvalue, ← hindex] at hstep
      rw [hstep, Function.update_self, Image.laneAfter, ← hstart hl, ← Option.some.inj hnode',
        ← hstart hl]
    · obtain ⟨hindex, hvalue⟩ :=
        Member.not_own_of_ne hf hm (hf.chunks ▸ hchunk) heq hl
      rw [hdiffers.lane hindex, hdiffers.lane hvalue, Function.update_of_ne heq]
      exact h.lanes chunk hchunk l hl

variable {p : Pipeline} {space : Iterations}

theorem Walked.passes (h : Walked f layout mem (fun _ => 0) s) (hw : Image.Walkable layout mem)
    (hf : f.Layout shape used) (hbatch : layout.batch = shape.batch)
    (hp : p.Suits shape.chunks shape.workSets) (hchunks : space.chunks = shape.chunks)
    (hheight : space.height = layout.height) (hs : used ≤ s.scratch.size) {n : Nat}
    (hn : n ≤ space.total) :
    ∃ t, execute (((List.range n).map (passMember f p space)).flatMap (passOps f)) s = some t ∧
      t.scratch.size = s.scratch.size ∧ Walked f layout mem (roundsBefore shape.chunks n) t := by
  induction n with
  | zero =>
    exact ⟨s, rfl, rfl, h.congr fun chunk hchunk => (roundsBefore_zero (hf.chunks ▸ hchunk)).symm⟩
  | succ n ih =>
    obtain ⟨t, ht, hsize, hwalked⟩ := ih (by omega)
    have hpos : 0 < shape.chunks := chunks_pos hchunks (i := n) (by omega)
    have hm : (passMember f p space n).InFrame f shape (passSet p n) :=
      inFrame_passMember hp hchunks (by omega)
    have hchunk : (passMember f p space n).chunk = n % shape.chunks := by
      rw [passMember, Iterations.chunk, hchunks]
    have hrounds := roundsBefore_mod hpos n
    obtain ⟨u, hu, hdiffers, hnext⟩ := hwalked.pass hw hf hbatch hm (by
      rw [hchunk, hrounds, passMember, Iterations.depth, hchunks, hheight]) (hsize.symm ▸ hs)
    refine ⟨u, ?_, hdiffers.size.trans hsize, hnext.congr fun chunk hc => ?_⟩
    · rw [List.range_succ, List.map_append, List.flatMap_append, execute_append, ht,
        Option.bind_some, List.map_singleton, List.flatMap_singleton]
      exact hu
    · rw [hchunk, hrounds, roundsBefore_succ (hf.chunks ▸ hc)]

/-- The round loop takes every lane through all rounds, whatever its shape. -/
theorem Walked.ops (h : Walked f layout mem (fun _ => 0) s) (hw : Image.Walkable layout mem)
    (hf : f.Layout shape used) (hbatch : layout.batch = shape.batch)
    (hp : p.Suits shape.chunks shape.workSets) (hchunks : space.chunks = shape.chunks)
    (hheight : space.height = layout.height) (hs : used ≤ s.scratch.size)
    (htotal : space.rounds * space.chunks < Size.limit) :
    ∃ t, execute (ops f p space) s = some t ∧ t.scratch.size = s.scratch.size ∧
      Walked f layout mem (fun _ => space.rounds) t := by
  obtain ⟨t, ht, hsize, hwalked⟩ :=
    h.passes hw hf hbatch hp hchunks hheight hs (Nat.le_refl space.total)
  refine ⟨t, (sameRun_ops hf hp hchunks s).trans ht, hsize, hwalked.congr fun chunk hc => ?_⟩
  rw [Iterations.total, Size.wrap_of_lt htotal, hchunks, roundsBefore_mul (hf.chunks ▸ hc)]

end Passes

end RoundLoop

end TreeWalk
