import TreeWalk.Proofs.KernelRun

/-!
# Software pipelining refines the plain loop

The work set of a pass does not show in what the pass makes of the batch. Since every shape of the
round loop runs the same as its passes in order, all shapes leave the same batch and the same
memory, or fault together.
-/

namespace TreeWalk

namespace Contents

theorem getElem?_eq_some_lane {s : Contents} {a : Addr} {n l : Nat} (h : s.Holds a n)
    (hl : l < n) : s.scratch[a.toNat + l]? = some (s.lane l a) := by
  have hlt : a.toNat + l < s.scratch.size := by have := h.1; omega
  simp [lane, hlt]

end Contents

namespace RoundLoop

section Similar

variable {f : Frame} {shape : FrameShape} {used set set' : Nat} {m n : Member} {s t : Contents}

theorem Member.own_workArea (hf : f.Layout shape used) (hm : m.InFrame f shape set) {i : Nat}
    (hi : m.Own f i) : WorkArea f shape i ∨
      (∃ l < laneCount, i = (f.indexBlock m.chunk).toNat + l) ∨
      ∃ l < laneCount, i = (f.valueBlock m.chunk).toNat + l := by
  have hbounds := Member.own_bounds hf hm hi
  have hnodes := (Member.workSet_at hf hm).1.nodes
  rcases hi with hi | hi | hi
  · exact .inl ⟨by omega, hbounds.2⟩
  · exact .inr (.inl ⟨i - (f.indexBlock m.chunk).toNat, by omega, by omega⟩)
  · exact .inr (.inr ⟨i - (f.valueBlock m.chunk).toNat, by omega, by omega⟩)

/-- Contents that differ in the work area at most show the same node values. -/
theorem node_congr (hf : f.Layout shape used) (hm : m.InFrame f shape set)
    (hchunk : m.chunk = n.chunk) (hdepth : m.depth = n.depth)
    (h : Contents.DiffersIn (WorkArea f shape) s t) {l : Nat} (hl : l < laneCount) :
    n.node f t l = m.node f s l := by
  have hlane {a : Addr} (ha : a ∈ [f.indexBlock m.chunk, f.valueBlock m.chunk] ++ f.sharedBlocks) :
      t.lane l a = s.lane l a := h.lane (Member.not_workArea hf hm ha hl)
  have hshared {a : Addr} (ha : a ∈ f.sharedBlocks) : t.lane l a = s.lane l a :=
    hlane (List.mem_append_right _ ha)
  have hroot : t.word (f.top.node 0) = s.word (f.top.node 0) := h.lane (by
    rw [TopNodes.node, Addr.offset_zero, WorkArea]
    omega)
  have hnodesAt : t.word f.header.nodesAt = s.word f.header.nodesAt := h.lane (by
    have : f.header.nodesAt.toNat < f.indices.toNat := hf.header _ (by simp [HeaderRegs.words])
    rw [WorkArea]
    omega)
  have hindex : t.lane l (f.indexBlock m.chunk) = s.lane l (f.indexBlock m.chunk) := hlane (by simp)
  have hone : t.lane l f.one = s.lane l f.one :=
    hshared (by simp [Frame.sharedBlocks, Frame.constantBlocks])
  have hthree : t.lane l f.three = s.lane l f.three :=
    hshared (by simp [Frame.sharedBlocks, Frame.constantBlocks])
  simp only [Member.node, ← hchunk, ← hdepth, hroot, hnodesAt, hindex, h.mem]
  unfold Frame.nodeOnLane
  split
  · rfl
  · rename_i n1 n2 _ hlevel
    have hn1 : t.lane l n1 = s.lane l n1 :=
      hshared (by simp [Frame.sharedBlocks, TopNodes.blocks, hlevel])
    have hn2 : t.lane l n2 = s.lane l n2 :=
      hshared (by simp [Frame.sharedBlocks, TopNodes.blocks, hlevel])
    simp only [hone, hn1, hn2]
  · rename_i n0 n1 n2 n3 _ hlevel
    have hfour {a : Addr} (ha : a ∈ [n0, n1, n2, n3]) : t.lane l a = s.lane l a := by
      refine hshared (List.mem_append_right _ (List.mem_append_right _ ?_))
      simpa [hlevel] using ha
    simp only [hone, hthree, hfour (a := n0) (by simp), hfour (a := n1) (by simp),
      hfour (a := n2) (by simp), hfour (a := n3) (by simp)]
  · rfl

/-- Two passes over one chunk that leave the same batch there leave the same scratch, up to the
work area. -/
theorem Member.differsIn_workArea (hf : f.Layout shape used) (hm : m.InFrame f shape set)
    (hn : n.InFrame f shape set') (hchunk : m.chunk = n.chunk) (hs : used ≤ s.scratch.size)
    (h : Contents.DiffersIn (WorkArea f shape) s t) {s' t' : Contents}
    (hdiffers : Contents.DiffersIn (m.Own f) s s') (hdiffers' : Contents.DiffersIn (n.Own f) t t')
    (hlanes : ∀ l < laneCount,
      t'.lane l (f.valueBlock m.chunk) = s'.lane l (f.valueBlock m.chunk) ∧
        t'.lane l (f.indexBlock m.chunk) = s'.lane l (f.indexBlock m.chunk)) :
    Contents.DiffersIn (WorkArea f shape) s' t' := by
  have hholds := Member.holds hf hm hs
  have hblock {a : Addr} (ha : a ∈ m.ownBlocks f) {l : Nat} (hl : l < laneCount)
      (heq : t'.lane l a = s'.lane l a) :
      t'.scratch[a.toNat + l]? = s'.scratch[a.toNat + l]? := by
    have hs_holds := hdiffers.holds.mpr (hholds a (List.mem_append_left _ ha))
    have ht_holds := hdiffers'.holds.mpr (h.holds.mpr (hholds a (List.mem_append_left _ ha)))
    rw [Contents.getElem?_eq_some_lane hs_holds hl, Contents.getElem?_eq_some_lane ht_holds hl,
      heq]
  refine ⟨by rw [hdiffers'.id, h.id, hdiffers.id], by rw [hdiffers'.mem, h.mem, hdiffers.mem],
    by rw [hdiffers'.trace, h.trace, hdiffers.trace],
    by rw [hdiffers'.size, h.size, hdiffers.size], fun i hi => ?_⟩
  by_cases hown : m.Own f i ∨ n.Own f i
  · have hword : (∃ l < laneCount, i = (f.indexBlock m.chunk).toNat + l) ∨
        ∃ l < laneCount, i = (f.valueBlock m.chunk).toNat + l := by
      rcases hown with hown | hown
      · exact (Member.own_workArea hf hm hown).resolve_left hi
      · have := (Member.own_workArea hf hn hown).resolve_left hi
        rwa [← hchunk] at this
    rcases hword with ⟨l, hl, rfl⟩ | ⟨l, hl, rfl⟩
    · exact hblock (by simp [Member.ownBlocks]) hl (hlanes l hl).2
    · exact hblock (by simp [Member.ownBlocks]) hl (hlanes l hl).1
  · rw [hdiffers'.word i fun ho => hown (.inr ho), hdiffers.word i fun ho => hown (.inl ho),
      h.word i hi]

/-- The same pass in another work set does the same, up to the work area. -/
theorem execute_passOps_congr (hf : f.Layout shape used) (hm : m.InFrame f shape set)
    (hn : n.InFrame f shape set') (hchunk : m.chunk = n.chunk) (hdepth : m.depth = n.depth)
    (hs : used ≤ s.scratch.size) (h : Contents.DiffersIn (WorkArea f shape) s t) :
    (execute (passOps f m) s = none ↔ execute (passOps f n) t = none) ∧
    ∀ s' t', execute (passOps f m) s = some s' → execute (passOps f n) t = some t' →
      Contents.DiffersIn (WorkArea f shape) s' t' := by
  obtain ⟨hnone, hsome⟩ := execute_passOps hf hm hs
  obtain ⟨hnone', hsome'⟩ := execute_passOps hf hn (h.size.symm ▸ hs)
  have hnode {l : Nat} (hl : l < laneCount) := node_congr hf hm hchunk hdepth h hl
  constructor
  · rw [hnone, hnone']
    exact exists_congr fun l => and_congr_right fun hl => by rw [hnode hl]
  · intro s' t' hs' ht'
    obtain ⟨hdiffers, hlane⟩ := hsome s' hs'
    obtain ⟨hdiffers', hlane'⟩ := hsome' t' ht'
    rw [← hchunk] at hlane'
    refine Member.differsIn_workArea hf hm hn hchunk hs h hdiffers hdiffers' fun l hl => ?_
    have hstart {a : Addr}
        (ha : a ∈ [f.indexBlock m.chunk, f.valueBlock m.chunk] ++ f.sharedBlocks) :
        t.lane l a = s.lane l a := h.lane (Member.not_workArea hf hm ha hl)
    have hconst : ∀ a ∈ f.constantBlocks, t.lane l a = s.lane l a :=
      fun a ha => hstart (List.mem_append_right _ (List.mem_append_left _ ha))
    obtain ⟨node, hnode_m, hvalue, hindex⟩ := hlane l hl
    obtain ⟨node', hnode_n, hvalue', hindex'⟩ := hlane' l hl
    rw [hnode hl, hnode_m] at hnode_n
    obtain rfl := Option.some.inj hnode_n
    have hv : t'.lane l (f.valueBlock m.chunk) = s'.lane l (f.valueBlock m.chunk) := by
      rw [hvalue', hvalue, hstart (by simp), nextValue_congr hconst]
    refine ⟨hv, ?_⟩
    rw [hindex', hindex, hv, hstart (by simp), nextIndex_congr hconst]

theorem execute_flatMap_passOps_congr (hf : f.Layout shape used) {α : Type} {passes : List α}
    {left right : α → Member} {leftSet rightSet : α → Nat}
    (hleft : ∀ i ∈ passes, (left i).InFrame f shape (leftSet i))
    (hright : ∀ i ∈ passes, (right i).InFrame f shape (rightSet i))
    (hsame : ∀ i ∈ passes, (left i).chunk = (right i).chunk ∧ (left i).depth = (right i).depth)
    (hs : used ≤ s.scratch.size) (h : Contents.DiffersIn (WorkArea f shape) s t) :
    (execute ((passes.map left).flatMap (passOps f)) s = none ↔
      execute ((passes.map right).flatMap (passOps f)) t = none) ∧
    ∀ s' t', execute ((passes.map left).flatMap (passOps f)) s = some s' →
      execute ((passes.map right).flatMap (passOps f)) t = some t' →
      Contents.DiffersIn (WorkArea f shape) s' t' := by
  induction passes generalizing s t with
  | nil =>
    refine ⟨by simp [execute], fun s' t' hs' ht' => ?_⟩
    cases hs'
    cases ht'
    exact h
  | cons i rest ih =>
    obtain ⟨hnone, hsome⟩ := execute_passOps_congr hf (hleft i List.mem_cons_self)
      (hright i List.mem_cons_self) (hsame i List.mem_cons_self).1
      (hsame i List.mem_cons_self).2 hs h
    simp only [List.map_cons, List.flatMap_cons, execute_append]
    cases hs₁ : execute (passOps f (left i)) s with
    | none => simp [hnone.mp hs₁]
    | some s₁ =>
      cases ht₁ : execute (passOps f (right i)) t with
      | none => simp [hnone.mpr ht₁] at hs₁
      | some t₁ =>
        have hsize := ((execute_passOps hf (hleft i List.mem_cons_self) hs).2 s₁ hs₁).1.size
        exact ih (fun j hj => hleft j (List.mem_cons_of_mem i hj))
          (fun j hj => hright j (List.mem_cons_of_mem i hj))
          (fun j hj => hsame j (List.mem_cons_of_mem i hj)) (hsize.symm ▸ hs)
          (hsome s₁ t₁ hs₁ ht₁)

end Similar

theorem suits_plain {p : Pipeline} {chunks sets : Nat} (h : p.Suits chunks sets) :
    (⟨1, 0⟩ : Pipeline).Suits chunks sets := by
  have hcount : (⟨1, 0⟩ : Pipeline).bufferCount = 1 := Size.wrap_of_lt (by simp [Size.limit])
  have hpos := h.groupWidth_pos
  have hsets := h.sets
  refine ⟨?_, by simp [Size.limit], ?_⟩
  · simp only [Pipeline.fits, hcount]
    simp
    omega
  · rw [hcount]
    rcases h.bufferCount_cases with ⟨-, heq⟩ | ⟨-, heq⟩ <;> omega

/-- Software pipelining refines the plain loop: a round loop of any shape faults exactly where the
one that works on one chunk after the other faults, and where they do not they leave the same
memory, indices and values. -/
theorem ops_refines_plain {capacity : Nat} (hcapacity : capacity < 2 ^ 32) {start d : Draft}
    (hstart : start.Built capacity) {shape : FrameShape} {f : Frame}
    (hframe : Draft.perform (Frame.reserve shape) start = (.ok f, d)) {p : Pipeline}
    (hfits : p.fits f.chunks = true) (hsize : p.groupWidth * (1 + p.prefetchGroups) < Size.limit)
    (hsets : p.bufferCount ≤ shape.workSets) {space : Iterations}
    (hchunks : space.chunks = f.chunks) {s : Contents} (hs : d.used ≤ s.scratch.size) :
    (execute (ops f p space) s = none ↔ execute (ops f ⟨1, 0⟩ space) s = none) ∧
    ∀ t u, execute (ops f p space) s = some t → execute (ops f ⟨1, 0⟩ space) s = some u →
      t.mem = u.mem ∧ ∀ i < shape.batch,
        t.scratch[f.indices.toNat + i]? = u.scratch[f.indices.toNat + i]? ∧
        t.scratch[f.values.toNat + i]? = u.scratch[f.values.toNat + i]? := by
  have hkept : Draft.Kept False HeaderRegs.wordCount start :=
    ⟨hstart.bounded hcapacity, False.elim⟩
  obtain ⟨-, -, hf, -⟩ := Frame.reserve_spec hkept hframe
  have hp : p.Suits shape.chunks shape.workSets := ⟨hf.chunks ▸ hfits, hsize, hsets⟩
  have hplain := suits_plain hp
  have hspace : space.chunks = shape.chunks := hchunks.trans hf.chunks
  rw [sameRun_ops hf hp hspace s, sameRun_ops hf hplain hspace s]
  obtain ⟨hnone, hsome⟩ := execute_flatMap_passOps_congr hf
    (fun i hi => inFrame_passMember hp hspace (List.mem_range.mp hi))
    (fun i hi => inFrame_passMember hplain hspace (List.mem_range.mp hi))
    (fun i _ => ⟨rfl, rfl⟩) hs (Contents.DiffersIn.refl _ s)
  refine ⟨hnone, fun t u ht hu => ?_⟩
  have hdiffers := hsome t u ht hu
  have hvalues := hf.values
  refine ⟨hdiffers.mem.symm, fun i hi => ⟨(hdiffers.word _ ?_).symm, (hdiffers.word _ ?_).symm⟩⟩
  · unfold WorkArea
    omega
  · unfold WorkArea
    omega

/-- Two chunks through five rounds down a tree of height three, fetched one ahead and not. The lanes
of the fourth round stand at leaves, which are loaded from the image. -/
theorem ops_refines_plain_two_chunks :
    let tree : Tree := ⟨3, #[3, 5, 8, 13, 21, 34, 55, 89, 144, 233, 377, 610, 987, 1597, 2584]⟩
    let b : Batch := ⟨List.replicate 16 0, (List.range 16).map UInt32.ofNat, 5⟩
    let mem := Image.encode tree b
    let shape : FrameShape := ⟨3, 16, 2⟩
    let space : Iterations := ⟨2, 5, 3⟩
    let walked : List (Word × Word) := [(1, 3541364454), (2, 2691142899), (1, 3613455450),
      (1, 3048523986), (2, 135725451), (1, 3717225946), (1, 819225124), (2, 3682407399),
      (1, 772866298), (1, 3285202704), (1, 4027039270), (1, 1389831056), (2, 1782578411),
      (1, 1827941174), (2, 1356671507), (2, 137318079)]
    ∃ f d s t u, Draft.perform (Frame.reserve shape) (.ofCapacity 400) = (.ok f, d) ∧
      execute (d.pending.toList ++ (NodeValues.preloadOps f ++ BatchTransfer.loadOps f))
        ⟨0, Array.replicate 400 0, mem, #[]⟩ = some s ∧
      execute (ops f ⟨1, 1⟩ space) s = some t ∧ execute (ops f ⟨1, 0⟩ space) s = some u ∧
      (t.mem = u.mem ∧ ∀ i < 16,
        t.scratch[f.indices.toNat + i]? = u.scratch[f.indices.toNat + i]? ∧
        t.scratch[f.values.toNat + i]? = u.scratch[f.values.toNat + i]?) ∧
      ∀ chunk < 2, ∀ l < laneCount, some (t.lane l (f.indexBlock chunk),
        t.lane l (f.valueBlock chunk)) = walked[chunk * laneCount + l]? := by
  intro tree b mem shape space walked
  obtain ⟨f, d, hframe, -⟩ :
      ∃ f d, Draft.Gives (Frame.reserve shape) (.ofCapacity 400) f d ∧ True :=
    Draft.exists_gives (by decide +kernel)
  obtain ⟨hlaid, hused⟩ := Frame.laidOut_of_reserve (by decide) hframe
  have hshape : shape.chunks = 2 := by decide
  have hchunks : f.chunks = 2 := hlaid.layout.chunks.trans hshape
  have hsuits : (⟨1, 1⟩ : Pipeline).Suits shape.chunks shape.workSets := by
    refine ⟨?_, ?_, ?_⟩ <;> decide
  have hw : Image.Walkable (Image.layoutFor tree b) mem :=
    (ImageWalk.walkable_encode rfl rfl (by decide) (by decide) (by decide +kernel)).2
  -- the contents that the loop starts from
  have hsize : d.used ≤ (Array.replicate 400 (0 : Word)).size := by simpa using hused
  obtain ⟨s₀, hs₀, hdiffers, hready⟩ := Kernel.execute_setup
    (s := ⟨0, Array.replicate 400 0, mem, #[]⟩) hlaid.tracked hlaid.setBy hsize
    (Nat.le_trans (by decide) hw.header_le)
  obtain ⟨s, hs, hsize', hwalked⟩ := Kernel.execute_loads hlaid.layout hlaid.setBy hready
    hdiffers.mem hw.inBounds rfl (Nat.le_refl 16) (hdiffers.size.symm ▸ hsize)
  -- both loops run through
  have hspace : space.chunks = shape.chunks := hshape.symm
  obtain ⟨t, ht, -, hlanes⟩ :=
    hwalked.ops hw hlaid.layout rfl hsuits hspace rfl hsize' (by decide)
  obtain ⟨u, hu, -⟩ :=
    hwalked.ops hw hlaid.layout rfl (suits_plain hsuits) hspace rfl hsize' (by decide)
  obtain ⟨-, hrefines⟩ := ops_refines_plain (by decide) .fresh hframe (p := ⟨1, 1⟩)
    (by rw [hchunks]; decide) (by decide) (by decide) (hspace.trans hlaid.layout.chunks.symm) hsize'
  have hwords : ∀ chunk < 2, ∀ l < laneCount, some (Image.laneAfter (Image.layoutFor tree b) mem
      (chunk * laneCount + l) 5) = walked[chunk * laneCount + l]? := by decide +kernel
  refine ⟨f, d, s, t, u, hframe, ?_, ht, hu, hrefines t u ht hu, fun chunk hchunk l hl => ?_⟩
  · rw [execute_append, hs₀, Option.bind_some, hs]
  · rw [hlanes.lanes chunk (hchunks.symm ▸ hchunk) l hl]
    exact hwords chunk hchunk l hl

end RoundLoop

end TreeWalk
