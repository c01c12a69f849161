import TreeWalk.Proofs.DefinedUse
import TreeWalk.Proofs.LoopOrder

/-!
# The round loop in order

A pass sets its node values, then mixes them into the batch and steps on. It never reads a word of
its work set that it has not set itself, so the loop is in order once the batch, the constants and
the top nodes are there. With prefetch the node values of a group are set one step ahead.
-/

namespace TreeWalk

/-- All words that passes read and do not set first are known. -/
structure Frame.Filled (f : Frame) (known : Addr → Prop) : Prop where
  nodesAt : known f.header.nodesAt
  root : known (f.top.node 0)
  shared : ∀ b ∈ f.sharedBlocks, ∀ a ∈ b.block, known a
  batch : ∀ chunk < f.chunks, ∀ b ∈ [f.indexBlock chunk, f.valueBlock chunk],
    ∀ a ∈ b.block, known a

theorem Frame.Filled.mono {f : Frame} {known known' : Addr → Prop} (h : f.Filled known)
    (hsub : ∀ a, known a → known' a) : f.Filled known' :=
  ⟨hsub _ h.nodesAt, hsub _ h.root, fun b hb a ha => hsub a (h.shared b hb a ha),
    fun chunk hchunk b hb a ha => hsub a (h.batch chunk hchunk b hb a ha)⟩

namespace RoundLoop

variable {f : Frame} {known : Addr → Prop} {m : Member}

def Member.filledBlocks (f : Frame) (m : Member) : List Addr :=
  [f.indexBlock m.chunk, f.valueBlock m.chunk] ++ f.sharedBlocks

theorem Member.filledBlocks_known (h : f.Filled known) (hm : m.chunk < f.chunks) :
    ∀ b ∈ m.filledBlocks f, ∀ a ∈ b.block, known a := by
  intro b hb
  rcases List.mem_append.mp hb with hb | hb
  · exact h.batch m.chunk hm b hb
  · exact h.shared b hb

/-! ## Node values -/

theorem usesDefined_gatherOps (h : f.Filled known) (hm : m.chunk < f.chunks) :
    UsesDefined known (NodeValues.gatherOps f m.workSet m.chunk) := by
  refine UsesDefined.append_iff.mpr ⟨.of_reads_known fun op hop a ha => ?_,
    .of_reads_known fun op hop a ha => ?_⟩
  · obtain ⟨lane, hlane, rfl⟩ := List.mem_map.mp hop
    have hlane := List.mem_range.mp hlane
    rcases List.mem_pair.mp ha with rfl | rfl
    · exact h.nodesAt
    · exact h.batch m.chunk hm _ (by simp) _ (Addr.mem_block.mpr ⟨lane, hlane, rfl⟩)
  · -- every lane's address is worked out before any node is loaded
    obtain ⟨lane, hlane, rfl⟩ := List.mem_map.mp hop
    rw [List.mem_singleton.mp ha]
    exact .inr (mem_written.mpr ⟨_, List.mem_map_of_mem hlane, List.mem_singleton.mpr rfl⟩)

theorem usesDefined_nodeValueOps (h : f.Filled known) (hm : m.chunk < f.chunks) :
    UsesDefined known (nodeValueOps f m) := by
  have hconstants : f.one ∈ m.filledBlocks f ∧ f.three ∈ m.filledBlocks f := by
    simp [Member.filledBlocks, Frame.sharedBlocks, Frame.constantBlocks]
  have hindex : f.indexBlock m.chunk ∈ m.filledBlocks f := by simp [Member.filledBlocks]
  have htop {b : Addr} (hb : b ∈ f.top.blocks) : b ∈ m.filledBlocks f := by
    simp [Member.filledBlocks, Frame.sharedBlocks, hb]
  rcases nodeValueOps_cases f m with ⟨-, hops⟩ | ⟨n1, n2, -, hlevel, hops⟩ |
    ⟨n0, n1, n2, n3, -, hlevel, hops⟩ | ⟨hops, -⟩
  · rw [hops, UsesDefined.singleton_iff]
    intro a ha
    rw [List.mem_singleton.mp ha]
    exact h.root
  · have hn1 := htop (b := n1) (by simp [TopNodes.blocks, hlevel])
    have hn2 := htop (b := n2) (by simp [TopNodes.blocks, hlevel])
    have hblocks : UsesBlocks (m.filledBlocks f) (nodeValueOps f m) := by
      rw [hops]
      simp [NodeValues.level1Ops, hindex, hconstants.1, hn1, hn2]
    exact hblocks.usesDefined (Member.filledBlocks_known h hm)
  · have hn0 := htop (b := n0) (by simp [TopNodes.blocks, hlevel])
    have hn1 := htop (b := n1) (by simp [TopNodes.blocks, hlevel])
    have hn2 := htop (b := n2) (by simp [TopNodes.blocks, hlevel])
    have hn3 := htop (b := n3) (by simp [TopNodes.blocks, hlevel])
    have hblocks : UsesBlocks (m.filledBlocks f) (nodeValueOps f m) := by
      rw [hops]
      simp [NodeValues.level2Ops, hindex, hconstants.1, hconstants.2, hn0, hn1, hn2, hn3]
    exact hblocks.usesDefined (Member.filledBlocks_known h hm)
  · rw [hops]
    exact usesDefined_gatherOps h hm

theorem mem_written_nodeValueOps (f : Frame) (m : Member) {a : Addr}
    (ha : a ∈ m.workSet.nodes.block) : a ∈ written (nodeValueOps f m) := by
  have hblock (op : Op) (hop : op ∈ nodeValueOps f m) (hw : op.writes = m.workSet.nodes.block) :
      a ∈ written (nodeValueOps f m) := mem_written.mpr ⟨op, hop, hw ▸ ha⟩
  rcases nodeValueOps_cases f m with ⟨-, hops⟩ | ⟨n1, n2, -, -, hops⟩ |
    ⟨n0, n1, n2, n3, -, -, hops⟩ | ⟨hops, -⟩
  · exact hblock (.broadcast m.workSet.nodes (f.top.node 0)) (by simp [hops]) rfl
  · exact hblock (.vector .mul m.workSet.nodes m.workSet.left n1)
      (by simp [hops, NodeValues.level1Ops]) rfl
  · exact hblock (.vector .sub m.workSet.nodes f.one m.workSet.right)
      (by simp [hops, NodeValues.level2Ops]) rfl
  · obtain ⟨lane, hlane, rfl⟩ := Addr.mem_block.mp ha
    rw [hops, NodeValues.gatherOps, written_append]
    exact List.mem_append_right _ (mem_written.mpr
      ⟨_, List.mem_map_of_mem (List.mem_range.mpr hlane), List.mem_singleton.mpr rfl⟩)

/-! ## The work -/

theorem usesDefined_workOps (h : f.Filled known) (hm : m.chunk < f.chunks)
    (hnodes : ∀ a ∈ m.workSet.nodes.block, known a) : UsesDefined known (workOps f m) := by
  have hknown : ∀ b ∈ m.workSet.nodes :: m.filledBlocks f, ∀ a ∈ b.block, known a :=
    List.forall_mem_cons.mpr ⟨hnodes, Member.filledBlocks_known h hm⟩
  have hconstants : f.one ∈ m.filledBlocks f ∧ f.two ∈ m.filledBlocks f ∧
      f.nodeCount ∈ m.filledBlocks f := by
    simp [Member.filledBlocks, Frame.sharedBlocks, Frame.constantBlocks]
  have hbatch : f.indexBlock m.chunk ∈ m.filledBlocks f ∧
      f.valueBlock m.chunk ∈ m.filledBlocks f := by
    simp [Member.filledBlocks]
  have hstage (low : Mix.Lowered) (hlow : low ∈ f.stages) :
      UsesBlocks (m.workSet.nodes :: m.filledBlocks f)
        (low.stageOps (f.valueBlock m.chunk) m.workSet.left m.workSet.right) := by
    have hlowered {b : Addr} (hb : b ∈ low.constants) : b ∈ m.filledBlocks f := by
      have hshared : b ∈ f.stages.flatMap Mix.Lowered.constants :=
        List.mem_flatMap.mpr ⟨low, hlow, hb⟩
      simp only [Member.filledBlocks, Frame.sharedBlocks, Frame.constantBlocks, List.mem_append,
        hshared, or_true, true_or]
    cases low with
    | fused multiplier addend =>
      have hfirst := hlowered (b := multiplier) (by simp [Mix.Lowered.constants])
      have hsecond := hlowered (b := addend) (by simp [Mix.Lowered.constants])
      simp [Mix.Lowered.stageOps, Mix.Lowered.parallelOps, Mix.Lowered.combineOps, hbatch.2, hfirst,
        hsecond]
    | split leftOp leftValue combine rightOp rightValue =>
      have hleft := hlowered (b := leftValue) (by simp [Mix.Lowered.constants])
      have hright := hlowered (b := rightValue) (by simp [Mix.Lowered.constants])
      simp [Mix.Lowered.stageOps, Mix.Lowered.parallelOps, Mix.Lowered.combineOps, hbatch.2, hleft,
        hright]
  have htake : UsesBlocks (m.workSet.nodes :: m.filledBlocks f) [takeNodeOp f m] := by
    simp [takeNodeOp, hbatch.2]
  have hupdate : UsesBlocks (m.workSet.nodes :: m.filledBlocks f)
      (IndexUpdate.ops f m.workSet m.chunk) := by
    simp [IndexUpdate.ops, hbatch.1, hbatch.2, hconstants.1, hconstants.2.1, hconstants.2.2]
  -- the parts need nothing of each other, as the value block is filled from the start
  have hstages := UsesDefined.flatMap fun low hlow => (hstage low hlow).usesDefined hknown
  exact (htake.usesDefined hknown).append
    (hstages.append (hupdate.usesDefined hknown) fun a => Or.inl) fun a => Or.inl

/-! ## The step -/

theorem usesDefined_fetchThread (h : f.Filled known) {next : List Member}
    (hnext : ∀ m ∈ next, m.chunk < f.chunks) : UsesDefined known (fetchThread f next) := by
  have hgathers : UsesDefined known
      ((dues f.stages.length).flatMap fun due => fetchOps f due next) := by
    simp only [fetchOps_eq]
    apply UsesDefined.exchange
    intro z hz
    rw [flatMap_fetchPiece, fetchedOps]
    split
    · trivial
    · exact usesDefined_gatherOps h (hnext z.1 (List.fst_mem_of_mem_zipIdx hz))
  refine hgathers.append (UsesDefined.flatMap fun m hm => ?_) fun a => Or.inl
  exact usesDefined_nodeValueOps h (hnext m (List.mem_filter.mp hm).1)

theorem mem_written_fetchThread {shape : FrameShape} {used : Nat} (hf : f.Layout shape used)
    {next : List Member} (hm : m ∈ next) {a : Addr} (ha : a ∈ m.workSet.nodes.block) :
    a ∈ written (fetchThread f next) := by
  obtain ⟨op, hop, ha⟩ := mem_written.mp (mem_written_nodeValueOps f m ha)
  have hnext : op ∈ next.flatMap (nodeValueOps f) := List.mem_flatMap.mpr ⟨m, hm, hop⟩
  exact mem_written.mpr ⟨op, (perm_fetchThread hf next).mem_iff.mpr hnext, ha⟩

/-- A step is in order once the node values of its own passes are there, and sets those of the next
passes. -/
theorem usesDefined_stepOps (h : f.Filled known) {current next : List Member}
    (hcurrent : ∀ m ∈ current, m.chunk < f.chunks ∧ ∀ a ∈ m.workSet.nodes.block, known a)
    (hnext : ∀ m ∈ next, m.chunk < f.chunks) : UsesDefined known (stepOps f current next) := by
  refine (woven_stepOps f current next).usesDefined ?_ (usesDefined_fetchThread h hnext)
  apply UsesDefined.exchange
  intro m hm
  obtain ⟨hchunk, hnodes⟩ := hcurrent m hm
  rw [flatMap_workPhases]
  exact usesDefined_workOps h hchunk hnodes

/-! ## The loop -/

section Loop

variable {shape : FrameShape} {used : Nat} {p : Pipeline} {space : Iterations}

theorem chunk_lt_of_mem_group (hf : f.Layout shape used)
    (hp : p.Suits shape.chunks shape.workSets) (hchunks : space.chunks = shape.chunks) {k : Nat}
    (hm : m ∈ group f p space k) : m.chunk < f.chunks := by
  rw [group_eq_map hp.groupWidth_pos] at hm
  obtain ⟨i, hi, rfl⟩ := List.mem_map.mp hm
  rw [hf.chunks]
  exact (inFrame_passMember hp hchunks (mem_groupPasses hp.groupWidth_pos hi).2).chunk_lt

/-- The round loop is in order once the batch, the constants and the top nodes are there. -/
theorem usesDefined_ops (hf : f.Layout shape used) (hp : p.Suits shape.chunks shape.workSets)
    (hchunks : space.chunks = shape.chunks) (h : f.Filled known) :
    UsesDefined known (ops f p space) := by
  have hgroup {k : Nat} {m : Member} (hm : m ∈ group f p space k) : m.chunk < f.chunks :=
    chunk_lt_of_mem_group hf hp hchunks hm
  have hvalues (k : Nat) : UsesDefined known ((group f p space k).flatMap (nodeValueOps f)) :=
    UsesDefined.flatMap fun m hm => usesDefined_nodeValueOps h (hgroup hm)
  have hset {k : Nat} {m : Member} (hm : m ∈ group f p space k) {a : Addr}
      (ha : a ∈ m.workSet.nodes.block) :
      a ∈ written ((group f p space k).flatMap (nodeValueOps f)) :=
    mem_written_flatMap hm (mem_written_nodeValueOps f m ha)
  -- a step may read what it finds filled and the node values of its own passes
  have hstep (k : Nat) {next : List Member} (hnext : ∀ m ∈ next, m.chunk < f.chunks)
      {filled : Addr → Prop} (hfilled : f.Filled filled)
      (hnodes : ∀ m ∈ group f p space k, ∀ a ∈ m.workSet.nodes.block, filled a) :
      UsesDefined filled (stepOps f (group f p space k) next) :=
    usesDefined_stepOps hfilled (fun m hm => ⟨hgroup hm, hnodes m hm⟩) hnext
  unfold ops
  split
  · let carried (k : Nat) (a : Addr) : Prop :=
      ∃ m ∈ group f p space k, a ∈ m.workSet.nodes.block
    refine UsesDefined.append_iff.mpr ⟨hvalues 0, ?_⟩
    apply UsesDefined.flatMap_range carried
    · intro k _
      exact hstep k (fun m hm => hgroup hm) (h.mono fun a ha => .inl (.inl ha))
        fun m hm a ha => .inr ⟨m, hm, ha⟩
    · rintro a ⟨m, hm, ha⟩
      exact .inr (hset hm ha)
    · rintro k _ a ⟨m, hm, ha⟩
      exact mem_written_of_sublist (woven_stepOps f _ _).sublist_right
        (mem_written_fetchThread hf hm ha)
  · refine UsesDefined.flatMap fun k _ => UsesDefined.append_iff.mpr ⟨hvalues k, ?_⟩
    exact hstep k (by simp) (h.mono fun a => Or.inl) fun m hm a ha => .inr (hset hm ha)

end Loop

end RoundLoop

end TreeWalk
