import TreeWalk.Proofs.EngineCounts

/-!
# Gathers in time

A work set is used by one pass at a time. Whatever the shape of the round loop, the operations that
fill a work set with gathered nodes and take the nodes from it follow each other as they do in the
passes one after the other: a pass gathers into its work set once, after the pass before it has
taken its nodes from there and before it takes its own.
-/

namespace TreeWalk

namespace RoundLoop

variable {f : Frame} {shape : FrameShape} {used : Nat} {p : Pipeline} {space : Iterations}

theorem filter_ops (hf : f.Layout shape used) (hp : p.Suits shape.chunks shape.workSets)
    (hchunks : space.chunks = shape.chunks) {c : Op → Bool} {set : Nat}
    (hother : ∀ i < space.total, passSet p i ≠ set →
      (passOps f (passMember f p space i)).filter c = []) :
    (ops f p space).filter c =
      (List.range space.total).flatMap fun i => (passOps f (passMember f p space i)).filter c := by
  rw [← List.filter_flatMap]
  apply relates_ops hf (Composes.filter c) hp.groupWidth_pos
  intro i j hi hj hnear x hx y hy
  have hsets := (hnear.apart hp hchunks hi hj).2
  -- one of the passes is in another work set, and its operation is left out
  have hleft : c x = false ∨ c y = false := by
    by_cases hset : passSet p i = set
    · have hnone := hother j hj fun hset' => hsets (hset.trans hset'.symm)
      exact .inr (by simpa using List.filter_eq_nil_iff.mp hnone y hy)
    · have hnone := hother i (Nat.lt_trans hi hj) hset
      exact .inl (by simpa using List.filter_eq_nil_iff.mp hnone x hx)
  rcases hleft with hc | hc <;> simp [List.filter_cons, hc]

/-! ## Gathers into a work set -/

/-- The operation works out a gather address of the work set, loads one of its nodes, or takes its
nodes into values. -/
def concerns (w : WorkSet) : Op → Bool
  | .alu op => w.gather.block.contains op.dest
  | .load op => op.writes.any w.nodes.block.contains
  | .valu (.binary .xor _ _ b) => b == w.nodes
  | _ => false

section WorkSets

variable {set set' : Nat} {m : Member}

theorem lane_mem_block_iff {a b : Addr} {start k lane : Nat}
    (ha : a.toNat = start + set' * WorkSet.length + k)
    (hb : b.toNat = start + set * WorkSet.length + k)
    (hafit : a.FitsBlock) (hbfit : b.FitsBlock) (hl : lane < laneCount) :
    a.offset lane ∈ b.block ↔ set' = set := by
  rw [hbfit.mem_iff, hafit.toNat_offset hl, ha, hb]
  simp only [WorkSet.length, laneCount] at hl ⊢
  constructor
  · intro h
    omega
  · rintro rfl
    omega

variable (hf : f.Layout shape used) (hm : m.InFrame f shape set') (hset : set < shape.workSets)

include hf hset in
theorem workSet_fits {w : WorkSet}
    (hw : w.At (f.indices.toNat + 2 * shape.batch + set * WorkSet.length)) :
    w.nodes.FitsBlock ∧ w.gather.FitsBlock := by
  have hlength : WorkSet.length = 5 * laneCount := rfl
  have hend := Frame.Layout.workSet_end_le hset
  have hle := hf.indices_le
  have hlt := hf.stop_lt
  have hnodes := hw.nodes
  have hgather := hw.gather
  unfold Addr.FitsBlock
  exact ⟨by omega, by omega⟩

include hf hm hset in
theorem concerns_takeNodeOp :
    concerns (f.workSet set) (takeNodeOp f m) = decide (set' = set) := by
  have hnodes := (hf.workSet_at hset).nodes
  have hnodes' := (Member.workSet_at hf hm).1.nodes
  have hiff : m.workSet.nodes = (f.workSet set).nodes ↔ set' = set := by
    constructor
    · intro heq
      rw [heq, hnodes] at hnodes'
      have hlength : WorkSet.length = 40 := rfl
      rw [hlength] at hnodes'
      omega
    · rintro rfl
      exact Addr.toNat_injective (hnodes'.trans hnodes.symm)
  rw [Bool.eq_iff_iff, decide_eq_true_iff, ← hiff]
  exact beq_iff_eq

include hf hm hset in
theorem concerns_of_mem_gatherOps {op : Op}
    (hop : op ∈ NodeValues.gatherOps f m.workSet m.chunk) :
    concerns (f.workSet set) op = decide (set' = set) := by
  have hw := hf.workSet_at hset
  have hw' := (Member.workSet_at hf hm).1
  obtain ⟨hnodes, hgather⟩ := workSet_fits hf hset hw
  obtain ⟨hnodes', hgather'⟩ := workSet_fits hf hm.set_lt hw'
  rw [Bool.eq_iff_iff, decide_eq_true_iff]
  rcases List.mem_append.mp hop with hop | hop
  · obtain ⟨lane, hlane, rfl⟩ := List.mem_map.mp hop
    rw [← lane_mem_block_iff hw'.gather hw.gather hgather' hgather (List.mem_range.mp hlane)]
    exact List.contains_iff_mem
  · obtain ⟨lane, hlane, rfl⟩ := List.mem_map.mp hop
    rw [← lane_mem_block_iff (k := 0) hw'.nodes hw.nodes hnodes' hnodes (List.mem_range.mp hlane)]
    simp [concerns, Op.loadWord, LoadOp.writes]

theorem filter_keptOps (hf : f.Layout shape used) (w : WorkSet) (m : Member) :
    (keptOps f m).filter (concerns w) = [] := by
  unfold keptOps
  split
  · rename_i hc
    rcases nodeValueOps_of_covers hf hc with ⟨-, hops⟩ | ⟨blocks, -, hops⟩ | ⟨blocks, -, hops⟩
    all_goals rw [hops]; rfl
  · rfl

include hf hm hset in
theorem filter_stageOps :
    (f.stages.flatMap (Mix.Lowered.stageOps (f.valueBlock m.chunk) m.workSet.left
      m.workSet.right)).filter (concerns (f.workSet set)) = [] := by
  have hnodes := (hf.workSet_at hset).nodes
  have hright := (Member.workSet_at hf hm).1.right
  have hcombined : m.workSet.right ≠ (f.workSet set).nodes := by
    intro heq
    rw [heq, hnodes] at hright
    simp only [WorkSet.length, laneCount] at hright
    omega
  have hconstant {a : Addr} (ha : a ∈ f.stages.flatMap Mix.Lowered.constants) :
      a ≠ (f.workSet set).nodes := by
    rintro rfl
    have hle := hf.constantBlocks _ (List.mem_append_right _ ha)
    simp only [laneCount] at hle
    omega
  rw [List.filter_flatMap, List.flatMap_eq_nil_iff]
  intro low hlow
  cases low with
  | fused multiplier addend => rfl
  | split left leftValue combine right rightValue =>
    have hleftValue : leftValue ≠ (f.workSet set).nodes :=
      hconstant (List.mem_flatMap.mpr ⟨_, hlow, List.mem_cons_self⟩)
    have hrightValue : rightValue ≠ (f.workSet set).nodes :=
      hconstant (List.mem_flatMap.mpr ⟨_, hlow, List.mem_cons_of_mem _ List.mem_cons_self⟩)
    have hother {code : Opcode} {dest a b : Addr} (hb : b ≠ (f.workSet set).nodes) :
        concerns (f.workSet set) (.vector code dest a b) = false := by
      cases code <;> simp [concerns, Op.vector, hb]
    simp [Mix.Lowered.stageOps, Mix.Lowered.parallelOps, Mix.Lowered.combineOps,
      hother hleftValue, hother hrightValue, hother hcombined]

include hf hm hset in
/-- A pass in the work set gathers into it, unless its level is kept in registers, and then takes
its nodes. Other passes do not concern the work set. -/
theorem filter_passOps :
    (passOps f m).filter (concerns (f.workSet set)) =
      if set' = set then fetchedOps f m ++ [takeNodeOp f m] else [] := by
  have hupdate : (IndexUpdate.ops f m.workSet m.chunk).filter (concerns (f.workSet set)) = [] := rfl
  have hall : ∀ op ∈ fetchedOps f m ++ [takeNodeOp f m],
      concerns (f.workSet set) op = decide (set' = set) := by
    intro op hop
    rcases List.mem_append.mp hop with hop | hop
    · unfold fetchedOps at hop
      split at hop
      · cases hop
      · exact concerns_of_mem_gatherOps hf hm hset hop
    · rw [List.mem_singleton.mp hop]
      exact concerns_takeNodeOp hf hm hset
  have hparts : (passOps f m).filter (concerns (f.workSet set)) =
      (fetchedOps f m ++ [takeNodeOp f m]).filter (concerns (f.workSet set)) := by
    rw [passOps, workOps, ← List.singleton_append, ← fetchedOps_append_keptOps hf]
    simp only [List.filter_append, filter_keptOps hf, filter_stageOps hf hm hset, hupdate,
      List.append_nil]
  rw [hparts]
  split
  · rename_i hsame
    exact List.filter_eq_self.mpr fun op hop => by rw [hall op hop, decide_eq_true hsame]
  · rename_i hother
    exact List.filter_eq_nil_iff.mpr fun op hop => by simp [hall op hop, hother]

end WorkSets

/-- What concerns a work set in the round loop are the passes in it, in their order: each gathers
its nodes and then takes them. -/
theorem filter_concerns_ops (hf : f.Layout shape used) (hp : p.Suits shape.chunks shape.workSets)
    (hchunks : space.chunks = shape.chunks) {set : Nat} (hset : set < shape.workSets) :
    (ops f p space).filter (concerns (f.workSet set)) =
      ((List.range space.total).filter fun i => passSet p i = set).flatMap fun i =>
        fetchedOps f (passMember f p space i) ++ [takeNodeOp f (passMember f p space i)] := by
  have hpass {i : Nat} (hi : i < space.total) :=
    filter_passOps hf (inFrame_passMember (f := f) hp hchunks hi) hset
  rw [filter_ops hf hp hchunks fun i hi hne => (hpass hi).trans (if_neg hne), flatMap_filter_eq]
  apply List.flatMap_congr
  intro i hi
  rw [hpass (List.mem_range.mp hi)]
  simp only [decide_eq_true_eq]

/-! ## Every shape of the loop -/

/-- A round loop that a kernel may have: its frame is laid out for trees of height `height` in
scratch that 32 bits address, and its shape can run over the chunks of the frame in the work sets
there. -/
structure Admissible (height : Nat) (f : Frame) (p : Pipeline) (space : Iterations) : Prop where
  laidOut : ∃ capacity < 2 ^ 32, ∃ start d : Draft, ∃ shape : FrameShape,
    start.Built capacity ∧ Draft.perform (Frame.reserve shape) start = (.ok f, d) ∧
      shape.height = height ∧ p.bufferCount ≤ shape.workSets
  fits : p.fits f.chunks = true
  size : p.groupWidth * (1 + p.prefetchGroups) < Size.limit
  chunks : space.chunks = f.chunks

theorem Admissible.layout {height : Nat} (h : Admissible height f p space) :
    ∃ shape used, f.Layout shape used ∧ shape.height = height ∧
      p.Suits shape.chunks shape.workSets ∧ space.chunks = shape.chunks := by
  obtain ⟨capacity, hcapacity, start, d, shape, hstart, hframe, hheight, hsets⟩ := h.laidOut
  have hkept : Draft.Kept False HeaderRegs.wordCount start :=
    ⟨hstart.bounded hcapacity, False.elim⟩
  obtain ⟨-, -, hf, -⟩ := Frame.reserve_spec hkept hframe
  exact ⟨shape, d.used, hf, hheight, ⟨hf.chunks ▸ h.fits, h.size, hsets⟩,
    h.chunks.trans hf.chunks⟩

/-- Every gather happens exactly once, in time. Looked at through any work set, the round loop is
its passes in that work set: each works out eight gather addresses and loads eight nodes if its
level is not kept in registers, and then takes the nodes into its values. There are no other
scalar operations and loads, so all shapes need each engine equally often. -/
theorem gathers_once_in_time {height : Nat} (h : Admissible height f p space) :
    (∀ set < f.workSets.length, (ops f p space).filter (concerns (f.workSet set)) =
      ((List.range space.total).filter fun i => passSet p i = set).flatMap fun i =>
        fetchedOps f (passMember f p space i) ++ [takeNodeOp f (passMember f p space i)]) ∧
    (∀ e, e = .alu ∨ e = .load → (ops f p space).countP (fun op => op.engine = e) =
      laneCount * (List.range space.total).countP fun i => !f.top.covers (space.depth i)) ∧
    ∀ f' p', Admissible height f' p' space → ∀ e,
      (ops f p space).countP (fun op => op.engine = e) =
        (ops f' p' space).countP (fun op => op.engine = e) := by
  obtain ⟨shape, used, hf, hheight, hp, hchunks⟩ := h.layout
  refine ⟨fun set hset => ?_, fun e he => ?_, fun f' p' h' e => ?_⟩
  · exact filter_concerns_ops hf hp hchunks (hf.workSets_length ▸ hset)
  · exact countP_gather_ops hf hp.groupWidth_pos space he
  · obtain ⟨shape', used', hf', hheight', hp', -⟩ := h'.layout
    have htop : f.top.depth = f'.top.depth := by
      rw [hf.top.depth, hf'.top.depth, hheight, hheight']
    rw [countP_engine_ops hf hp.groupWidth_pos, countP_engine_ops hf' hp'.groupWidth_pos, htop]

/-- Two chunks through four rounds down a tree of height three, fetched one ahead and not. Only the
two passes of the last round gather. -/
theorem gathers_once_in_time_two_shapes :
    let space : Iterations := ⟨2, 4, 3⟩
    ∃ f f', Admissible 3 f ⟨1, 1⟩ space ∧ Admissible 3 f' ⟨1, 0⟩ space ∧
      (ops f ⟨1, 1⟩ space).filter (concerns (f.workSet 1)) =
        ([1, 3, 5, 7].flatMap fun i =>
          fetchedOps f (passMember f ⟨1, 1⟩ space i) ++
            [takeNodeOp f (passMember f ⟨1, 1⟩ space i)]) ∧
      (ops f ⟨1, 1⟩ space).countP (fun op => op.engine = .load) = 16 ∧
      ∀ e, (ops f ⟨1, 1⟩ space).countP (fun op => op.engine = e) =
        (ops f' ⟨1, 0⟩ space).countP (fun op => op.engine = e) := by
  intro space
  have hframe (sets : Nat) (hsets : sets = 1 ∨ sets = 2) : ∃ f d used,
      Draft.perform (Frame.reserve ⟨3, 16, sets⟩) (.ofCapacity 400) = (.ok f, d) ∧
        f.Layout ⟨3, 16, sets⟩ used := by
    obtain ⟨f, d, hf, -⟩ :
        ∃ f d, Draft.Gives (Frame.reserve ⟨3, 16, sets⟩) (.ofCapacity 400) f d ∧ True :=
      Draft.exists_gives (by rcases hsets with rfl | rfl <;> decide +kernel)
    have hkept : Draft.Kept False HeaderRegs.wordCount (.ofCapacity 400) :=
      ⟨Draft.bounded_ofCapacity (by decide), False.elim⟩
    obtain ⟨-, -, hlayout, -⟩ := Frame.reserve_spec hkept hf
    exact ⟨f, d, d.used, hf, hlayout⟩
  obtain ⟨f, d, used, hf, hlayout⟩ := hframe 2 (.inr rfl)
  obtain ⟨f', d', used', hf', hlayout'⟩ := hframe 1 (.inl rfl)
  have h : Admissible 3 f ⟨1, 1⟩ space :=
    ⟨⟨400, by decide, _, d, _, .fresh, hf, rfl, by decide⟩, by rw [hlayout.chunks]; decide,
      by decide, hlayout.chunks.symm⟩
  have h' : Admissible 3 f' ⟨1, 0⟩ space :=
    ⟨⟨400, by decide, _, d', _, .fresh, hf', rfl, by decide⟩, by rw [hlayout'.chunks]; decide,
      by decide, hlayout'.chunks.symm⟩
  obtain ⟨hsets, hcount, hshapes⟩ := gathers_once_in_time h
  have htop : f.top.depth = 2 := hlayout.top.depth
  have htwo : 1 < f.workSets.length := by
    rw [hlayout.workSets_length]
    decide
  have hpasses : (List.range space.total).filter (fun i => passSet ⟨1, 1⟩ i = 1) =
      [1, 3, 5, 7] := by decide
  refine ⟨f, f', h, h', ?_, ?_, hshapes f' ⟨1, 0⟩ h'⟩
  · rw [hsets 1 htwo, hpasses]
  · rw [hcount .load (.inr rfl)]
    simp only [TopNodes.covers, htop]
    decide

end RoundLoop

end TreeWalk
