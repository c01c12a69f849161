import TreeWalk.Proofs.WorkRun

/-!
# Running a pass

A pass changes its own blocks only. It faults where a lane has to load its node and the node lies
outside the memory; otherwise every lane of its chunk gets the next index and the next value.
-/

namespace TreeWalk

/-- The node value of a lane at `depth`, if there is one: a top node from its register, any other
from the memory. `root` and `nodesAt` are the words of those two scalars. -/
def Frame.nodeOnLane (f : Frame) (ρ : Addr → Word) (root nodesAt : Word) (mem : Array Word)
    (depth : Nat) (index : Word) : Option Word :=
  match depth, f.top.level1, f.top.level2 with
  | 0, _, _ => some root
  | 1, some (n1, n2), _ =>
    let low := index &&& ρ f.one
    some ((ρ f.one - low) * ρ n2 + low * ρ n1)
  | 2, _, some (n0, n1, n2, n3) =>
    let offset := index - ρ f.three
    let low := offset &&& ρ f.one
    let high := offset.shiftDown (ρ f.one)
    let even := low * ρ n1 + (ρ f.one - low) * ρ n0
    let odd := low * ρ n3 + (ρ f.one - low) * ρ n2
    some (high * odd + even * (ρ f.one - high))
  | _, _, _ => mem[(nodesAt + index).toNat]?

namespace RoundLoop

/-- The node value of a lane of a pass. -/
def Member.node (f : Frame) (m : Member) (s : Contents) (l : Nat) : Option Word :=
  f.nodeOnLane (s.lane l) (s.word (f.top.node 0)) (s.word f.header.nodesAt) s.mem m.depth
    (s.lane l (f.indexBlock m.chunk))

def Member.Works (m : Member) (i : Nat) : Prop :=
  m.workSet.nodes.toNat ≤ i ∧ i < m.workSet.nodes.toNat + WorkSet.length

/-- The scratch words of all work sets. -/
def WorkArea (f : Frame) (shape : FrameShape) (i : Nat) : Prop :=
  f.indices.toNat + 2 * shape.batch ≤ i ∧ i < f.top.scalars.toNat

/-! ## Gathers -/

section Gather

variable {s : Contents} {a d e : Addr} {lanes : List Nat}

theorem put_lane (hd : s.Holds d laneCount) {k : Nat} (hk : k < laneCount) (w : Word) :
    Contents.DiffersIn (fun i => d.toNat ≤ i ∧ i < d.toNat + laneCount) s
        (s.put (d.toNat + k) 1 fun _ => w) ∧
      ∀ l, l < laneCount → (s.put (d.toNat + k) 1 fun _ => w).lane l d =
        if l = k then w else s.lane l d := by
  refine ⟨(Contents.DiffersIn.put ..).mono fun i hi => by omega, fun l hl => ?_⟩
  split
  · rename_i hlk
    subst hlk
    have hself := Contents.lane_put_self (g := fun _ => w) (hd.offset hl) Nat.zero_lt_one
    rw [hd.toNat_offset hl] at hself
    rw [← Contents.word_offset (Contents.holds_put.mpr hd) hl]
    exact hself
  · exact Contents.lane_put_of_apart (by omega)

theorem execute_map_scalar_add (hd : s.Holds d laneCount) (ha : s.Holds a 1)
    (he : s.Holds e laneCount) (hda : d.toNat + laneCount ≤ a.toNat ∨ a.toNat < d.toNat)
    (hde : d.BlocksApart e) (hlanes : ∀ l ∈ lanes, l < laneCount) :
    ∃ t, execute (lanes.map fun l => .scalar .add (d.offset l) a (e.offset l)) s = some t ∧
      Contents.DiffersIn (fun i => d.toNat ≤ i ∧ i < d.toNat + laneCount) s t ∧
      ∀ l < laneCount, t.lane l d = if l ∈ lanes then s.word a + s.lane l e else s.lane l d := by
  induction lanes generalizing s with
  | nil => exact ⟨s, rfl, .refl _ s, by simp⟩
  | cons k rest ih =>
    have hk : k < laneCount := hlanes k List.mem_cons_self
    have hexecute := execute_scalar (show Opcode.add.isTotal = true from rfl) (hd.offset hk) ha
      (he.offset hk)
    rw [Contents.word_offset he hk, hd.toNat_offset hk] at hexecute
    obtain ⟨hput, hlane⟩ := put_lane hd hk (s.word a + s.lane k e)
    set s' := s.put (d.toNat + k) 1 fun _ => s.word a + s.lane k e
    obtain ⟨t, ht, hdiffers, hword⟩ := ih (s := s') (hput.holds.mpr hd) (hput.holds.mpr ha)
      (hput.holds.mpr he) fun l hl => hlanes l (List.mem_cons_of_mem k hl)
    have ha' : s'.word a = s.word a := hput.lane (by omega)
    have he' (l : Nat) (hl : l < laneCount) : s'.lane l e = s.lane l e := by
      unfold Addr.BlocksApart at hde
      exact hput.lane (by omega)
    refine ⟨t, ?_, hput.trans hdiffers, fun l hl => ?_⟩
    · rw [List.map_cons, execute, hexecute]
      exact ht
    · rw [hword l hl, ha', he' l hl, hlane l hl]
      by_cases hlk : l = k
      · subst hlk
        simp
      · simp [hlk]

theorem execute_map_loadWord (hd : s.Holds d laneCount) (he : s.Holds e laneCount)
    (hde : d.BlocksApart e) (hlanes : ∀ l ∈ lanes, l < laneCount) :
    let loaded (l : Nat) : Option Word := s.mem[(s.lane l e).toNat]?
    (execute (lanes.map fun l => .loadWord (d.offset l) (e.offset l)) s = none ↔
      ∃ l ∈ lanes, loaded l = none) ∧
    ∀ t, execute (lanes.map fun l => .loadWord (d.offset l) (e.offset l)) s = some t →
      Contents.DiffersIn (fun i => d.toNat ≤ i ∧ i < d.toNat + laneCount) s t ∧
      ∀ l < laneCount, (l ∈ lanes → loaded l = some (t.lane l d)) ∧
        (l ∉ lanes → t.lane l d = s.lane l d) := by
  intro loaded
  induction lanes generalizing s with
  | nil =>
    refine ⟨by simp [execute], fun t ht => ?_⟩
    cases ht
    exact ⟨.refl _ s, by simp⟩
  | cons k rest ih =>
    have hk : k < laneCount := hlanes k List.mem_cons_self
    have hrest : ∀ l ∈ rest, l < laneCount := fun l hl => hlanes l (List.mem_cons_of_mem k hl)
    have hexecute := execute_loadWord (hd.offset hk) (he.offset hk)
    rw [Contents.word_offset he hk, hd.toNat_offset hk] at hexecute
    rw [List.map_cons, execute, hexecute, List.exists_mem_cons_iff]
    cases hw : s.mem[(s.lane k e).toNat]? with
    | none => simp [show loaded k = none from hw]
    | some w =>
      obtain ⟨hput, hlane⟩ := put_lane hd hk w
      set s' := s.put (d.toNat + k) 1 fun _ => w
      have hloaded (l : Nat) (hl : l < laneCount) : s'.mem[(s'.lane l e).toNat]? = loaded l := by
        unfold Addr.BlocksApart at hde
        rw [show s'.lane l e = s.lane l e from hput.lane (by omega)]
        rfl
      obtain ⟨hnone, hsome⟩ := ih (s := s') (hput.holds.mpr hd) (hput.holds.mpr he) hrest
      have hk_loaded : loaded k = some w := hw
      simp only [Option.map_some, Option.bind_some, hk_loaded, reduceCtorEq, false_or]
      constructor
      · rw [hnone]
        refine exists_congr fun l => and_congr_right fun hl => ?_
        dsimp only
        rw [hloaded l (hrest l hl)]
      · intro t ht
        obtain ⟨hdiffers, hword⟩ := hsome t ht
        refine ⟨hput.trans hdiffers, fun l hl => ?_⟩
        obtain ⟨hin, hout⟩ := hword l hl
        rw [hlane l hl] at hout
        by_cases hlr : l ∈ rest
        · have hmem : l ∈ k :: rest := List.mem_cons_of_mem k hlr
          exact ⟨fun _ => (hloaded l hl).symm.trans (hin hlr), fun h => absurd hmem h⟩
        · rw [hout hlr]
          by_cases hlk : l = k
          · subst hlk
            simp [hk_loaded]
          · simp [hlk, hlr]

end Gather

/-! ## Node values -/

section Nodes

variable {f : Frame} {shape : FrameShape} {used set : Nat} {m : Member} {s : Contents}

theorem nodeValueOps_cases (f : Frame) (m : Member) :
    (m.depth = 0 ∧ nodeValueOps f m = [.broadcast m.workSet.nodes (f.top.node 0)]) ∨
    (∃ n1 n2, m.depth = 1 ∧ f.top.level1 = some (n1, n2) ∧
      nodeValueOps f m = NodeValues.level1Ops f m.workSet m.chunk (n1, n2)) ∨
    (∃ n0 n1 n2 n3, m.depth = 2 ∧ f.top.level2 = some (n0, n1, n2, n3) ∧
      nodeValueOps f m = NodeValues.level2Ops f m.workSet m.chunk (n0, n1, n2, n3)) ∨
    (nodeValueOps f m = NodeValues.gatherOps f m.workSet m.chunk ∧
      ∀ ρ root nodesAt mem index, f.nodeOnLane ρ root nodesAt mem m.depth index =
        mem[(nodesAt + index).toNat]?) := by
  unfold nodeValueOps NodeValues.ops Frame.nodeOnLane
  rcases m.depth with _ | _ | _ | n
  · exact .inl ⟨rfl, rfl⟩
  · cases h1 : f.top.level1 with
    | some blocks => exact .inr (.inl ⟨blocks.1, blocks.2, rfl, rfl, rfl⟩)
    | none => exact .inr (.inr (.inr ⟨rfl, fun _ _ _ _ _ => rfl⟩))
  · cases h2 : f.top.level2 with
    | some blocks =>
      obtain ⟨n0, n1, n2, n3⟩ := blocks
      exact .inr (.inr (.inl ⟨n0, n1, n2, n3, rfl, rfl, rfl⟩))
    | none => exact .inr (.inr (.inr ⟨rfl, fun _ _ _ _ _ => rfl⟩))
  · exact .inr (.inr (.inr ⟨rfl, fun _ _ _ _ _ => rfl⟩))

def Member.workBlocks (m : Member) : List Addr :=
  [m.workSet.nodes, m.workSet.left, m.workSet.right, m.workSet.spare]

theorem Member.mem_workBlocks (m : Member) :
    m.workSet.nodes ∈ m.workBlocks ∧ m.workSet.left ∈ m.workBlocks ∧
      m.workSet.right ∈ m.workBlocks ∧ m.workSet.spare ∈ m.workBlocks := by
  simp [Member.workBlocks]

theorem Member.ownBlocks_eq (f : Frame) (m : Member) :
    m.ownBlocks f = m.workBlocks ++ [f.indexBlock m.chunk, f.valueBlock m.chunk] := rfl

theorem Member.works_of_covered (hf : f.Layout shape used) (hm : m.InFrame f shape set) {i : Nat}
    (h : Addr.Covered m.workBlocks i) : m.Works i := by
  obtain ⟨⟨hnodes, hleft, hright, -, hspare⟩, -⟩ := Member.workSet_at hf hm
  have hlength : WorkSet.length = 5 * laneCount := rfl
  obtain ⟨a, ha, hi⟩ := h
  simp only [Member.workBlocks, List.mem_cons, List.not_mem_nil, or_false] at ha
  unfold Member.Works
  rcases ha with rfl | rfl | rfl | rfl <;> omega

theorem execute_of_laneWise_nodes (hf : f.Layout shape used) (hm : m.InFrame f shape set)
    (hs : used ≤ s.scratch.size) {ops : List Op} {node : Nat → Word}
    (hops : ∀ op ∈ ops, op.LaneWise m.workBlocks
      ([f.indexBlock m.chunk, f.valueBlock m.chunk] ++ f.sharedBlocks))
    (hnode : ∀ l < laneCount, onLanes ops (s.lane l) m.workSet.nodes = node l) :
    ∃ t, execute ops s = some t ∧ Contents.DiffersIn m.Works s t ∧
      ∀ l < laneCount, t.lane l m.workSet.nodes = node l := by
  have hblocks := (Member.laneBlocks hf hm)
  have hholds := Member.holds hf hm hs
  rw [Member.ownBlocks_eq] at hblocks hholds
  rw [List.append_assoc] at hholds
  obtain ⟨t, ht, hdiffers, hlane⟩ := execute_onLanes hblocks.shift hops hholds
    (ρ := fun l => s.lane l) fun _ _ _ _ => rfl
  refine ⟨t, ht, hdiffers.mono fun i => Member.works_of_covered hf hm, fun l hl => ?_⟩
  rw [hlane l hl _ (List.mem_append_left _ m.mem_workBlocks.1), hnode l hl]

theorem Member.top_holds (hf : f.Layout shape used) (hs : used ≤ s.scratch.size) :
    s.Holds (f.top.node 0) 1 ∧ s.Holds f.header.nodesAt 1 := by
  have hcount := f.top.count_pos
  have hheader : f.header.nodesAt.toNat < f.indices.toNat :=
    hf.header _ (by simp [HeaderRegs.words])
  have hscalars := hf.top.scalars
  obtain ⟨hle, hle'⟩ := hf.indices_le
  have hlt := hf.stop_lt
  rw [TopNodes.node, Addr.offset_zero]
  exact ⟨⟨by omega, by omega⟩, ⟨by omega, by omega⟩⟩

theorem Member.laneBlocks_work (hf : f.Layout shape used) (hm : m.InFrame f shape set) :
    LaneBlocks m.workBlocks ([f.indexBlock m.chunk, f.valueBlock m.chunk] ++ f.sharedBlocks) := by
  have hblocks := Member.laneBlocks hf hm
  rw [Member.ownBlocks_eq] at hblocks
  exact hblocks.shift

theorem update_workBlock (hf : f.Layout shape used) (hm : m.InFrame f shape set) {d a : Addr}
    (hd : d ∈ m.workBlocks) (ha : a ∈ f.sharedBlocks) (ρ : Addr → Word) (w : Word) :
    Function.update ρ d w a = ρ a :=
  have hapart := (Member.laneBlocks_work hf hm).apart_shared d hd a (by simp [ha])
  Function.update_of_ne hapart.ne.symm ..

theorem onLanes_level1Ops (hf : f.Layout shape used) (hm : m.InFrame f shape set) {n1 n2 : Addr}
    (hlevel : f.top.level1 = some (n1, n2)) (ρ : Addr → Word) :
    (∀ op ∈ NodeValues.level1Ops f m.workSet m.chunk (n1, n2), op.LaneWise m.workBlocks
      ([f.indexBlock m.chunk, f.valueBlock m.chunk] ++ f.sharedBlocks)) ∧
    onLanes (NodeValues.level1Ops f m.workSet m.chunk (n1, n2)) ρ m.workSet.nodes =
      (ρ f.one - (ρ (f.indexBlock m.chunk) &&& ρ f.one)) * ρ n2 +
        (ρ (f.indexBlock m.chunk) &&& ρ f.one) * ρ n1 := by
  have hown := (Member.laneBlocks_work hf hm).apart
  simp only [Member.workBlocks, List.pairwise_cons, List.mem_cons, List.not_mem_nil, or_false,
    forall_eq_or_imp, forall_eq] at hown
  obtain ⟨⟨hnl, hnr, -⟩, -⟩ := hown
  have hone : f.one ∈ f.sharedBlocks := by simp [Frame.sharedBlocks, Frame.constantBlocks]
  have hn1 : n1 ∈ f.sharedBlocks := by simp [Frame.sharedBlocks, TopNodes.blocks, hlevel]
  have hn2 : n2 ∈ f.sharedBlocks := by simp [Frame.sharedBlocks, TopNodes.blocks, hlevel]
  obtain ⟨hnodes_mem, hleft_mem, hright_mem, -⟩ := m.mem_workBlocks
  constructor
  · intro op hop
    simp only [NodeValues.level1Ops, List.mem_cons, List.not_mem_nil, or_false] at hop
    rcases hop with rfl | rfl | rfl | rfl
    · exact ⟨rfl, hleft_mem, by simp, by simp [hone]⟩
    · exact ⟨rfl, hnodes_mem, by simp [hleft_mem], by simp [hn1]⟩
    · exact ⟨rfl, hright_mem, by simp [hone], by simp [hleft_mem]⟩
    · exact ⟨hnodes_mem, by simp [hright_mem], by simp [hn2], by simp [hnodes_mem]⟩
  · simp only [NodeValues.level1Ops, onLanes_cons, onLanes_nil, onLane_vector,
      onLane_multiplyAdd, Function.update_self, Function.update_of_ne hnl.ne.symm,
      Function.update_of_ne hnr.ne, update_workBlock hf hm hnodes_mem hone,
      update_workBlock hf hm hleft_mem hone, update_workBlock hf hm hleft_mem hn1,
      update_workBlock hf hm hnodes_mem hn2, update_workBlock hf hm hleft_mem hn2,
      update_workBlock hf hm hright_mem hn2]
    rfl

/-- Nodes from registers on level 2: the low bit chooses within the pairs, the high bit a pair. -/
theorem onLanes_level2Ops (hf : f.Layout shape used) (hm : m.InFrame f shape set)
    {n0 n1 n2 n3 : Addr} (hlevel : f.top.level2 = some (n0, n1, n2, n3)) (ρ : Addr → Word) :
    (∀ op ∈ NodeValues.level2Ops f m.workSet m.chunk (n0, n1, n2, n3), op.LaneWise m.workBlocks
      ([f.indexBlock m.chunk, f.valueBlock m.chunk] ++ f.sharedBlocks)) ∧
    onLanes (NodeValues.level2Ops f m.workSet m.chunk (n0, n1, n2, n3)) ρ m.workSet.nodes =
      let offset := ρ (f.indexBlock m.chunk) - ρ f.three
      let low := offset &&& ρ f.one
      let high := offset.shiftDown (ρ f.one)
      let even := low * ρ n1 + (ρ f.one - low) * ρ n0
      let odd := low * ρ n3 + (ρ f.one - low) * ρ n2
      high * odd + even * (ρ f.one - high) := by
  have hown := (Member.laneBlocks_work hf hm).apart
  simp only [Member.workBlocks, List.pairwise_cons, List.mem_cons, List.not_mem_nil, or_false,
    forall_eq_or_imp, forall_eq] at hown
  obtain ⟨⟨hnl, hnr, hns⟩, ⟨hlr, hls⟩, hrs, -⟩ := hown
  have hone : f.one ∈ f.sharedBlocks := by simp [Frame.sharedBlocks, Frame.constantBlocks]
  have hthree : f.three ∈ f.sharedBlocks := by simp [Frame.sharedBlocks, Frame.constantBlocks]
  have hlevels : ∀ a ∈ [n0, n1, n2, n3], a ∈ f.sharedBlocks := by
    intro a ha
    refine List.mem_append_right _ (List.mem_append_right _ ?_)
    simpa [hlevel] using ha
  have h0 := hlevels n0 (by simp)
  have h1 := hlevels n1 (by simp)
  have h2 := hlevels n2 (by simp)
  have h3 := hlevels n3 (by simp)
  obtain ⟨hnodes_mem, hleft_mem, hright_mem, hspare_mem⟩ := m.mem_workBlocks
  constructor
  · intro op hop
    simp only [NodeValues.level2Ops, List.mem_cons, List.not_mem_nil, or_false] at hop
    rcases hop with rfl | rfl | rfl | rfl | rfl | rfl | rfl | rfl | rfl | rfl | rfl | rfl
    · exact ⟨rfl, hleft_mem, by simp, by simp [hthree]⟩
    · exact ⟨rfl, hright_mem, by simp [hleft_mem], by simp [hone]⟩
    · exact ⟨rfl, hleft_mem, by simp [hleft_mem], by simp [hone]⟩
    · exact ⟨rfl, hnodes_mem, by simp [hone], by simp [hright_mem]⟩
    · exact ⟨rfl, hnodes_mem, by simp [hnodes_mem], by simp [h0]⟩
    · exact ⟨hnodes_mem, by simp [hright_mem], by simp [h1], by simp [hnodes_mem]⟩
    · exact ⟨rfl, hspare_mem, by simp [hone], by simp [hright_mem]⟩
    · exact ⟨rfl, hspare_mem, by simp [hspare_mem], by simp [h2]⟩
    · exact ⟨hspare_mem, by simp [hright_mem], by simp [h3], by simp [hspare_mem]⟩
    · exact ⟨rfl, hright_mem, by simp [hone], by simp [hleft_mem]⟩
    · exact ⟨rfl, hnodes_mem, by simp [hnodes_mem], by simp [hright_mem]⟩
    · exact ⟨hnodes_mem, by simp [hleft_mem], by simp [hspare_mem], by simp [hnodes_mem]⟩
  · simp only [NodeValues.level2Ops, onLanes_cons, onLanes_nil, onLane_vector,
      onLane_multiplyAdd, Function.update_self, Function.update_of_ne hnl.ne.symm,
      Function.update_of_ne hnr.ne, Function.update_of_ne hnr.ne.symm,
      Function.update_of_ne hns.ne, Function.update_of_ne hns.ne.symm,
      Function.update_of_ne hlr.ne, Function.update_of_ne hlr.ne.symm,
      Function.update_of_ne hls.ne, Function.update_of_ne hrs.ne,
      Function.update_of_ne hrs.ne.symm,
      update_workBlock hf hm hnodes_mem, update_workBlock hf hm hleft_mem,
      update_workBlock hf hm hright_mem, update_workBlock hf hm hspare_mem, hone, h0, h1, h2, h3]
    rfl

theorem Member.gather_holds (hf : f.Layout shape used) (hm : m.InFrame f shape set)
    (hs : used ≤ s.scratch.size) : s.Holds m.workSet.gather laneCount := by
  obtain ⟨⟨hnodes, -, -, hgather, -⟩, hset⟩ := Member.workSet_at hf hm
  have hlength : WorkSet.length = 5 * laneCount := rfl
  obtain ⟨hle, hle'⟩ := hf.indices_le
  have hlt := hf.stop_lt
  exact ⟨by omega, by omega⟩

theorem execute_gatherAddrOps (hf : f.Layout shape used) (hm : m.InFrame f shape set)
    (hs : used ≤ s.scratch.size) :
    ∃ t, execute (NodeValues.gatherAddrOps f m.workSet m.chunk) s = some t ∧
      Contents.DiffersIn m.Works s t ∧
      ∀ l < laneCount, t.lane l m.workSet.gather =
        s.word f.header.nodesAt + s.lane l (f.indexBlock m.chunk) := by
  obtain ⟨hindex, hbatch⟩ := hf.toNat_indexBlock hm.chunk_lt
  obtain ⟨⟨hnodes, -, -, hgather, -⟩, hset⟩ := Member.workSet_at hf hm
  have hlength : WorkSet.length = 5 * laneCount := rfl
  have hindex_holds := Member.holds hf hm hs (f.indexBlock m.chunk) (by simp [Member.ownBlocks])
  have hnodesAt : f.header.nodesAt.toNat < f.indices.toNat :=
    hf.header _ (by simp [HeaderRegs.words])
  obtain ⟨t, ht, hdiffers, hsum⟩ := execute_map_scalar_add (Member.gather_holds hf hm hs)
    (Member.top_holds hf hs).2 hindex_holds (.inr (by omega)) (.inr (by omega))
    fun l hl => List.mem_range.mp hl
  refine ⟨t, ht, hdiffers.mono fun i hi => ?_, fun l hl => ?_⟩
  · unfold Member.Works
    omega
  · rw [hsum l hl, if_pos (List.mem_range.mpr hl)]

theorem execute_gatherOps (hf : f.Layout shape used) (hm : m.InFrame f shape set)
    (hs : used ≤ s.scratch.size) :
    let node (l : Nat) : Option Word :=
      s.mem[(s.word f.header.nodesAt + s.lane l (f.indexBlock m.chunk)).toNat]?
    (execute (NodeValues.gatherOps f m.workSet m.chunk) s = none ↔
      ∃ l < laneCount, node l = none) ∧
    ∀ t, execute (NodeValues.gatherOps f m.workSet m.chunk) s = some t →
      Contents.DiffersIn m.Works s t ∧
      ∀ l < laneCount, node l = some (t.lane l m.workSet.nodes) := by
  intro node
  obtain ⟨⟨hnodes, -, -, hgather, -⟩, -⟩ := Member.workSet_at hf hm
  have hnodes_holds := Member.holds hf hm hs m.workSet.nodes (by simp [Member.ownBlocks])
  obtain ⟨u, hu, hworks, hsum⟩ := execute_gatherAddrOps hf hm hs
  obtain ⟨hnone, hsome⟩ := execute_map_loadWord (hworks.holds.mpr hnodes_holds)
    (hworks.holds.mpr (Member.gather_holds hf hm hs)) (.inl (by omega))
    fun l (hl : l ∈ List.range laneCount) => List.mem_range.mp hl
  have hload (l : Nat) (hl : l < laneCount) :
      u.mem[(u.lane l m.workSet.gather).toNat]? = node l := by rw [hsum l hl, hworks.mem]
  rw [NodeValues.gatherOps, execute_append, hu, Option.bind_some, NodeValues.gatherLoadOps]
  constructor
  · rw [hnone]
    constructor
    · rintro ⟨l, hl, h⟩
      exact ⟨l, List.mem_range.mp hl, (hload l (List.mem_range.mp hl)).symm.trans h⟩
    · rintro ⟨l, hl, h⟩
      exact ⟨l, List.mem_range.mpr hl, (hload l hl).trans h⟩
  · intro t ht
    obtain ⟨hdiffers, hword⟩ := hsome t ht
    refine ⟨hworks.trans (hdiffers.mono fun i hi => ?_), fun l hl => ?_⟩
    · have hlength : laneCount ≤ WorkSet.length := by decide
      unfold Member.Works
      omega
    · rw [← hload l hl]
      exact (hword l hl).1 (List.mem_range.mpr hl)

/-- The node values of a pass, or a fault where a lane has none. -/
theorem execute_nodeValueOps (hf : f.Layout shape used) (hm : m.InFrame f shape set)
    (hs : used ≤ s.scratch.size) :
    (execute (nodeValueOps f m) s = none ↔ ∃ l < laneCount, m.node f s l = none) ∧
    ∀ t, execute (nodeValueOps f m) s = some t →
      Contents.DiffersIn m.Works s t ∧
      ∀ l < laneCount, m.node f s l = some (t.lane l m.workSet.nodes) := by
  -- node values that are worked out without a load are always there
  have htotal (node : Nat → Word) (hnode : ∀ l, m.node f s l = some (node l))
      (h : ∃ t, execute (nodeValueOps f m) s = some t ∧ Contents.DiffersIn m.Works s t ∧
        ∀ l < laneCount, t.lane l m.workSet.nodes = node l) :
      (execute (nodeValueOps f m) s = none ↔ ∃ l < laneCount, m.node f s l = none) ∧
      ∀ t, execute (nodeValueOps f m) s = some t →
        Contents.DiffersIn m.Works s t ∧
        ∀ l < laneCount, m.node f s l = some (t.lane l m.workSet.nodes) := by
    obtain ⟨t, ht, hdiffers, hlane⟩ := h
    refine ⟨by simp [ht, hnode], fun t' ht' => ?_⟩
    obtain rfl : t = t' := Option.some.inj (ht.symm.trans ht')
    exact ⟨hdiffers, fun l hl => by rw [hnode l, hlane l hl]⟩
  rcases nodeValueOps_cases f m with ⟨hdepth, hops⟩ | ⟨n1, n2, hdepth, hlevel, hops⟩ |
    ⟨n0, n1, n2, n3, hdepth, hlevel, hops⟩ | ⟨hops, hnode⟩
  · have hnodes := Member.holds hf hm hs m.workSet.nodes (by simp [Member.ownBlocks])
    refine htotal (fun _ => s.word (f.top.node 0)) (fun l => ?_) ?_
    · rw [Member.node, hdepth]
      rfl
    · rw [hops, execute_singleton, execute_broadcast hnodes (Member.top_holds hf hs).1]
      refine ⟨_, rfl, (Contents.DiffersIn.put ..).mono fun i hi => ?_, fun l hl =>
        Contents.lane_put_self hnodes hl⟩
      have hlength : laneCount ≤ WorkSet.length := by decide
      unfold Member.Works
      omega
  · refine htotal (fun l => onLanes (nodeValueOps f m) (s.lane l) m.workSet.nodes)
      (fun l => ?_) (execute_of_laneWise_nodes hf hm hs
        (hops ▸ (onLanes_level1Ops hf hm hlevel (s.lane 0)).1) fun _ _ => rfl)
    rw [hops, (onLanes_level1Ops hf hm hlevel (s.lane l)).2, Member.node, hdepth]
    simp only [Frame.nodeOnLane, hlevel]
  · refine htotal (fun l => onLanes (nodeValueOps f m) (s.lane l) m.workSet.nodes)
      (fun l => ?_) (execute_of_laneWise_nodes hf hm hs
        (hops ▸ (onLanes_level2Ops hf hm hlevel (s.lane 0)).1) fun _ _ => rfl)
    rw [hops, (onLanes_level2Ops hf hm hlevel (s.lane l)).2, Member.node, hdepth]
    simp only [Frame.nodeOnLane, hlevel]
  · have hgather := execute_gatherOps hf hm hs
    simp only [← hops] at hgather
    simpa only [Member.node, hnode] using hgather

theorem Member.not_workArea (hf : f.Layout shape used) (hm : m.InFrame f shape set) {a : Addr}
    (ha : a ∈ [f.indexBlock m.chunk, f.valueBlock m.chunk] ++ f.sharedBlocks) {l : Nat}
    (hl : l < laneCount) : ¬ WorkArea f shape (a.toNat + l) := by
  obtain ⟨hindex, hbatch⟩ := hf.toNat_indexBlock hm.chunk_lt
  have hvalue := hf.toNat_valueBlock hm.chunk_lt
  have hscalars := hf.top.scalars
  have haddrs := hf.top.addrs
  unfold WorkArea
  rcases List.mem_append.mp ha with ha | ha
  · rcases List.mem_pair.mp ha with rfl | rfl <;> omega
  · rcases List.mem_append.mp ha with ha | ha
    · have := hf.constantBlocks a ha
      omega
    · have := (hf.topBlocks a ha).1
      omega

theorem Member.not_works (hf : f.Layout shape used) (hm : m.InFrame f shape set) {a : Addr}
    (ha : a ∈ [f.indexBlock m.chunk, f.valueBlock m.chunk] ++ f.sharedBlocks) {l : Nat}
    (hl : l < laneCount) : ¬ m.Works (a.toNat + l) := by
  obtain ⟨⟨hnodes, -, -, -, -⟩, hset⟩ := Member.workSet_at hf hm
  have hscalars := hf.top.scalars
  have hnot := Member.not_workArea hf hm ha hl
  unfold WorkArea at hnot
  unfold Member.Works
  omega

theorem nextValue_congr {ρ ρ' : Addr → Word} (h : ∀ a ∈ f.constantBlocks, ρ a = ρ' a)
    (value node : Word) : nextValue f ρ value node = nextValue f ρ' value node :=
  Mix.Lowered.mixOnValue_congr (fun a ha => h a (List.mem_append_right _ ha)) _

theorem nextIndex_congr {ρ ρ' : Addr → Word} (h : ∀ a ∈ f.constantBlocks, ρ a = ρ' a)
    (index value : Word) : nextIndex f ρ index value = nextIndex f ρ' index value := by
  simp only [nextIndex, h f.one (by simp [Frame.constantBlocks]),
    h f.two (by simp [Frame.constantBlocks]), h f.nodeCount (by simp [Frame.constantBlocks])]

/-- A pass faults where a lane has no node value, and otherwise takes every lane one round on. -/
theorem execute_passOps (hf : f.Layout shape used) (hm : m.InFrame f shape set)
    (hs : used ≤ s.scratch.size) :
    (execute (passOps f m) s = none ↔ ∃ l < laneCount, m.node f s l = none) ∧
    ∀ t, execute (passOps f m) s = some t →
      Contents.DiffersIn (m.Own f) s t ∧
      ∀ l < laneCount, ∃ node, m.node f s l = some node ∧
        t.lane l (f.valueBlock m.chunk) =
          nextValue f (s.lane l) (s.lane l (f.valueBlock m.chunk)) node ∧
        t.lane l (f.indexBlock m.chunk) = nextIndex f (s.lane l)
          (s.lane l (f.indexBlock m.chunk)) (t.lane l (f.valueBlock m.chunk)) := by
  obtain ⟨hnone, hsome⟩ := execute_nodeValueOps hf hm hs
  rw [passOps, execute_append]
  cases hu : execute (nodeValueOps f m) s with
  | none => exact ⟨by simpa using hnone.mp hu, by simp⟩
  | some u =>
    obtain ⟨hworks, hnode⟩ := hsome u hu
    obtain ⟨t, ht, hdiffers, hlane⟩ := execute_workOps hf hm (hworks.size.symm ▸ hs)
    have hkept {a : Addr}
        (ha : a ∈ [f.indexBlock m.chunk, f.valueBlock m.chunk] ++ f.sharedBlocks) {l : Nat}
        (hl : l < laneCount) : u.lane l a = s.lane l a :=
      hworks.lane (Member.not_works hf hm ha hl)
    have hconst {l : Nat} (hl : l < laneCount) : ∀ a ∈ f.constantBlocks, u.lane l a = s.lane l a :=
      fun a ha => hkept (List.mem_append_right _ (List.mem_append_left _ ha)) hl
    rw [Option.bind_some, ht]
    constructor
    · simp only [reduceCtorEq, false_iff, not_exists, not_and]
      intro l hl h
      exact absurd ((hnode l hl).symm.trans h) (by simp)
    · intro t' ht'
      obtain rfl : t = t' := Option.some.inj ht'
      refine ⟨(hworks.mono fun i hi => Or.inl hi).trans hdiffers, fun l hl => ?_⟩
      obtain ⟨hvalue, hindex⟩ := hlane l hl
      refine ⟨u.lane l m.workSet.nodes, hnode l hl, ?_, ?_⟩
      · rw [hvalue, hkept (by simp) hl, nextValue_congr (hconst hl)]
      · rw [hindex, hkept (by simp) hl, nextIndex_congr (hconst hl)]

end Nodes

end RoundLoop

end TreeWalk
