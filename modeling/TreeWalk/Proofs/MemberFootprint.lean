import TreeWalk.Proofs.PassRun
import TreeWalk.Proofs.Reorder

/-!
# Passes in flight keep apart

Every operation of a pass changes only the pass's own words and reads only those and words that no
pass changes. Operations of passes with different chunks and different work sets commute.
-/

namespace TreeWalk

/-- The operation only replaces scratch words of `own`, and reads those and words of `shared`. -/
structure Op.StaysIn (own shared : Nat → Prop) (op : Op) : Prop where
  isQuiet : op.isQuiet = true
  fits : op.Fits
  writes : ∀ a ∈ op.writes, own a.toNat
  reads : ∀ a ∈ op.reads, own a.toNat ∨ shared a.toNat

theorem Commutes.of_staysIn {own own' shared : Nat → Prop} {x y : Op} (hx : x.StaysIn own shared)
    (hy : y.StaysIn own' shared) (hown : ∀ i, own i → ¬ own' i) (hshared : ∀ i, own i → ¬ shared i)
    (hshared' : ∀ i, own' i → ¬ shared i) : Commutes x y := by
  refine Commutes.of_spares hx.isQuiet hy.isQuiet hx.fits hy.fits (fun a ha => ⟨?_, ?_⟩)
    fun a ha => ⟨?_, ?_⟩
  · intro hr
    rcases hy.reads a hr with h | h
    · exact hown _ (hx.writes a ha) h
    · exact hshared _ (hx.writes a ha) h
  · exact fun hw => hown _ (hx.writes a ha) (hy.writes a hw)
  · intro hr
    rcases hx.reads a hr with h | h
    · exact hown _ h (hy.writes a ha)
    · exact hshared' _ (hy.writes a ha) h
  · exact fun hw => hown _ (hx.writes a hw) (hy.writes a ha)

theorem Op.StaysIn.mono {own own' shared shared' : Nat → Prop} {op : Op}
    (h : op.StaysIn own shared) (hown : ∀ i, own i → own' i) (hshared : ∀ i, shared i → shared' i) :
    op.StaysIn own' shared' :=
  ⟨h.isQuiet, h.fits, fun a ha => hown _ (h.writes a ha),
    fun a ha => (h.reads a ha).imp (hown _) (hshared _)⟩

theorem Addr.covered_of_mem_block {blocks : List Addr} {a b : Addr} (hb : b ∈ blocks)
    (hfit : b.FitsBlock) (ha : a ∈ b.block) : Addr.Covered blocks a.toNat := by
  obtain ⟨l, hl, rfl⟩ := Addr.mem_block.mp ha
  refine ⟨b, hb, ?_⟩
  rw [hfit.toNat_offset hl]
  omega

theorem Op.LaneWise.staysIn {own shared : List Addr} {op : Op} (h : op.LaneWise own shared)
    (hfit : ∀ a ∈ own ++ shared, a.FitsBlock) :
    op.StaysIn (Addr.Covered own) (Addr.Covered shared) := by
  have hdest {d : Addr} (hd : d ∈ own) {a : Addr} (ha : a ∈ d.block) :
      Addr.Covered own a.toNat :=
    Addr.covered_of_mem_block hd (hfit d (List.mem_append_left _ hd)) ha
  have hsource {b : Addr} (hb : b ∈ own ++ shared) {a : Addr} (ha : a ∈ b.block) :
      Addr.Covered own a.toNat ∨ Addr.Covered shared a.toNat := by
    rcases List.mem_append.mp hb with hb' | hb'
    · exact .inl (Addr.covered_of_mem_block hb' (hfit b hb) ha)
    · exact .inr (Addr.covered_of_mem_block hb' (hfit b hb) ha)
  have hown {d : Addr} (hd : d ∈ own) : d.FitsBlock := hfit d (List.mem_append_left _ hd)
  match op, h with
  | .valu (.binary code dest a b), ⟨_, hd, ha, hb⟩ =>
    refine ⟨rfl, ⟨hown hd, hfit a ha, hfit b hb⟩, fun x hx => hdest hd hx, fun x hx => ?_⟩
    rcases List.mem_append.mp hx with hx | hx
    · exact hsource ha hx
    · exact hsource hb hx
  | .valu (.multiplyAdd dest a b c), ⟨hd, ha, hb, hc⟩ =>
    refine ⟨rfl, ⟨hown hd, hfit a ha, hfit b hb, hfit c hc⟩, fun x hx => hdest hd hx,
      fun x hx => ?_⟩
    rcases List.mem_append.mp hx with hx | hx
    · rcases List.mem_append.mp hx with hx | hx
      · exact hsource ha hx
      · exact hsource hb hx
    · exact hsource hc hx

namespace RoundLoop

def Shared (f : Frame) (i : Nat) : Prop := i < f.indices.toNat ∨ f.top.scalars.toNat ≤ i

def Member.Runs (f : Frame) (m : Member) (ops : List Op) : Prop :=
  ∀ op ∈ ops, op.StaysIn (m.Own f) (Shared f)

def Member.KeepsApart (f : Frame) (m n : Member) : Prop := ∀ i, m.Own f i → ¬ n.Own f i

section Footprint

variable {f : Frame} {shape : FrameShape} {used set set' : Nat} {m n : Member}

theorem Member.own_bounds (hf : f.Layout shape used) (hm : m.InFrame f shape set) {i : Nat}
    (hi : m.Own f i) : f.indices.toNat ≤ i ∧ i < f.top.scalars.toNat := by
  obtain ⟨hindex, hbatch⟩ := hf.toNat_indexBlock hm.chunk_lt
  have hvalue := hf.toNat_valueBlock hm.chunk_lt
  obtain ⟨⟨hnodes, -, -, -, -⟩, hset⟩ := Member.workSet_at hf hm
  have hscalars := hf.top.scalars
  unfold Member.Own at hi
  omega

theorem Member.not_shared (hf : f.Layout shape used) (hm : m.InFrame f shape set) {i : Nat}
    (hi : m.Own f i) : ¬ Shared f i := by
  have := Member.own_bounds hf hm hi
  unfold Shared
  omega

/-- Passes with different chunks and different work sets keep apart. -/
theorem Member.keepsApart (hf : f.Layout shape used) (hm : m.InFrame f shape set)
    (hn : n.InFrame f shape set') (hset : set ≠ set') (hchunk : m.chunk ≠ n.chunk) :
    m.KeepsApart f n := by
  obtain ⟨hindex, hbatch⟩ := hf.toNat_indexBlock hm.chunk_lt
  have hvalue := hf.toNat_valueBlock hm.chunk_lt
  have hnodes := (Member.workSet_at hf hm).1.nodes
  obtain ⟨hindex', hbatch'⟩ := hf.toNat_indexBlock hn.chunk_lt
  have hvalue' := hf.toNat_valueBlock hn.chunk_lt
  have hnodes' := (Member.workSet_at hf hn).1.nodes
  have hlength : WorkSet.length = 40 := rfl
  have hlanes : laneCount = 8 := rfl
  intro i hi hi'
  unfold Member.Own at hi hi'
  rw [hnodes, hindex, hvalue, hlength, hlanes] at hi
  rw [hnodes', hindex', hvalue', hlength, hlanes] at hi'
  rw [hlanes] at hbatch hbatch'
  omega

theorem Member.Runs.commutes (hf : f.Layout shape used) (hm : m.InFrame f shape set)
    (hn : n.InFrame f shape set') (h : m.KeepsApart f n) {xs ys : List Op} (hxs : m.Runs f xs)
    (hys : n.Runs f ys) : ∀ x ∈ xs, ∀ y ∈ ys, Commutes x y :=
  fun x hx y hy => Commutes.of_staysIn (hxs x hx) (hys y hy) h (fun _ => Member.not_shared hf hm)
    fun _ => Member.not_shared hf hn

theorem Member.staysIn_of_laneWise (hf : f.Layout shape used) (hm : m.InFrame f shape set)
    {op : Op} (h : op.LaneWise (m.ownBlocks f) f.sharedBlocks) :
    op.StaysIn (m.Own f) (Shared f) := by
  refine (h.staysIn fun a ha => ?_).mono (fun i => Member.own_of_covered hf hm) fun i hi => ?_
  · exact Nat.le_trans (Member.block_le hf hm a ha) (Nat.le_of_lt hf.stop_lt)
  · obtain ⟨a, ha, hlow, hhigh⟩ := hi
    have haddrs := hf.top.addrs
    have hscalars := hf.top.scalars
    rcases List.mem_append.mp ha with ha | ha
    · have := hf.constantBlocks a ha
      exact .inl (by omega)
    · have := (hf.topBlocks a ha).1
      exact .inr (by omega)

theorem runs_workOps (hf : f.Layout shape used) (hm : m.InFrame f shape set) :
    m.Runs f (workOps f m) :=
  fun op hop => Member.staysIn_of_laneWise hf hm (laneWise_workOps hf op hop)

theorem runs_gatherOps (hf : f.Layout shape used) (hm : m.InFrame f shape set) :
    m.Runs f (NodeValues.gatherOps f m.workSet m.chunk) := by
  obtain ⟨hindex, hbatch⟩ := hf.toNat_indexBlock hm.chunk_lt
  obtain ⟨⟨hnodes, -, -, hgather, -⟩, hset⟩ := Member.workSet_at hf hm
  have hlength : WorkSet.length = 5 * laneCount := rfl
  obtain ⟨hle, hle'⟩ := hf.indices_le
  have hlt := hf.stop_lt
  have hnodesAt : f.header.nodesAt.toNat < f.indices.toNat :=
    hf.header _ (by simp [HeaderRegs.words])
  have hgather_lane {l : Nat} (hl : l < laneCount) :
      (m.workSet.gather.offset l).toNat = m.workSet.gather.toNat + l :=
    Addr.toNat_offset (by omega)
  have hnodes_lane {l : Nat} (hl : l < laneCount) :
      (m.workSet.nodes.offset l).toNat = m.workSet.nodes.toNat + l :=
    Addr.toNat_offset (by omega)
  have hindex_lane {l : Nat} (hl : l < laneCount) :
      ((f.indexBlock m.chunk).offset l).toNat = (f.indexBlock m.chunk).toNat + l :=
    Addr.toNat_offset (by omega)
  intro op hop
  rcases List.mem_append.mp hop with hop | hop
  · obtain ⟨l, hl, rfl⟩ := List.mem_map.mp hop
    have hl : l < laneCount := List.mem_range.mp hl
    refine ⟨rfl, trivial, fun a ha => ?_, fun a ha => ?_⟩
    · obtain rfl := List.mem_singleton.mp ha
      exact .inl (by rw [hgather_lane hl]; omega)
    · rcases List.mem_pair.mp ha with rfl | rfl
      · exact .inr (.inl hnodesAt)
      · exact .inl (.inr (.inl (by rw [hindex_lane hl]; omega)))
  · obtain ⟨l, hl, rfl⟩ := List.mem_map.mp hop
    have hl : l < laneCount := List.mem_range.mp hl
    refine ⟨rfl, trivial, fun a ha => ?_, fun a ha => ?_⟩
    · obtain rfl := List.mem_singleton.mp ha
      exact .inl (by rw [hnodes_lane hl]; omega)
    · obtain rfl := List.mem_singleton.mp ha
      exact .inl (.inl (by rw [hgather_lane hl]; omega))

theorem laneWise_mono_workBlocks {op : Op} (h : op.LaneWise m.workBlocks
    ([f.indexBlock m.chunk, f.valueBlock m.chunk] ++ f.sharedBlocks)) :
    op.LaneWise (m.ownBlocks f) f.sharedBlocks := by
  have hmem {a : Addr} (ha : a ∈ m.workBlocks ++
      ([f.indexBlock m.chunk, f.valueBlock m.chunk] ++ f.sharedBlocks)) :
      a ∈ m.ownBlocks f ++ f.sharedBlocks := by
    rwa [Member.ownBlocks_eq, List.append_assoc]
  have hdest {d : Addr} (hd : d ∈ m.workBlocks) : d ∈ m.ownBlocks f := by
    rw [Member.ownBlocks_eq]
    exact List.mem_append_left _ hd
  match op, h with
  | .valu (.binary code dest a b), ⟨hcode, hd, ha, hb⟩ =>
    exact ⟨hcode, hdest hd, hmem ha, hmem hb⟩
  | .valu (.multiplyAdd dest a b c), ⟨hd, ha, hb, hc⟩ =>
    exact ⟨hdest hd, hmem ha, hmem hb, hmem hc⟩

theorem runs_nodeValueOps (hf : f.Layout shape used) (hm : m.InFrame f shape set) :
    m.Runs f (nodeValueOps f m) := by
  rcases nodeValueOps_cases f m with ⟨-, hops⟩ | ⟨n1, n2, -, hlevel, hops⟩ |
    ⟨n0, n1, n2, n3, -, hlevel, hops⟩ | ⟨hops, -⟩
  · have hnodes_mem : m.workSet.nodes ∈ m.ownBlocks f := by simp [Member.ownBlocks]
    have hfit : m.workSet.nodes.FitsBlock :=
      Nat.le_trans (Member.block_le hf hm _ (List.mem_append_left _ hnodes_mem))
        (Nat.le_of_lt hf.stop_lt)
    intro op hop
    rw [hops] at hop
    obtain rfl := List.mem_singleton.mp hop
    refine ⟨rfl, hfit, fun a ha => ?_, fun a ha => ?_⟩
    · exact Member.own_of_covered hf hm (Addr.covered_of_mem_block hnodes_mem hfit ha)
    · obtain rfl := List.mem_singleton.mp ha
      rw [TopNodes.node, Addr.offset_zero]
      exact .inr (.inr (Nat.le_refl _))
  · exact fun op hop => Member.staysIn_of_laneWise hf hm (laneWise_mono_workBlocks
      ((onLanes_level1Ops hf hm hlevel fun _ => 0).1 op (hops ▸ hop)))
  · exact fun op hop => Member.staysIn_of_laneWise hf hm (laneWise_mono_workBlocks
      ((onLanes_level2Ops hf hm hlevel fun _ => 0).1 op (hops ▸ hop)))
  · rw [hops]
    exact runs_gatherOps hf hm

theorem runs_passOps (hf : f.Layout shape used) (hm : m.InFrame f shape set) :
    m.Runs f (passOps f m) := by
  intro op hop
  rcases List.mem_append.mp hop with hop | hop
  · exact runs_nodeValueOps hf hm op hop
  · exact runs_workOps hf hm op hop

end Footprint

end RoundLoop

end TreeWalk
