import TreeWalk.Proofs.PassMeaning
import TreeWalk.Proofs.Transfers

/-!
# Loading the top of the tree

The addresses of the top nodes are worked out, the nodes are loaded into scalars, and those that
blends read are copied to vector blocks.
-/

namespace TreeWalk

theorem pairwise_zipIdx {α : Type} (xs : List α) : xs.zipIdx.Pairwise fun x y => x.2 < y.2 := by
  have hlt : (List.range' 0 xs.length).Pairwise (· < ·) := List.pairwise_lt_range'
  rw [← List.zipIdx_map_snd 0 xs] at hlt
  exact List.pairwise_map.mp hlt

theorem Contents.lane_eq_of_getElem? {s : Contents} {a : Addr} {l : Nat} {w : Word}
    (h : s.scratch[a.toNat + l]? = some w) : s.lane l a = w := by
  rw [lane, Array.getD_eq_getD_getElem?, h, Option.getD_some]

namespace TopNodes

/-- The vector blocks with the number of the node that is copied to each. -/
def copies (t : TopNodes) : List (Addr × Nat) :=
  (match t.level1 with
    | some (n1, n2) => [(n1, 1), (n2, 2)]
    | none => []) ++
  (match t.level2 with
    | some (n0, n1, n2, n3) => [(n0, 3), (n1, 4), (n2, 5), (n3, 6)]
    | none => [])

theorem map_fst_copies (t : TopNodes) : t.copies.map (·.1) = t.blocks := by
  unfold copies blocks
  rcases t.level1 with _ | ⟨n1, n2⟩ <;> rcases t.level2 with _ | ⟨n0, n1, n2, n3⟩ <;> rfl

theorem three_le_count {t : TopNodes} (h : 1 ≤ t.depth) : 3 ≤ t.count := by
  have hpow : 2 ^ 2 ≤ 2 ^ (t.depth + 1) := Nat.pow_le_pow_right (by decide) (by omega)
  rw [count, countFor_eq]
  omega

theorem seven_le_count {t : TopNodes} (h : 2 ≤ t.depth) : 7 ≤ t.count := by
  have hpow : 2 ^ 3 ≤ 2 ^ (t.depth + 1) := Nat.pow_le_pow_right (by decide) (by omega)
  rw [count, countFor_eq]
  omega

section Layout

variable {f : Frame} {shape : FrameShape} {used : Nat}

theorem lt_count_of_mem_copies (hf : f.Layout shape used) {x : Addr × Nat}
    (hx : x ∈ f.top.copies) : x.2 < f.top.count := by
  obtain ⟨-, -, -, hlevel1, hlevel2, -⟩ := hf.top
  rcases List.mem_append.mp hx with hx | hx
  · cases hl : f.top.level1 with
    | none => simp [hl] at hx
    | some blocks =>
      simp only [hl] at hlevel1 hx
      have hcount := three_le_count hlevel1.1
      have hlt : x.2 < 3 := by
        rcases List.mem_pair.mp hx with rfl | rfl <;> simp
      exact Nat.lt_of_lt_of_le hlt hcount
  · cases hl : f.top.level2 with
    | none => simp [hl] at hx
    | some blocks =>
      simp only [hl] at hlevel2 hx
      have hcount := seven_le_count hlevel2.1
      have hlt : x.2 < 7 := by
        simp only [List.mem_cons, List.not_mem_nil, or_false] at hx
        rcases hx with rfl | rfl | rfl | rfl <;> simp
      exact Nat.lt_of_lt_of_le hlt hcount

theorem pairwise_blocks (hf : f.Layout shape used) : f.top.blocks.Pairwise Addr.BlocksApart := by
  obtain ⟨-, -, -, hlevel1, hlevel2, -⟩ := hf.top
  unfold blocks
  cases hl1 : f.top.level1 with
  | none =>
    have hshallow : f.top.level2 = none := by
      cases hl2 : f.top.level2 with
      | none => rfl
      | some blocks =>
        simp only [hl1] at hlevel1
        simp only [hl2] at hlevel2
        omega
    simp [hshallow]
  | some pair =>
    obtain ⟨m1, m2⟩ := pair
    simp only [hl1] at hlevel1
    obtain ⟨-, hm1, hm2⟩ := hlevel1
    cases hl2 : f.top.level2 with
    | none => simp [Addr.BlocksApart, hm1, hm2]
    | some quad =>
      obtain ⟨n0, n1, n2, n3⟩ := quad
      simp only [hl2] at hlevel2
      obtain ⟨-, hn0, hn1, hn2, hn3⟩ := hlevel2
      simp only [List.cons_append, List.nil_append, List.pairwise_cons, List.mem_cons,
        List.not_mem_nil, or_false, forall_eq_or_imp, forall_eq, Addr.BlocksApart,
        List.Pairwise.nil, and_true, IsEmpty.forall_iff, implies_true]
      omega

end Layout

end TopNodes

namespace NodeValues

def topAddrOps (f : Frame) : List Op :=
  f.topOffsets.zipIdx.map fun (offset, i) =>
    Op.scalar .add (f.top.addrs.offset i) f.header.nodesAt offset

def topLoadOps (f : Frame) : List Op :=
  (List.range f.top.count).map fun i =>
    Op.loadWord (f.top.scalars.offset i) (f.top.addrs.offset i)

theorem preloadOps_eq (f : Frame) :
    preloadOps f = topAddrOps f ++ (topLoadOps f ++
      f.top.copies.map fun x => Op.broadcast x.1 (f.top.node x.2)) := by
  have hlevels : (f.top.copies.map fun x => Op.broadcast x.1 (f.top.node x.2)) =
      (match f.top.level1 with
        | some (n1, n2) => [Op.broadcast n1 (f.top.node 1), .broadcast n2 (f.top.node 2)]
        | none => []) ++
      (match f.top.level2 with
        | some (n0, n1, n2, n3) =>
          [Op.broadcast n0 (f.top.node 3), .broadcast n1 (f.top.node 4),
           .broadcast n2 (f.top.node 5), .broadcast n3 (f.top.node 6)]
        | none => []) := by
    unfold TopNodes.copies
    rcases f.top.level1 with _ | ⟨n1, n2⟩ <;>
      rcases f.top.level2 with _ | ⟨n0, n1, n2, n3⟩ <;> rfl
  have hassoc (a b c d : List Op) : a ++ b ++ c ++ d = a ++ (b ++ (c ++ d)) := by simp
  rw [hlevels]
  exact hassoc (topAddrOps f) (topLoadOps f) _ _

section Run

variable {f : Frame} {shape : FrameShape} {used : Nat} {mem : Array Word} {s : Contents}
  {layout : Image.Layout}

theorem toNat_top (hf : f.Layout shape used) {i : Nat} (hi : i < f.top.count) :
    (f.top.node i).toNat = f.top.scalars.toNat + i ∧
      (f.top.addrs.offset i).toNat = f.top.scalars.toNat + f.top.count + i := by
  have hscalars := hf.top.scalars
  have haddrs := hf.top.addrs
  obtain ⟨hle, hle'⟩ := hf.indices_le
  have hlt := hf.stop_lt
  refine ⟨Addr.toNat_offset (by omega), ?_⟩
  rw [Addr.toNat_offset (by omega)]
  omega

theorem execute_topAddrOps (hf : f.Layout shape used) (hlength : f.topOffsets.length = f.top.count)
    (hready : f.Ready mem s) (hs : used ≤ s.scratch.size) :
    ∃ t, execute (topAddrOps f) s = some t ∧
      Contents.DiffersIn (fun i => f.top.scalars.toNat ≤ i ∧ i < f.transferAddrs.toNat) s t ∧
      ∀ i < f.top.count,
        t.word (f.top.addrs.offset i) = s.word f.header.nodesAt + UInt32.ofNat i := by
  obtain ⟨hle, hle'⟩ := hf.indices_le
  have hscalars := hf.top.scalars
  have hlt := hf.stop_lt
  have hnodesAt : f.header.nodesAt.toNat < f.indices.toNat :=
    hf.header _ (by simp [HeaderRegs.words])
  let fill (x : Addr × Nat) : Filling :=
    .sum s (f.top.addrs.offset x.2) f.header.nodesAt x.1 (UInt32.ofNat x.2)
  have hentry {x : Addr × Nat} (hx : x ∈ f.topOffsets.zipIdx) :
      f.topOffsets[x.2]? = some x.1 ∧ x.2 < f.top.count := by
    have hget := List.mem_zipIdx_iff_getElem?.mp hx
    exact ⟨hget, hlength ▸ (List.getElem?_eq_some_iff.mp hget).1⟩
  have hworks : ∀ x ∈ f.topOffsets.zipIdx, (fill x).Works
      (fun i => f.top.scalars.toNat ≤ i ∧ i < f.transferAddrs.toNat) s := by
    intro x hx
    obtain ⟨hget, hi⟩ := hentry hx
    have hoffset : x.1.toNat < f.indices.toNat := hf.topOffsets _ (List.mem_of_getElem? hget)
    have hdest := (toNat_top hf hi).2
    exact Filling.sum_works (by omega) (by omega) ⟨by omega, by omega⟩ (by omega) (by omega)
      (hready.topOffsets x.2 x.1 hget)
  obtain ⟨t, ht, hdiffers, hwords⟩ := execute_map_fillings (by omega) hworks
    (fun x hx => by
      have hdest := (toNat_top hf (hentry hx).2).2
      have hi := (hentry hx).2
      simp only [fill, Filling.sum]
      omega)
    ((pairwise_zipIdx _).imp_of_mem fun {x y} hx hy hxy => by
      have hdest := (toNat_top hf (hentry hx).2).2
      have hdest' := (toNat_top hf (hentry hy).2).2
      simp only [Filling.Apart, fill, Filling.sum]
      omega)
  refine ⟨t, ht, hdiffers, fun i hi => ?_⟩
  obtain ⟨offset, hget⟩ : ∃ offset, f.topOffsets[i]? = some offset :=
    ⟨_, List.getElem?_eq_getElem (hlength ▸ hi)⟩
  exact Contents.lane_eq_of_getElem?
    (hwords (offset, i) (List.mem_zipIdx_iff_getElem?.mpr hget) 0 Nat.zero_lt_one)

theorem execute_topLoadOps (hf : f.Layout shape used) (hs : used ≤ s.scratch.size)
    {node : Nat → Word}
    (hnode : ∀ i < f.top.count, s.mem[(s.word (f.top.addrs.offset i)).toNat]? = some (node i)) :
    ∃ t, execute (topLoadOps f) s = some t ∧
      Contents.DiffersIn (fun i => f.top.scalars.toNat ≤ i ∧ i < f.transferAddrs.toNat) s t ∧
      ∀ i < f.top.count, t.word (f.top.node i) = node i := by
  obtain ⟨hle, hle'⟩ := hf.indices_le
  have hscalars := hf.top.scalars
  have hlt := hf.stop_lt
  let fill (i : Nat) : Filling :=
    ⟨.loadWord (f.top.node i) (f.top.addrs.offset i), (f.top.node i).toNat, 1, fun _ => node i⟩
  have hworks : ∀ i ∈ List.range f.top.count, (fill i).Works
      (fun i => f.top.scalars.toNat ≤ i ∧ i < f.top.scalars.toNat + f.top.count) s := by
    intro i hi u hu
    obtain ⟨hdest, haddr⟩ := toNat_top hf (List.mem_range.mp hi)
    have hi := List.mem_range.mp hi
    have hword : u.word (f.top.addrs.offset i) = s.word (f.top.addrs.offset i) :=
      hu.lane (by omega)
    have hexec := execute_loadWord (s := u) (d := f.top.node i) (a := f.top.addrs.offset i)
      (hu.holds.mpr ⟨by omega, by omega⟩) (hu.holds.mpr ⟨by omega, by omega⟩)
    rw [hword, hu.mem, hnode i hi, Option.map_some] at hexec
    exact hexec
  obtain ⟨t, ht, hdiffers, hwords⟩ := execute_map_fillings (by omega) hworks
    (fun i hi => by
      have hdest := (toNat_top hf (List.mem_range.mp hi)).1
      have hi := List.mem_range.mp hi
      simp only [fill]
      omega)
    (List.pairwise_lt_range.imp_of_mem fun {i j} hi hj hij => by
      have hdest := (toNat_top hf (List.mem_range.mp hi)).1
      have hdest' := (toNat_top hf (List.mem_range.mp hj)).1
      simp only [Filling.Apart, fill]
      omega)
  exact ⟨t, ht, hdiffers.mono fun i hi => by omega, fun i hi =>
    Contents.lane_eq_of_getElem? (hwords i (List.mem_range.mpr hi) 0 Nat.zero_lt_one)⟩

theorem execute_copies (hf : f.Layout shape used) (hs : used ≤ s.scratch.size) {node : Nat → Word}
    (hnode : ∀ i < f.top.count, s.word (f.top.node i) = node i) :
    ∃ t, execute (f.top.copies.map fun x => Op.broadcast x.1 (f.top.node x.2)) s = some t ∧
      Contents.DiffersIn (fun i => f.top.scalars.toNat ≤ i ∧ i < f.transferAddrs.toNat) s t ∧
      f.top.Loaded node t := by
  obtain ⟨hle, hle'⟩ := hf.indices_le
  have hscalars := hf.top.scalars
  have haddrs := hf.top.addrs
  have hlt := hf.stop_lt
  let fill (x : Addr × Nat) : Filling :=
    ⟨.broadcast x.1 (f.top.node x.2), x.1.toNat, laneCount, fun _ => node x.2⟩
  have hblock {x : Addr × Nat} (hx : x ∈ f.top.copies) :
      f.top.addrs.toNat + f.top.count ≤ x.1.toNat ∧
        x.1.toNat + laneCount ≤ f.transferAddrs.toNat :=
    hf.topBlocks x.1 (f.top.map_fst_copies ▸ List.mem_map_of_mem hx)
  have hworks : ∀ x ∈ f.top.copies, (fill x).Works
      (fun i => f.top.addrs.toNat + f.top.count ≤ i ∧ i < f.transferAddrs.toNat) s := by
    intro x hx u hu
    obtain ⟨hlow, hhigh⟩ := hblock hx
    have hi := TopNodes.lt_count_of_mem_copies hf hx
    have hsource := (toNat_top hf hi).1
    have hword : u.word (f.top.node x.2) = s.word (f.top.node x.2) := hu.lane (by omega)
    have hexec := execute_broadcast (s := u) (d := x.1) (a := f.top.node x.2)
      (hu.holds.mpr ⟨by omega, by omega⟩) (hu.holds.mpr ⟨by omega, by omega⟩)
    rw [hword, hnode x.2 hi] at hexec
    exact hexec
  have hapart : f.top.copies.Pairwise fun x y => (fill x).Apart (fill y) := by
    have hblocks := TopNodes.pairwise_blocks hf
    rw [← f.top.map_fst_copies, List.pairwise_map] at hblocks
    exact hblocks
  obtain ⟨t, ht, hdiffers, hwords⟩ :=
    execute_map_fillings (Nat.le_trans hle' hs) hworks (fun x hx => hblock hx) hapart
  have hcopy (a : Addr) (i : Nat) (ha : (a, i) ∈ f.top.copies) : ∀ l < laneCount,
      t.lane l a = node i := fun l hl => Contents.lane_eq_of_getElem? (hwords (a, i) ha l hl)
  refine ⟨t, ht, hdiffers.mono fun i hi => by omega, fun i hi => ?_,
    fun n1 n2 hlevel l hl => ?_, fun n0 n1 n2 n3 hlevel l hl => ?_⟩
  · have hdest := (toNat_top hf hi).1
    rw [← hnode i hi]
    exact hdiffers.lane (by omega)
  · have hcopies : ∀ x ∈ [(n1, 1), (n2, 2)], x ∈ f.top.copies :=
      fun x hx => List.mem_append_left _ (by simpa [hlevel] using hx)
    exact ⟨hcopy n1 1 (hcopies _ (by simp)) l hl, hcopy n2 2 (hcopies _ (by simp)) l hl⟩
  · have hcopies : ∀ x ∈ [(n0, 3), (n1, 4), (n2, 5), (n3, 6)], x ∈ f.top.copies :=
      fun x hx => List.mem_append_right _ (by simpa [hlevel] using hx)
    exact ⟨hcopy n0 3 (hcopies _ (by simp)) l hl, hcopy n1 4 (hcopies _ (by simp)) l hl,
      hcopy n2 5 (hcopies _ (by simp)) l hl, hcopy n3 6 (hcopies _ (by simp)) l hl⟩

/-- All top nodes come into their registers. -/
theorem execute_preloadOps (hf : f.Layout shape used)
    (hlength : f.topOffsets.length = f.top.count) (hready : f.Ready mem s) (hmem : s.mem = mem)
    (hw : Image.InBounds layout mem) (hcount : f.top.count ≤ layout.nodeCount)
    (hs : used ≤ s.scratch.size) :
    ∃ t, execute (preloadOps f) s = some t ∧
      Contents.DiffersIn (fun i => f.top.scalars.toNat ≤ i ∧ i < f.transferAddrs.toNat) s t ∧
      f.top.Loaded (fun i => mem.getD (layout.nodesAt + i) 0) t := by
  obtain ⟨t₁, h₁, hdiffers₁, haddrs⟩ := execute_topAddrOps hf hlength hready hs
  have hnode : ∀ i < f.top.count, t₁.mem[(t₁.word (f.top.addrs.offset i)).toNat]? =
      some (mem.getD (layout.nodesAt + i) 0) := by
    intro i hi
    have hnodes := hw.nodes
    have hsize := hw.size_le
    have hnat : (s.word f.header.nodesAt + UInt32.ofNat i).toNat = layout.nodesAt + i := by
      rw [UInt32.toNat_add, hready.nodesAt hw.header, UInt32.toNat_ofNat_of_lt' (by
        simp only [UInt32.size]
        omega)]
      exact Nat.mod_eq_of_lt (by omega)
    rw [haddrs i hi, hnat, hdiffers₁.mem, hmem]
    simp [show layout.nodesAt + i < mem.size by omega]
  obtain ⟨t₂, h₂, hdiffers₂, hscalars⟩ :=
    execute_topLoadOps hf (hdiffers₁.size.symm ▸ hs) hnode
  have hdiffers := hdiffers₁.trans hdiffers₂
  obtain ⟨t₃, h₃, hdiffers₃, hloaded⟩ := execute_copies hf (hdiffers.size.symm ▸ hs) hscalars
  refine ⟨t₃, ?_, hdiffers.trans hdiffers₃, hloaded⟩
  rw [preloadOps_eq, execute_append, h₁, Option.bind_some, execute_append, h₂, Option.bind_some, h₃]

end Run

end NodeValues

end TreeWalk
