import TreeWalk.Proofs.BodyWrites
import TreeWalk.Proofs.ConstantPool
import TreeWalk.Proofs.EncodedImage
import TreeWalk.Proofs.KernelRun

/-!
# Node values are nodes of the tree

Once the frame is set up and the top of the tree and the batch are loaded, the node values of a
chunk are the nodes that its lanes stand at, on every level: at the root, where they are blended
from registers, and where each lane loads its own.
-/

namespace TreeWalk

namespace Image

/-- The image is accepted, and its nodes are those of the tree. -/
structure OfTree (tree : Tree) (layout : Layout) (mem : Array Word) : Prop where
  decode_eq : decode mem = .ok layout
  height : layout.height = tree.height
  nodes : mem.extract layout.nodesAt (layout.nodesAt + layout.nodeCount) = tree.values

variable {tree : Tree} {layout : Layout} {mem : Array Word} {depth : Nat} {index : Word}

theorem ofTree_encode {b : Batch} (hpaired : b.indices.length = b.values.length)
    (hcomplete : Tree.nodeCount? tree.height = some tree.size)
    (hsize : (encode tree b).size ≤ Word.maxSize) :
    OfTree tree (layoutFor tree { b with rounds := b.rounds % 2 ^ 32 }) (encode tree b) :=
  ⟨decode_encode_mod hpaired hcomplete hsize, rfl, extract_encode_nodes hpaired⟩

theorem InBounds.lt_nodeCount (h : InBounds layout mem) (hdepth : depth ≤ layout.height)
    (hindex : OnLevel depth index) : index.toNat < layout.nodeCount := by
  have hpow : 2 ^ (depth + 1) ≤ 2 ^ (layout.height + 1) :=
    Nat.pow_le_pow_right (by decide) (Nat.succ_le_succ hdepth)
  have hhigh := hindex.2
  rw [h.nodeCount]
  omega

theorem OfTree.getElem?_values (h : OfTree tree layout mem) (hin : InBounds layout mem) {i : Nat}
    (hi : i < layout.nodeCount) : tree.values[i]? = some (mem.getD (layout.nodesAt + i) 0) := by
  have hnodes := hin.nodes
  rw [← h.nodes, Array.getElem?_extract_of_lt (by omega)]
  simp [show layout.nodesAt + i < mem.size by omega]

end Image

def WorkSet.registers (w : WorkSet) : List Addr := [w.nodes, w.left, w.right, w.gather, w.spare]

namespace RoundLoop

variable {f : Frame} {shape : FrameShape} {used set : Nat} {m : Member} {s : Contents}
  {mem : Array Word} {layout : Image.Layout}

theorem Member.covered_of_works (hf : f.Layout shape used) (hm : m.InFrame f shape set) {i : Nat}
    (h : m.Works i) : Addr.Covered m.workSet.registers i := by
  obtain ⟨⟨hnodes, hleft, hright, hgather, hspare⟩, -⟩ := Member.workSet_at hf hm
  have hlength : WorkSet.length = 5 * laneCount := rfl
  obtain ⟨hlow, hhigh⟩ := h
  simp only [Addr.Covered, WorkSet.registers, List.mem_cons, List.not_mem_nil, or_false,
    exists_eq_or_imp, exists_eq_left]
  omega

/-- In a primed frame the node values of a pass are there, and each is the node of its lane. -/
theorem execute_nodeValueOps_of_primed (h : f.Primed layout mem s) (hf : f.Layout shape used)
    (hm : m.InFrame f shape set) (hin : Image.InBounds layout mem)
    (hdepth : m.depth ≤ layout.height) (hs : used ≤ s.scratch.size)
    (hlevel : ∀ l < laneCount, Image.OnLevel m.depth (s.lane l (f.indexBlock m.chunk))) :
    ∃ u, execute (nodeValueOps f m) s = some u ∧
      Contents.DiffersIn (Addr.Covered m.workSet.registers) s u ∧
      ∀ l < laneCount, u.lane l m.workSet.nodes =
        mem.getD (layout.nodesAt + (s.lane l (f.indexBlock m.chunk)).toNat) 0 := by
  have hnode : ∀ l < laneCount, m.node f s l =
      some (mem.getD (layout.nodesAt + (s.lane l (f.indexBlock m.chunk)).toNat) 0) :=
    fun l hl => h.node_eq hin hl rfl (hlevel l hl) (hin.lt_nodeCount hdepth (hlevel l hl))
  obtain ⟨hnone, hsome⟩ := RoundLoop.execute_nodeValueOps hf hm hs
  cases hu : execute (nodeValueOps f m) s with
  | none =>
    obtain ⟨l, hl, hmissing⟩ := hnone.mp hu
    rw [hnode l hl] at hmissing
    cases hmissing
  | some u =>
    obtain ⟨hdiffers, hlanes⟩ := hsome u hu
    refine ⟨u, rfl, hdiffers.mono fun i => Member.covered_of_works hf hm, fun l hl => ?_⟩
    exact (Option.some.inj ((hnode l hl).symm.trans (hlanes l hl))).symm

end RoundLoop

/-- Whatever the loads of the batch bring in, they leave constants and top nodes alone. -/
theorem Frame.Primed.of_execute_loadOps {f : Frame} {shape : FrameShape} {used : Nat}
    {layout : Image.Layout} {mem : Array Word} {s t : Contents} (h : f.Primed layout mem s)
    (hf : f.Layout shape used) (hlength : f.chunkOffsets.length = f.chunks)
    (ht : execute (BatchTransfer.loadOps f) s = some t) :
    t.scratch.size = s.scratch.size ∧ f.Primed layout mem t := by
  obtain ⟨hle, -⟩ := hf.indices_le
  have hscalars := hf.top.scalars
  have hdiffers : Contents.DiffersIn _ s t :=
    .of_execute (fun op hop => (BatchTransfer.isPlain_loadOps hf op hop).1) ht
  have hskips {i : Nat} (hi : Addr.Among (written (BatchTransfer.loadOps f)) i) :
      f.indices.toNat ≤ i ∧ (i < f.top.scalars.toNat ∨ f.transferAddrs.toNat ≤ i) := by
    obtain ⟨a, ha, rfl⟩ := hi
    obtain ⟨op, hop, ha⟩ := mem_written.mp ha
    rcases BatchTransfer.skipsTop_loadOps hf hlength op hop with hwrites | hwrites
    · have := hwrites a ha
      omega
    · have := hwrites a ha
      omega
  refine ⟨hdiffers.size, h.of_differs hf hdiffers (fun i hi hw => ?_) fun i hi hi' hw => ?_⟩
  · have := hskips hw
    omega
  · have := hskips hw
    omega

/-- Node values are looked up in the tree. Take a frame for the height of a tree, laid out behind
any reservations and constants, an image of the tree that can be addressed, and scratch that holds
the frame. Wherever the setup, the loads of the top nodes and those of the batch go well, and a
chunk's lanes are all on one level, the node value code of that level goes well in every work set,
leaves for each lane the node at its index, and changes only the registers of the work set. Setup
and loads do go well if the image has all lanes of the frame, and then the index registers hold its
indices. -/
theorem node_values_are_tree_nodes {capacity : Nat} (hcapacity : capacity < 2 ^ 32)
    {d₀ d : Draft} (hd₀ : Draft.Assembled capacity d₀) {shape : FrameShape} {f : Frame}
    (hreserve : Draft.perform (Frame.reserve shape) d₀ = (.ok f, d)) {tree : Tree}
    (hheight : shape.height = tree.height) {layout : Image.Layout} {mem : Array Word}
    (hsize : mem.size ≤ 2 ^ 32) (himage : Image.OfTree tree layout mem) {s : Contents}
    (hs : d.used ≤ s.scratch.size) (hmem : s.mem = mem) :
    (∀ t, execute (d.pending.toList ++ NodeValues.preloadOps f ++ BatchTransfer.loadOps f) s =
        some t →
      ∀ chunk < f.chunks, ∀ w ∈ f.workSets, ∀ depth ≤ tree.height,
        (∀ l < laneCount, Image.OnLevel depth (t.lane l (f.indexBlock chunk))) →
        ∃ u, execute (NodeValues.ops f w chunk depth) t = some u ∧
          (∀ l < laneCount, tree.values[(t.lane l (f.indexBlock chunk)).toNat]? =
            some (u.lane l w.nodes)) ∧
          Contents.DiffersIn (Addr.Covered w.registers) t u) ∧
    (shape.batch ≤ layout.batch →
      ∃ t, execute (d.pending.toList ++ NodeValues.preloadOps f ++ BatchTransfer.loadOps f) s =
          some t ∧
        ∀ chunk < f.chunks, ∀ l < laneCount,
          mem[layout.indicesAt + (chunk * laneCount + l)]? =
            some (t.lane l (f.indexBlock chunk))) := by
  obtain ⟨-, hkept, hf, hset⟩ :=
    Frame.reserve_spec (hd₀.kept hcapacity HeaderRegs.wordCount) hreserve
  have hset := hset trivial
  have hoffsets : f.chunkOffsets.length = f.chunks := hset.chunkOffsets_length.trans hf.chunks.symm
  have hin := Image.inBounds_of_decode himage.decode_eq hsize
  -- the setup and the top of the tree
  obtain ⟨r, hr, hdiffers, hready⟩ := Kernel.execute_setup (hkept.tracked trivial) hset hs
    (hmem ▸ Nat.le_trans (by decide) hin.header_le)
  have hs_r : d.used ≤ r.scratch.size := hdiffers.size.symm ▸ hs
  obtain ⟨p, hp, hsize_p, hprimed⟩ := NodeValues.execute_preload hf hset (hmem ▸ hready)
    (hdiffers.mem.trans hmem) hin (himage.height.trans hheight.symm) hs_r
  have hs_p : d.used ≤ p.scratch.size := hsize_p.symm ▸ hs_r
  have hrun : execute (d.pending.toList ++ NodeValues.preloadOps f ++ BatchTransfer.loadOps f) s =
      execute (BatchTransfer.loadOps f) p := by
    rw [execute_append, execute_append, hr, Option.bind_some, hp, Option.bind_some]
  rw [hrun]
  refine ⟨fun t ht chunk hchunk w hw depth hdepth hlevel => ?_, fun hbatch => ?_⟩
  · obtain ⟨hsize_t, hprimed_t⟩ := hprimed.of_execute_loadOps hf hoffsets ht
    obtain ⟨set, hlt, rfl⟩ := List.mem_iff_getElem.mp hw
    have hget : f.workSet set = f.workSets[set] := by simp [Frame.workSet, hlt]
    have hm : (⟨f.workSets[set], chunk, depth⟩ : RoundLoop.Member).InFrame f shape set :=
      ⟨hf.chunks ▸ hchunk, hf.workSets_length ▸ hlt, hget.symm⟩
    have hdepth' : depth ≤ layout.height := himage.height ▸ hdepth
    obtain ⟨u, hu, hdiffers, hlanes⟩ := RoundLoop.execute_nodeValueOps_of_primed hprimed_t hf hm
      hin hdepth' (hsize_t.symm ▸ hs_p) hlevel
    refine ⟨u, hu, fun l hl => ?_, hdiffers⟩
    rw [hlanes l hl]
    exact himage.getElem?_values hin (hin.lt_nodeCount hdepth' (hlevel l hl))
  · obtain ⟨t, ht, -, hwalked⟩ :=
      BatchTransfer.execute_loadOps hf hoffsets hprimed hin hbatch hs_p
    refine ⟨t, ht, fun chunk hchunk l hl => ?_⟩
    have hloaded : t.lane l (f.indexBlock chunk) =
        mem.getD (layout.indicesAt + (chunk * laneCount + l)) 0 :=
      congrArg Prod.fst (hwalked.lanes chunk hchunk l hl)
    have hlane := (hf.toNat_indexBlock (hf.chunks ▸ hchunk)).2
    have hindices := hin.indices
    have hlt : layout.indicesAt + (chunk * laneCount + l) < mem.size := by omega
    simp [hloaded, hlt]

/-- Eight lanes at the leaves of a tree of height three, where each lane loads its own node. -/
theorem node_values_are_tree_nodes_leaves :
    let tree : Tree := ⟨3, #[2, 3, 5, 7, 11, 13, 17, 19, 23, 29, 31, 37, 41, 43, 47]⟩
    let b : Batch := ⟨[7, 8, 9, 10, 11, 12, 13, 14], List.replicate 8 0, 1⟩
    let s : Contents := ⟨0, Array.replicate 600 0, Image.encode tree b, #[]⟩
    ∃ f d w t u, Draft.perform (Frame.reserve ⟨3, 8, 1⟩) (.ofCapacity 600) = (.ok f, d) ∧
      f.workSets = [w] ∧
      execute (d.pending.toList ++ NodeValues.preloadOps f ++ BatchTransfer.loadOps f) s =
        some t ∧
      execute (NodeValues.ops f w 0 3) t = some u ∧
      ∀ l < laneCount, [19, 23, 29, 31, 37, 41, 43, 47][l]? = some (u.lane l w.nodes) := by
  intro tree b s
  obtain ⟨f, d, hreserve, hchunks, hlength⟩ :
      ∃ f d, Draft.Gives (Frame.reserve ⟨3, 8, 1⟩) (.ofCapacity 600) f d ∧
        f.chunks = 1 ∧ f.workSets.length = 1 :=
    Draft.exists_gives (by decide +kernel)
  obtain ⟨w, hw⟩ := List.length_eq_one_iff.mp hlength
  obtain ⟨-, hle⟩ := Frame.laidOut_of_reserve (by decide) hreserve
  have hused : d.used ≤ s.scratch.size := by simpa [s] using hle
  have himage : Image.OfTree tree _ (Image.encode tree b) :=
    Image.ofTree_encode rfl rfl (by decide +kernel)
  obtain ⟨hnodes, hloads⟩ := node_values_are_tree_nodes (show 600 < 2 ^ 32 by decide) .fresh
    hreserve rfl (by decide +kernel) himage hused rfl
  obtain ⟨t, ht, hlanes⟩ := hloads (by decide)
  have hindex : ∀ l < laneCount, t.lane l (f.indexBlock 0) = UInt32.ofNat (7 + l) := by
    intro l hl
    have hmem : ∀ l < laneCount, (Image.encode tree b)[23 + (0 * laneCount + l)]? =
        some (UInt32.ofNat (7 + l)) := by decide +kernel
    have hlane := hlanes 0 (by omega) l hl
    exact Option.some.inj (hlane.symm.trans (hmem l hl))
  have hlevel : ∀ l < laneCount, Image.OnLevel 3 (t.lane l (f.indexBlock 0)) := by
    intro l hl
    rw [hindex l hl]
    have hleaves : ∀ l < laneCount, 2 ^ 3 ≤ (UInt32.ofNat (7 + l)).toNat + 1 ∧
        (UInt32.ofNat (7 + l)).toNat + 1 < 2 ^ (3 + 1) := by decide
    exact hleaves l hl
  obtain ⟨u, hu, hvalues, -⟩ := hnodes t ht 0 (by omega) w (by simp [hw]) 3 (by decide) hlevel
  refine ⟨f, d, w, t, u, hreserve, hw, ht, hu, fun l hl => ?_⟩
  rw [← hvalues l hl, hindex l hl]
  have hsame : ∀ l < laneCount, [19, 23, 29, 31, 37, 41, 43, 47][l]? =
      tree.values[(UInt32.ofNat (7 + l)).toNat]? := by decide
  exact hsame l hl

end TreeWalk
