import TreeWalk.Proofs.PassLanes

/-!
# Work of a pass

Behind its node values a pass cannot fault. It changes its own blocks only, and every lane of its
chunk gets the next value and the next index.
-/

namespace TreeWalk

def Mix.Lowered.IsTotal : Mix.Lowered → Prop
  | .fused .. => True
  | .split left _ combine right _ =>
    left.isTotal = true ∧ combine.isTotal = true ∧ right.isTotal = true

def Mix.Form.IsTotal : Mix.Form → Prop
  | .fused .. => True
  | .split left _ combine right _ =>
    left.isTotal = true ∧ combine.isTotal = true ∧ right.isTotal = true

theorem Mix.Operator.isTotal_opcode (op : Mix.Operator) : op.opcode.isTotal = true := by
  cases op <;> rfl

theorem Mix.Form.isTotal_ofStage (stage : Mix.Stage) : (Mix.Form.ofStage stage).IsTotal := by
  unfold Mix.Form.ofStage
  split
  · trivial
  · exact ⟨Mix.Operator.isTotal_opcode _, Mix.Operator.isTotal_opcode _,
      Mix.Operator.isTotal_opcode _⟩

theorem Mix.Lowered.Carries.isTotal {P : Word → Addr → Prop} {form : Mix.Form}
    {low : Mix.Lowered} (h : low.Carries P form) (hform : form.IsTotal) : low.IsTotal := by
  cases form <;> cases low <;> simp only [Mix.Lowered.Carries] at h
  · trivial
  · obtain ⟨rfl, rfl, rfl, -, -⟩ := h
    exact hform

theorem Mix.Lowered.isTotal_of_carries {P : Word → Addr → Prop} {stages : List Mix.Stage}
    {lowered : List Mix.Lowered}
    (h : List.Forall₂ (Mix.Lowered.Carries P) (stages.map Mix.Form.ofStage) lowered) :
    ∀ low ∈ lowered, low.IsTotal := by
  induction stages generalizing lowered with
  | nil =>
    cases h
    simp
  | cons stage rest ih =>
    cases h with
    | cons hfirst hmore =>
      intro low hlow
      rcases List.mem_cons.mp hlow with rfl | hlow
      · exact hfirst.isTotal (Mix.Form.isTotal_ofStage stage)
      · exact ih hmore low hlow

theorem Mix.Lowered.laneWise_stageOps {own shared : List Addr} {values left right : Addr}
    {low : Mix.Lowered} (htotal : low.IsTotal) (hvalues : values ∈ own) (hleft : left ∈ own)
    (hright : right ∈ own) (hconst : ∀ a ∈ low.constants, a ∈ own ++ shared) :
    ∀ op ∈ low.stageOps values left right, op.LaneWise own shared := by
  have hown {a : Addr} (ha : a ∈ own) : a ∈ own ++ shared := List.mem_append_left _ ha
  intro op hop
  cases low with
  | fused multiplier addend =>
    obtain rfl := List.mem_singleton.mp hop
    exact ⟨hvalues, hown hvalues, hconst _ (by simp [constants]), hconst _ (by simp [constants])⟩
  | split leftOp leftValue combine rightOp rightValue =>
    obtain ⟨hl, hc, hr⟩ := htotal
    simp only [stageOps, parallelOps, combineOps, List.cons_append, List.nil_append, List.mem_cons,
      List.not_mem_nil, or_false] at hop
    rcases hop with rfl | rfl | rfl
    · exact ⟨hl, hleft, hown hvalues, hconst _ (by simp [constants])⟩
    · exact ⟨hr, hright, hown hvalues, hconst _ (by simp [constants])⟩
    · exact ⟨hc, hvalues, hown hleft, hown hright⟩

theorem IndexUpdate.laneWise_ops {f : Frame} {w : WorkSet} {chunk : Nat} {own shared : List Addr}
    (hindex : f.indexBlock chunk ∈ own) (hleft : w.left ∈ own)
    (hvalue : f.valueBlock chunk ∈ own ++ shared) (hone : f.one ∈ own ++ shared)
    (htwo : f.two ∈ own ++ shared) (hcount : f.nodeCount ∈ own ++ shared) :
    ∀ op ∈ IndexUpdate.ops f w chunk, op.LaneWise own shared := by
  have hown {a : Addr} (ha : a ∈ own) : a ∈ own ++ shared := List.mem_append_left _ ha
  intro op hop
  simp only [IndexUpdate.ops, List.mem_cons, List.not_mem_nil, or_false] at hop
  rcases hop with rfl | rfl | rfl | rfl | rfl | rfl
  · exact ⟨rfl, hleft, hvalue, hone⟩
  · exact ⟨rfl, hleft, hown hleft, hone⟩
  · exact ⟨rfl, hindex, hown hindex, htwo⟩
  · exact ⟨rfl, hindex, hown hindex, hown hleft⟩
  · exact ⟨rfl, hleft, hown hindex, hcount⟩
  · exact ⟨rfl, hindex, hown hindex, hown hleft⟩

namespace RoundLoop

section Work

variable {f : Frame} {shape : FrameShape} {used set : Nat} {m : Member} {s : Contents}

theorem Member.block_le (hf : f.Layout shape used) (hm : m.InFrame f shape set) :
    ∀ a ∈ m.ownBlocks f ++ f.sharedBlocks, a.toNat + laneCount ≤ used := by
  obtain ⟨hindex, hbatch⟩ := hf.toNat_indexBlock hm.chunk_lt
  have hvalue := hf.toNat_valueBlock hm.chunk_lt
  obtain ⟨⟨hnodes, hleft, hright, -, hspare⟩, hset⟩ := Member.workSet_at hf hm
  have hlength : WorkSet.length = 5 * laneCount := rfl
  obtain ⟨hle, hle'⟩ := hf.indices_le
  intro a ha
  rcases List.mem_append.mp ha with ha | ha
  · simp only [Member.ownBlocks, List.mem_cons, List.not_mem_nil, or_false] at ha
    rcases ha with rfl | rfl | rfl | rfl | rfl | rfl <;> omega
  · rcases List.mem_append.mp ha with ha | ha
    · have := hf.constantBlocks a ha
      omega
    · have := (hf.topBlocks a ha).2
      omega

theorem Member.holds (hf : f.Layout shape used) (hm : m.InFrame f shape set)
    (hs : used ≤ s.scratch.size) :
    ∀ a ∈ m.ownBlocks f ++ f.sharedBlocks, s.Holds a laneCount := by
  intro a ha
  have hle := Member.block_le hf hm a ha
  exact ⟨Nat.le_trans hle hs, Nat.le_trans hle (Nat.le_of_lt hf.stop_lt)⟩

theorem laneWise_workOps (hf : f.Layout shape used) :
    ∀ op ∈ workOps f m, op.LaneWise (m.ownBlocks f) f.sharedBlocks := by
  have hown {a : Addr} (ha : a ∈ m.ownBlocks f) : a ∈ m.ownBlocks f ++ f.sharedBlocks :=
    List.mem_append_left _ ha
  have hconst {a : Addr} (ha : a ∈ f.constantBlocks) : a ∈ m.ownBlocks f ++ f.sharedBlocks :=
    List.mem_append_right _ (List.mem_append_left _ ha)
  have hnodes : m.workSet.nodes ∈ m.ownBlocks f := by simp [Member.ownBlocks]
  have hleft : m.workSet.left ∈ m.ownBlocks f := by simp [Member.ownBlocks]
  have hright : m.workSet.right ∈ m.ownBlocks f := by simp [Member.ownBlocks]
  have hindex : f.indexBlock m.chunk ∈ m.ownBlocks f := by simp [Member.ownBlocks]
  have hvalue : f.valueBlock m.chunk ∈ m.ownBlocks f := by simp [Member.ownBlocks]
  have hone : f.one ∈ f.constantBlocks := by simp [Frame.constantBlocks]
  have htwo : f.two ∈ f.constantBlocks := by simp [Frame.constantBlocks]
  have hcount : f.nodeCount ∈ f.constantBlocks := by simp [Frame.constantBlocks]
  intro op hop
  rcases List.mem_cons.mp hop with rfl | hop
  · exact ⟨rfl, hvalue, hown hvalue, hown hnodes⟩
  rcases List.mem_append.mp hop with hop | hop
  · obtain ⟨low, hlow, hop⟩ := List.mem_flatMap.mp hop
    refine Mix.Lowered.laneWise_stageOps (Mix.Lowered.isTotal_of_carries hf.stages low hlow) hvalue
      hleft hright (fun a ha => ?_) op hop
    exact hconst (List.mem_append_right _ (List.mem_flatMap.mpr ⟨low, hlow, ha⟩))
  · exact IndexUpdate.laneWise_ops hindex hleft (hown hvalue) (hconst hone) (hconst htwo)
      (hconst hcount) op hop

theorem Member.own_of_covered (hf : f.Layout shape used) (hm : m.InFrame f shape set) {i : Nat}
    (h : Addr.Covered (m.ownBlocks f) i) : m.Own f i := by
  obtain ⟨⟨hnodes, hleft, hright, -, hspare⟩, -⟩ := Member.workSet_at hf hm
  have hlength : WorkSet.length = 5 * laneCount := rfl
  obtain ⟨a, ha, hi⟩ := h
  simp only [Member.ownBlocks, List.mem_cons, List.not_mem_nil, or_false] at ha
  rcases ha with rfl | rfl | rfl | rfl | rfl | rfl
  · exact .inl (by omega)
  · exact .inl (by omega)
  · exact .inl (by omega)
  · exact .inl (by omega)
  · exact .inr (.inl hi)
  · exact .inr (.inr hi)

/-- The work of a pass, given that the node values are there. -/
theorem execute_workOps (hf : f.Layout shape used) (hm : m.InFrame f shape set)
    (hs : used ≤ s.scratch.size) :
    ∃ t, execute (workOps f m) s = some t ∧ Contents.DiffersIn (m.Own f) s t ∧
      ∀ l < laneCount,
        t.lane l (f.valueBlock m.chunk) = nextValue f (s.lane l)
          (s.lane l (f.valueBlock m.chunk)) (s.lane l m.workSet.nodes) ∧
        t.lane l (f.indexBlock m.chunk) = nextIndex f (s.lane l)
          (s.lane l (f.indexBlock m.chunk)) (t.lane l (f.valueBlock m.chunk)) := by
  obtain ⟨t, ht, hdiffers, hlane⟩ := execute_onLanes (Member.laneBlocks hf hm)
    (laneWise_workOps hf) (Member.holds hf hm hs) (ρ := fun l => s.lane l) fun _ _ _ _ => rfl
  refine ⟨t, ht, hdiffers.mono fun i => Member.own_of_covered hf hm, fun l hl => ?_⟩
  obtain ⟨hvalue, hindex⟩ := onLanes_workOps hf hm (s.lane l)
  rw [hlane l hl _ (by simp [Member.ownBlocks]), hlane l hl _ (by simp [Member.ownBlocks]), hvalue,
    hindex]
  exact ⟨rfl, rfl⟩

end Work

end RoundLoop

end TreeWalk
