import TreeWalk.Proofs.LoopOrder

/-!
# Operations per engine

The round loop has the operations of its passes, each once, in another order. Which engines the
operations of a pass need follows from the level of the pass and the levels that are kept in
registers, so every shape of the loop needs each engine equally often.
-/

namespace TreeWalk

namespace RoundLoop

variable {f : Frame} {shape : FrameShape} {used : Nat} {p : Pipeline} {space : Iterations}

/-! ## The engines of a pass -/

theorem nodeValueOps_of_covers (hf : f.Layout shape used) {m : Member}
    (h : f.top.covers m.depth = true) :
    (m.depth = 0 ∧ nodeValueOps f m = NodeValues.rootOps f m.workSet) ∨
      (∃ blocks, m.depth = 1 ∧
        nodeValueOps f m = NodeValues.level1Ops f m.workSet m.chunk blocks) ∨
      ∃ blocks, m.depth = 2 ∧
        nodeValueOps f m = NodeValues.level2Ops f m.workSet m.chunk blocks := by
  have hdepth : m.depth ≤ f.top.depth := by simpa [TopNodes.covers] using h
  unfold nodeValueOps
  rcases hf.covered_cases hdepth with h | ⟨h, blocks, hlevel⟩ | ⟨h, blocks, hlevel⟩
  · rw [h]
    exact .inl ⟨rfl, rfl⟩
  · rw [h]
    exact .inr (.inl ⟨blocks, rfl, by simp [NodeValues.ops, hlevel]⟩)
  · rw [h]
    exact .inr (.inr ⟨blocks, rfl, by simp [NodeValues.ops, hlevel]⟩)

/-- The engines that the node values of a pass need, when the levels down to `top` are kept in
registers. -/
def nodeEngines (top depth : Nat) : List Engine :=
  if top < depth then List.replicate laneCount .alu ++ List.replicate laneCount .load
  else match depth with
    | 0 => [.valu]
    | 1 => List.replicate 4 .valu
    | _ => List.replicate 12 .valu

/-- The engines that a pass needs: behind its node values one operation takes them, twelve mix and
six step on. -/
def passEngines (top depth : Nat) : List Engine :=
  nodeEngines top depth ++ List.replicate (1 + 12 + 6) .valu

theorem map_engine_nodeValueOps (hf : f.Layout shape used) (m : Member) :
    (nodeValueOps f m).map Op.engine = nodeEngines f.top.depth m.depth := by
  unfold nodeEngines
  by_cases hc : f.top.covers m.depth = true
  · have hle : m.depth ≤ f.top.depth := by simpa [TopNodes.covers] using hc
    rw [if_neg (Nat.not_lt.mpr hle)]
    rcases nodeValueOps_of_covers hf hc with ⟨hd, hops⟩ | ⟨blocks, hd, hops⟩ | ⟨blocks, hd, hops⟩
    all_goals rw [hops, hd]; rfl
  · have hc : f.top.covers m.depth = false := by simpa using hc
    have hlt : f.top.depth < m.depth := by simpa [TopNodes.covers] using hc
    rw [nodeValueOps_of_not_covers hf hc, if_pos hlt]
    rfl

theorem map_engine_stages {P : Word → Addr → Prop} {stages : List Mix.Lowered}
    (h : Mix.AllCarry P stages) (values left right : Addr) :
    (stages.flatMap (Mix.Lowered.stageOps values left right)).map Op.engine =
      List.replicate 12 .valu := by
  have hforms {forms : List Mix.Form} {lowereds : List Mix.Lowered}
      (hcarry : List.Forall₂ (Mix.Lowered.Carries P) forms lowereds) :
      (lowereds.flatMap (Mix.Lowered.stageOps values left right)).map Op.engine =
        forms.flatMap fun form => List.replicate (if form.isFused then 1 else 3) .valu := by
    induction hcarry with
    | nil => rfl
    | @cons form lowered _ _ hcarries _ ih =>
      rw [List.flatMap_cons, List.flatMap_cons, List.map_append, ih]
      congr 1
      cases form <;> cases lowered <;> first | rfl | cases hcarries
  rw [hforms h]
  decide

theorem map_engine_passOps (hf : f.Layout shape used) (m : Member) :
    (passOps f m).map Op.engine = passEngines f.top.depth m.depth := by
  have hstages := map_engine_stages hf.stages (f.valueBlock m.chunk) m.workSet.left m.workSet.right
  simp only [passOps, workOps, List.map_append, List.map_cons, hstages,
    map_engine_nodeValueOps hf m]
  rfl

theorem perm_engines (hf : f.Layout shape used) (hwidth : 0 < p.groupWidth) (space : Iterations) :
    ((ops f p space).map Op.engine).Perm
      ((List.range space.total).flatMap fun i => passEngines f.top.depth (space.depth i)) := by
  refine ((perm_ops hf hwidth space).map Op.engine).trans (.of_eq ?_)
  rw [List.map_flatMap]
  exact List.flatMap_congr fun i _ => map_engine_passOps hf (passMember f p space i)

theorem countP_engine_ops (hf : f.Layout shape used) (hwidth : 0 < p.groupWidth)
    (space : Iterations) (e : Engine) :
    (ops f p space).countP (fun op => op.engine = e) =
      ((List.range space.total).flatMap fun i =>
        passEngines f.top.depth (space.depth i)).count e := by
  rw [← (perm_engines hf hwidth space).count_eq e, List.count, List.countP_map]
  rfl

/-- The scalar and the load engine are needed for gathers only, once for each lane. -/
theorem countP_gather_ops (hf : f.Layout shape used) (hwidth : 0 < p.groupWidth)
    (space : Iterations) {e : Engine} (he : e = .alu ∨ e = .load) :
    (ops f p space).countP (fun op => op.engine = e) =
      laneCount * (List.range space.total).countP fun i => !f.top.covers (space.depth i) := by
  have hpass (depth : Nat) : (passEngines f.top.depth depth).count e =
      if f.top.covers depth then 0 else laneCount := by
    unfold passEngines nodeEngines TopNodes.covers
    by_cases hlt : f.top.depth < depth
    · rcases he with rfl | rfl <;> simp [hlt, Nat.not_le.mpr hlt, List.count_replicate]
    · have hle := Nat.le_of_not_lt hlt
      rcases he with rfl | rfl <;>
        (simp only [hlt, hle, if_false, List.count_append]; split <;> simp)
  rw [countP_engine_ops hf hwidth]
  induction List.range space.total with
  | nil => rfl
  | cons i rest ih =>
    rw [List.flatMap_cons, List.count_append, hpass, ih, List.countP_cons]
    by_cases hc : f.top.covers (space.depth i) = true <;> simp [hc, Nat.mul_add, Nat.add_comm]

end RoundLoop

end TreeWalk
