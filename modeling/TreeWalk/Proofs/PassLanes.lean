import TreeWalk.Proofs.MemberBlocks

/-!
# A pass, lane by lane

Behind the node values a pass consists of lane-wise code only. On the registers of one lane it
takes the node value into the batch value, mixes the result and steps to a child.
-/

namespace TreeWalk

theorem onLanes_append (xs ys : List Op) (ρ : Addr → Word) :
    onLanes (xs ++ ys) ρ = onLanes ys (onLanes xs ρ) := by
  simp [onLanes, List.foldl_append]

theorem onLanes_cons (op : Op) (ops : List Op) (ρ : Addr → Word) :
    onLanes (op :: ops) ρ = onLanes ops (op.onLane ρ) := rfl

@[simp] theorem onLanes_nil (ρ : Addr → Word) : onLanes [] ρ = ρ := rfl

@[simp] theorem onLane_vector (code : Opcode) (d a b : Addr) (ρ : Addr → Word) :
    (Op.vector code d a b).onLane ρ = Function.update ρ d (code.value (ρ a) (ρ b)) := rfl

@[simp] theorem onLane_multiplyAdd (d a b c : Addr) (ρ : Addr → Word) :
    (Op.multiplyAdd d a b c).onLane ρ = Function.update ρ d (ρ a * ρ b + ρ c) := rfl

namespace Mix.Lowered

def onValue (ρ : Addr → Word) (value : Word) : Lowered → Word
  | fused multiplier addend => value * ρ multiplier + ρ addend
  | split left leftValue combine right rightValue =>
    combine.value (left.value value (ρ leftValue)) (right.value value (ρ rightValue))

def stageOps (values left right : Addr) (lowered : Lowered) : List Op :=
  lowered.parallelOps values left right ++ lowered.combineOps values left right

variable {values left right : Addr} {lowered : Lowered} {stages : List Lowered} {ρ : Addr → Word}

theorem onLanes_stageOps (hleft : left ≠ values) (hne : left ≠ right)
    (hconst : ∀ a ∈ lowered.constants, a ≠ left) :
    onLanes (lowered.stageOps values left right) ρ values = lowered.onValue ρ (ρ values) ∧
      ∀ a, a ≠ values → a ≠ left → a ≠ right →
        onLanes (lowered.stageOps values left right) ρ a = ρ a := by
  cases lowered with
  | fused multiplier addend =>
    simp only [stageOps, parallelOps, combineOps, List.append_nil, onLanes_cons, onLanes_nil,
      onLane_multiplyAdd]
    exact ⟨Function.update_self .., fun a hv _ _ => Function.update_of_ne hv ..⟩
  | split leftOp leftValue combine rightOp rightValue =>
    have hr : rightValue ≠ left := hconst rightValue (by simp [constants])
    simp only [stageOps, parallelOps, combineOps, List.cons_append, List.nil_append, onLanes_cons,
      onLanes_nil, onLane_vector]
    constructor
    · simp [Function.update_of_ne hne, Function.update_of_ne hleft.symm, Function.update_of_ne hr,
        onValue]
    · intro a hv hl hr
      simp [Function.update_of_ne hv, Function.update_of_ne hl, Function.update_of_ne hr]

def mixOnValue (stages : List Lowered) (ρ : Addr → Word) (value : Word) : Word :=
  stages.foldl (fun v lowered => lowered.onValue ρ v) value

theorem onValue_congr {ρ' : Addr → Word} (h : ∀ a ∈ lowered.constants, ρ a = ρ' a) (v : Word) :
    lowered.onValue ρ v = lowered.onValue ρ' v := by
  cases lowered with
  | fused multiplier addend =>
    simp only [onValue, h multiplier (by simp [constants]), h addend (by simp [constants])]
  | split leftOp leftValue combine rightOp rightValue =>
    simp only [onValue, h leftValue (by simp [constants]), h rightValue (by simp [constants])]

theorem mixOnValue_congr {ρ' : Addr → Word} (h : ∀ a ∈ stages.flatMap constants, ρ a = ρ' a)
    (v : Word) : mixOnValue stages ρ v = mixOnValue stages ρ' v := by
  induction stages generalizing v with
  | nil => rfl
  | cons lowered rest ih =>
    simp only [mixOnValue, List.foldl_cons]
    rw [onValue_congr fun a ha => h a (by simp [ha])]
    exact ih (fun a ha => h a (by
      rw [List.flatMap_cons, List.mem_append]
      exact .inr ha)) _

theorem onLanes_flatMap_stageOps (hleft : left ≠ values) (hne : left ≠ right)
    (hconst : ∀ a ∈ stages.flatMap constants, a ≠ values ∧ a ≠ left ∧ a ≠ right) :
    onLanes (stages.flatMap (stageOps values left right)) ρ values =
        mixOnValue stages ρ (ρ values) ∧
      ∀ a, a ≠ values → a ≠ left → a ≠ right →
        onLanes (stages.flatMap (stageOps values left right)) ρ a = ρ a := by
  induction stages generalizing ρ with
  | nil => exact ⟨rfl, fun _ _ _ _ => rfl⟩
  | cons lowered rest ih =>
    have hfirst : ∀ a ∈ lowered.constants, a ≠ values ∧ a ≠ left ∧ a ≠ right :=
      fun a ha => hconst a (by simp [ha])
    have hrest : ∀ a ∈ rest.flatMap constants, a ≠ values ∧ a ≠ left ∧ a ≠ right :=
      fun a ha => hconst a (by rw [List.flatMap_cons, List.mem_append]; exact .inr ha)
    obtain ⟨hvalue, hother⟩ := onLanes_stageOps (ρ := ρ) hleft hne
      fun a ha => (hfirst a ha).2.1
    obtain ⟨hvalue', hother'⟩ := ih (ρ := onLanes (lowered.stageOps values left right) ρ) hrest
    rw [List.flatMap_cons, onLanes_append]
    constructor
    · rw [hvalue', hvalue]
      exact mixOnValue_congr (fun a ha => hother a (hrest a ha).1 (hrest a ha).2.1
        (hrest a ha).2.2) _
    · intro a hv hl hr
      rw [hother' a hv hl hr, hother a hv hl hr]

end Mix.Lowered

namespace RoundLoop

def workOps (f : Frame) (m : Member) : List Op :=
  takeNodeOp f m ::
    (f.stages.flatMap (Mix.Lowered.stageOps (f.valueBlock m.chunk) m.workSet.left
      m.workSet.right) ++
    IndexUpdate.ops f m.workSet m.chunk)

/-- All operations of a pass. -/
def passOps (f : Frame) (m : Member) : List Op := nodeValueOps f m ++ workOps f m

def nextValue (f : Frame) (ρ : Addr → Word) (value node : Word) : Word :=
  Mix.Lowered.mixOnValue f.stages ρ (value ^^^ node)

def nextIndex (f : Frame) (ρ : Addr → Word) (index value : Word) : Word :=
  let child := index * ρ f.two + ((value &&& ρ f.one) + ρ f.one)
  child * Word.ofBool (child < ρ f.nodeCount)

theorem onLanes_indexUpdate {f : Frame} {w : WorkSet} {chunk : Nat} {ρ : Addr → Word}
    (hvalue : f.valueBlock chunk ≠ w.left) (hindex : f.indexBlock chunk ≠ w.left)
    (hne : f.valueBlock chunk ≠ f.indexBlock chunk)
    (hconst : ∀ a ∈ [f.one, f.two, f.nodeCount], a ≠ w.left ∧ a ≠ f.indexBlock chunk) :
    onLanes (IndexUpdate.ops f w chunk) ρ (f.valueBlock chunk) = ρ (f.valueBlock chunk) ∧
      onLanes (IndexUpdate.ops f w chunk) ρ (f.indexBlock chunk) =
        nextIndex f ρ (ρ (f.indexBlock chunk)) (ρ (f.valueBlock chunk)) := by
  obtain ⟨hone, -⟩ := hconst f.one (by simp)
  obtain ⟨htwo, -⟩ := hconst f.two (by simp)
  obtain ⟨hcount, hcount'⟩ := hconst f.nodeCount (by simp)
  simp only [IndexUpdate.ops, onLanes_cons, onLanes_nil, onLane_vector]
  constructor
  · simp [Function.update_of_ne hvalue, Function.update_of_ne hne]
  · simp [Function.update_of_ne hindex, Function.update_of_ne hindex.symm,
      Function.update_of_ne hone, Function.update_of_ne htwo, Function.update_of_ne hcount,
      Function.update_of_ne hcount', nextIndex, Opcode.value, Opcode.apply]

section Work

variable {f : Frame} {shape : FrameShape} {used set : Nat} {m : Member}

theorem ne_of_mem_ownBlocks_of_mem_sharedBlocks (hf : f.Layout shape used)
    (hm : m.InFrame f shape set) {d a : Addr} (hd : d ∈ m.ownBlocks f) (ha : a ∈ f.sharedBlocks) :
    a ≠ d :=
  (((Member.laneBlocks hf hm).apart_shared d hd a ha).ne).symm

theorem ne_of_mem_constantBlocks (hf : f.Layout shape used) (hm : m.InFrame f shape set) {a : Addr}
    (ha : a ∈ f.constantBlocks) : a ≠ f.valueBlock m.chunk ∧ a ≠ f.indexBlock m.chunk ∧
      a ≠ m.workSet.left ∧ a ≠ m.workSet.right := by
  have hne {d : Addr} (hd : d ∈ m.ownBlocks f) : a ≠ d :=
    ne_of_mem_ownBlocks_of_mem_sharedBlocks hf hm hd (List.mem_append_left _ ha)
  exact ⟨hne (by simp [Member.ownBlocks]), hne (by simp [Member.ownBlocks]),
    hne (by simp [Member.ownBlocks]), hne (by simp [Member.ownBlocks])⟩

theorem onLanes_mixOps (hf : f.Layout shape used) (hm : m.InFrame f shape set) (ρ : Addr → Word) :
    let ρ' := onLanes (f.stages.flatMap (Mix.Lowered.stageOps (f.valueBlock m.chunk)
      m.workSet.left m.workSet.right)) ((takeNodeOp f m).onLane ρ)
    ρ' (f.valueBlock m.chunk) =
        nextValue f ρ (ρ (f.valueBlock m.chunk)) (ρ m.workSet.nodes) ∧
      ∀ a, a ≠ f.valueBlock m.chunk → a ≠ m.workSet.left → a ≠ m.workSet.right →
        ρ' a = ρ a := by
  have hown := (Member.laneBlocks hf hm).apart
  simp only [Member.ownBlocks, List.pairwise_cons, List.mem_cons, List.not_mem_nil, or_false,
    forall_eq_or_imp, forall_eq] at hown
  obtain ⟨-, ⟨hlr, -, -, hlv⟩, -⟩ := hown
  have hconst : ∀ a ∈ f.stages.flatMap Mix.Lowered.constants,
      a ≠ f.valueBlock m.chunk ∧ a ≠ m.workSet.left ∧ a ≠ m.workSet.right := by
    intro a ha
    obtain ⟨hv, -, hl, hr⟩ := ne_of_mem_constantBlocks hf hm (List.mem_append_right _ ha)
    exact ⟨hv, hl, hr⟩
  have htaken : (takeNodeOp f m).onLane ρ = Function.update ρ (f.valueBlock m.chunk)
      (ρ (f.valueBlock m.chunk) ^^^ ρ m.workSet.nodes) := rfl
  obtain ⟨hmixed, hkept⟩ := Mix.Lowered.onLanes_flatMap_stageOps
    (ρ := (takeNodeOp f m).onLane ρ) hlv.ne hlr.ne hconst
  constructor
  · rw [hmixed, nextValue, htaken, Function.update_self]
    exact Mix.Lowered.mixOnValue_congr
      (fun a ha => Function.update_of_ne (hconst a ha).1 ..) _
  · intro a hv hl hr
    rw [hkept a hv hl hr, htaken, Function.update_of_ne hv]

/-- What the work of a pass makes of the registers of a lane. -/
theorem onLanes_workOps (hf : f.Layout shape used) (hm : m.InFrame f shape set)
    (ρ : Addr → Word) :
    onLanes (workOps f m) ρ (f.valueBlock m.chunk) =
        nextValue f ρ (ρ (f.valueBlock m.chunk)) (ρ m.workSet.nodes) ∧
      onLanes (workOps f m) ρ (f.indexBlock m.chunk) =
        nextIndex f ρ (ρ (f.indexBlock m.chunk))
          (nextValue f ρ (ρ (f.valueBlock m.chunk)) (ρ m.workSet.nodes)) := by
  have hown := (Member.laneBlocks hf hm).apart
  simp only [Member.ownBlocks, List.pairwise_cons, List.mem_cons, List.not_mem_nil, or_false,
    forall_eq_or_imp, forall_eq] at hown
  obtain ⟨-, ⟨-, -, hli, hlv⟩, ⟨-, hri, -⟩, -, hiv, -, -⟩ := hown
  obtain ⟨hvalue, hkept⟩ := onLanes_mixOps hf hm ρ
  rw [workOps, onLanes_cons, onLanes_append]
  set ρ' := onLanes (f.stages.flatMap (Mix.Lowered.stageOps (f.valueBlock m.chunk)
    m.workSet.left m.workSet.right)) ((takeNodeOp f m).onLane ρ)
  have hconst : ∀ a ∈ [f.one, f.two, f.nodeCount], a ∈ f.constantBlocks := by
    simp [Frame.constantBlocks]
  have hconst_kept : ∀ a ∈ [f.one, f.two, f.nodeCount], ρ' a = ρ a := by
    intro a ha
    obtain ⟨hv, -, hl, hr⟩ := ne_of_mem_constantBlocks hf hm (hconst a ha)
    exact hkept a hv hl hr
  obtain ⟨hvalue', hindex'⟩ := onLanes_indexUpdate (f := f) (w := m.workSet) (ρ := ρ')
    hlv.ne.symm hli.ne.symm hiv.ne.symm fun a ha => by
      obtain ⟨-, hi, hl, -⟩ := ne_of_mem_constantBlocks hf hm (hconst a ha)
      exact ⟨hl, hi⟩
  rw [hvalue', hindex', hvalue, hkept _ hiv.ne hli.ne.symm hri.ne.symm]
  refine ⟨rfl, ?_⟩
  simp only [nextIndex, hconst_kept f.one (by simp), hconst_kept f.two (by simp),
    hconst_kept f.nodeCount (by simp)]

end Work

end RoundLoop

end TreeWalk
