import TreeWalk.Proofs.EncodedWalk

/-!
# Indices that stay inside the tree

A step always leaves an index inside the tree behind. So an accepted image can be walked through
all of its rounds unless a value is written over an index that is still to be read. The check of
an image does not look for that.
-/

namespace TreeWalk

namespace Image

/-- The parts lie inside an image of that many words, and the tree has a root to go back to. -/
structure Layout.FitsIn (l : Layout) (words : Nat) : Prop where
  nodes : l.nodesAt + l.nodeCount ≤ words
  indices : l.indicesAt + l.batch ≤ words
  values : l.valuesAt + l.batch ≤ words
  root : 0 < l.nodeCount

/-- No value is written over an index that is read later. In a single round the values may lie over
the indices of their own lanes or of lanes before them. -/
def Layout.SparesIndices (l : Layout) : Prop :=
  l.rounds = 0 ∨ l.indicesAt + l.batch ≤ l.valuesAt ∨ l.valuesAt + l.batch ≤ l.indicesAt ∨
    l.rounds = 1 ∧ l.valuesAt ≤ l.indicesAt

/-- After some rounds and the first lanes of the next one, every index that is read later is inside
the tree. The indices of the first lanes are read later only if there is a further round. -/
def IndicesInside (l : Layout) (round lane : Nat) (mem : Array Word) : Prop :=
  ∀ other < l.batch, (other < lane → round + 1 < l.rounds) →
    ∃ index, mem[l.indicesAt + other]? = some index ∧ index.toNat < l.nodeCount

namespace IndicesInside

variable {l : Layout} {round lane : Nat} {mem : Array Word}

theorem stepLane (h : IndicesInside l round lane mem) (hfits : l.FitsIn mem.size)
    (hspares : l.SparesIndices) (hround : round < l.rounds) (hlane : lane < l.batch) :
    ∃ mem', ImageWalk.stepLane l mem lane = some mem' ∧ mem'.size = mem.size ∧
      IndicesInside l round (lane + 1) mem' := by
  have hnodes := hfits.nodes
  have hvalues := hfits.values
  have hindices := hfits.indices
  obtain ⟨index, hindex, hinside⟩ := h lane hlane fun hlt => absurd hlt (Nat.lt_irrefl lane)
  obtain ⟨value, hvalue⟩ : ∃ value, mem[l.valuesAt + lane]? = some value :=
    ⟨_, Array.getElem?_eq_getElem (by omega)⟩
  obtain ⟨node, hnode⟩ : ∃ node, mem[l.nodesAt + index.toNat]? = some node :=
    ⟨_, Array.getElem?_eq_getElem (by omega)⟩
  set next := Walk.step node index value l.nodeCount with hnext
  refine ⟨(mem.setIfInBounds (l.indicesAt + lane) next.1).setIfInBounds (l.valuesAt + lane) next.2,
    ?_, by simp, ?_⟩
  · simp only [ImageWalk.stepLane, hindex, hvalue, hnode, Option.bind_eq_bind, Option.bind_some]
    rfl
  · intro other hother hread
    have hkept : l.valuesAt + lane ≠ l.indicesAt + other := by
      intro hover
      rcases hspares with hnone | hbehind | hbefore | ⟨hsingle, hle⟩
      · omega
      · omega
      · omega
      · have hagain := hread (by omega)
        omega
    rw [Array.getElem?_setIfInBounds_ne hkept]
    by_cases hself : other = lane
    · subst hself
      rw [Array.getElem?_setIfInBounds_self_of_lt (by omega)]
      exact ⟨next.1, rfl, Walk.step_lt node index value hfits.root⟩
    · rw [Array.getElem?_setIfInBounds_ne (by omega)]
      exact h other hother fun hlt => hread (Nat.lt_succ_of_lt hlt)

theorem stepLanes {count : Nat} (h : IndicesInside l round 0 mem) (hfits : l.FitsIn mem.size)
    (hspares : l.SparesIndices) (hround : round < l.rounds) (hcount : count ≤ l.batch) :
    ∃ mem', (List.range count).foldlM (ImageWalk.stepLane l) mem = some mem' ∧
      mem'.size = mem.size ∧ IndicesInside l round count mem' := by
  induction count with
  | zero => exact ⟨mem, rfl, rfl, h⟩
  | succ count ih =>
    obtain ⟨mem₁, hfold, hsize₁, h₁⟩ := ih (Nat.le_of_succ_le hcount)
    obtain ⟨mem₂, hstep, hsize₂, h₂⟩ := h₁.stepLane (hsize₁ ▸ hfits) hspares hround hcount
    refine ⟨mem₂, ?_, hsize₂.trans hsize₁, h₂⟩
    rw [List.range_succ, List.foldlM_append, hfold]
    simpa using hstep

/-- All lanes go through some of the rounds. Only if a further round follows do the indices have to
be inside the tree behind them. -/
theorem roundsOn {n : Nat} (h : round < l.rounds → IndicesInside l round 0 mem)
    (hfits : l.FitsIn mem.size) (hspares : l.SparesIndices) (hn : round + n ≤ l.rounds) :
    ∃ mem', ImageWalk.roundsOn l n mem = some mem' ∧ mem'.size = mem.size ∧
      (round + n < l.rounds → IndicesInside l (round + n) 0 mem') := by
  induction n generalizing round mem with
  | zero => exact ⟨mem, rfl, rfl, h⟩
  | succ n ih =>
    have hround : round < l.rounds := by omega
    obtain ⟨mem₁, hlanes, hsize₁, h₁⟩ :=
      (h hround).stepLanes hfits hspares hround (Nat.le_refl l.batch)
    have hnext : round + 1 < l.rounds → IndicesInside l (round + 1) 0 mem₁ :=
      fun hlt other hother _ => h₁ other hother fun _ => hlt
    obtain ⟨mem₂, hrounds, hsize₂, h₂⟩ := ih hnext (hsize₁ ▸ hfits) (by omega)
    refine ⟨mem₂, ?_, hsize₂.trans hsize₁, ?_⟩
    · simp only [ImageWalk.roundsOn, ImageWalk.roundOn, hlanes, Option.bind_eq_bind,
        Option.bind_some]
      exact hrounds
    · rwa [Nat.add_right_comm] at h₂

end IndicesInside

end Image

namespace ImageWalk

variable {mem : Array Word} {w : ImageWalk}

theorem checked_of_start (h : start mem = .ok w) :
    w = ⟨mem, w.layout, .fresh⟩ ∧ w.layout.FitsIn mem.size ∧
      ∀ round, Image.IndicesInside w.layout round 0 mem := by
  obtain ⟨l, hdecode, rfl⟩ := start_eq_ok h
  obtain ⟨-, -, hparts, hcount⟩ := Image.decode_eq_ok hdecode
  simp only [Image.Layout.parts, List.mem_cons, List.not_mem_nil, or_false, forall_eq_or_imp,
    forall_eq] at hparts
  obtain ⟨hnodes, hindices, hvalues⟩ := hparts
  have hroot : 0 < l.nodeCount := by
    rw [hcount]
    have := Nat.one_lt_two_pow (Nat.succ_ne_zero l.height)
    omega
  refine ⟨rfl, ⟨hnodes, hindices, hvalues, hroot⟩, ?_⟩
  have hstray : strayLane? l.nodeCount 0
      (mem.extract l.indicesAt (l.indicesAt + l.batch)).toList = none := by
    unfold start at h
    simp only [hdecode, bind, Except.bind] at h
    split at h
    · cases h
    · assumption
  intro round other (hother : other < l.batch) _
  have hlt : l.indicesAt + other < mem.size := by omega
  refine ⟨mem[l.indicesAt + other], Array.getElem?_eq_getElem hlt, ?_⟩
  apply strayLane?_eq_none_iff.mp hstray
  rw [Array.mem_toList_iff, Array.mem_extract_iff_getElem]
  exact ⟨other, by omega, rfl⟩

/-- An accepted image with no value over an index that is read later is walked to its end. Every
lane finds its index inside the tree in every round, and both images are shown. -/
theorem reads_inside_tree (hstart : start mem = .ok w) (hspares : w.layout.SparesIndices) :
    (∀ round < w.layout.rounds, ∀ lane < w.layout.batch, ∃ mem₁ mem₂ index,
      roundsOn w.layout round mem = some mem₁ ∧
      (List.range lane).foldlM (stepLane w.layout) mem₁ = some mem₂ ∧
      mem₂[w.layout.indicesAt + lane]? = some index ∧ index.toNat < w.layout.nodeCount) ∧
    ∃ w₁ w₂, w.next = .shown w₁ ∧ w₁.mem = mem ∧ w₁.next = .shown w₂ ∧ w₂.mem.size = mem.size ∧
      w₂.next = .exhausted := by
  obtain ⟨hfresh, hfits, hinside⟩ := checked_of_start hstart
  constructor
  · intro round hround lane hlane
    obtain ⟨mem₁, hrounds, hsize₁, h₁⟩ := Image.IndicesInside.roundsOn (fun _ => hinside 0) hfits
      hspares (show 0 + round ≤ w.layout.rounds by omega)
    rw [Nat.zero_add] at h₁
    obtain ⟨mem₂, hlanes, -, h₂⟩ :=
      (h₁ hround).stepLanes (hsize₁ ▸ hfits) hspares hround (Nat.le_of_lt hlane)
    obtain ⟨index, hindex, hlt⟩ := h₂ lane hlane fun h => absurd h (Nat.lt_irrefl lane)
    exact ⟨mem₁, mem₂, index, hrounds, hlanes, hindex, hlt⟩
  · obtain ⟨mem₁, hrounds, hsize₁, -⟩ := Image.IndicesInside.roundsOn (fun _ => hinside 0) hfits
      hspares (show 0 + w.layout.rounds ≤ w.layout.rounds by omega)
    refine ⟨⟨mem, w.layout, .begun⟩, ⟨mem₁, w.layout, .done⟩, ?_, rfl, ?_, hsize₁, rfl⟩
    · rw [hfresh]
      rfl
    · simp only [next, hrounds]

/-- A single round of two lanes whose values lie over their own indices. -/
theorem reads_inside_tree_single_round :
    let mem : Array Word := #[1, 3, 2, 1, 8, 11, 11, 13, 5, 6, 7, 0, 2]
    ∃ w, start mem = .ok w ∧ w.layout.SparesIndices ∧
      ∃ w₁ w₂, w.next = .shown w₁ ∧ w₁.mem = mem ∧ w₁.next = .shown w₂ ∧ w₂.next = .exhausted := by
  intro mem
  have hstart : start mem = .ok ⟨mem, ⟨1, 3, 2, 1, 8, 11, 11, 13⟩, .fresh⟩ := by rfl
  have hspares : (⟨1, 3, 2, 1, 8, 11, 11, 13⟩ : Image.Layout).SparesIndices :=
    .inr (.inr (.inr ⟨rfl, Nat.le_refl 11⟩))
  obtain ⟨-, w₁, w₂, hshown, hmem, hshown', -, hlast⟩ := reads_inside_tree hstart hspares
  exact ⟨_, hstart, hspares, w₁, w₂, hshown, hmem, hshown', hlast⟩

/-- A lane whose value lies over its index. The image is accepted, but in the second round the lane
reads the mixed value as its index, and the walk breaks off. -/
theorem value_read_as_index :
    let mem : Array Word := #[2, 1, 1, 0, 8, 9, 9, 10, 0, 0]
    let l : Image.Layout := ⟨2, 1, 1, 0, 8, 9, 9, 10⟩
    start mem = .ok ⟨mem, l, .fresh⟩ ∧
      (∃ mem₁ index, roundsOn l 1 mem = some mem₁ ∧ mem₁[l.indicesAt]? = some index ∧
        l.nodeCount ≤ index.toNat) ∧
      ∃ w₁, (⟨mem, l, .fresh⟩ : ImageWalk).next = .shown w₁ ∧ w₁.next = .outside := by
  intro mem l
  have hbreak : roundsOn l 2 mem = none := by decide +kernel
  refine ⟨by rfl, ⟨_, _, rfl, rfl, by decide +kernel⟩, ⟨mem, l, .begun⟩, rfl, ?_⟩
  have hrounds : l.rounds = 2 := rfl
  simp only [next, hrounds, hbreak]

end ImageWalk

end TreeWalk
