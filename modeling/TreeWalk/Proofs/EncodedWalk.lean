import TreeWalk.Proofs.EncodedImage

/-!
# The walk on the image of a batch

A step of a lane on the image of a batch gives the image of the batch with that lane's step taken.
So the walk on the image is the walk of the batch: lane by lane within a round, and round by round.
-/

namespace TreeWalk

variable {t : Tree} {b : Batch} {indices values indices' values' : List Word}

namespace Walk

theorem step_lt (node index value : Word) {nodeCount : Nat} (h : 0 < nodeCount) :
    (step node index value nodeCount).1.toNat < nodeCount := by
  simp only [step]
  generalize index * 2 + (if Mix.hash (value ^^^ node) % 2 = 0 then 1 else 2) = child
  by_cases hchild : nodeCount ≤ child.toNat
  · rw [if_pos hchild]
    exact h
  · rw [if_neg hchild]
    exact Nat.lt_of_not_le hchild

theorem round_cons_eq_some_iff {index value : Word} :
    round t (index :: indices) (value :: values) = some (indices', values') ↔
      ∃ node rest, t.values[index.toNat]? = some node ∧ round t indices values = some rest ∧
        indices' = (step node index value t.size).1 :: rest.1 ∧
        values' = (step node index value t.size).2 :: rest.2 := by
  simp only [round, Option.bind_eq_bind, Option.bind_eq_some_iff, Option.pure_def,
    Option.some.injEq, Prod.mk.injEq, Prod.exists]
  constructor
  · rintro ⟨node, hnode, is, vs, hround, rfl, rfl⟩
    exact ⟨node, is, vs, hnode, hround, rfl, rfl⟩
  · rintro ⟨node, is, vs, hnode, hround, rfl, rfl⟩
    exact ⟨node, hnode, is, vs, hround, rfl, rfl⟩

theorem exists_round (hinside : ∀ index ∈ indices, index.toNat < t.size) :
    ∃ rest, round t indices values = some rest := by
  induction indices generalizing values with
  | nil => exact ⟨([], values), rfl⟩
  | cons index indices ih =>
    cases values with
    | nil => exact ⟨(index :: indices, []), rfl⟩
    | cons value values =>
      obtain ⟨rest, hrest⟩ : ∃ rest, round t indices values = some rest :=
        ih fun i hi => hinside i (List.mem_cons_of_mem _ hi)
      have hnode := Array.getElem?_eq_getElem (hinside index (List.mem_cons_self ..))
      exact ⟨_, round_cons_eq_some_iff.mpr ⟨_, rest, hnode, hrest, rfl, rfl⟩⟩

theorem round_inside (hpaired : indices.length = values.length)
    (hround : round t indices values = some (indices', values')) :
    indices'.length = indices.length ∧ values'.length = values.length ∧
      ∀ index ∈ indices', index.toNat < t.size := by
  induction indices generalizing values indices' values' with
  | nil =>
    cases hround
    exact ⟨rfl, rfl, fun _ h => absurd h List.not_mem_nil⟩
  | cons index indices ih =>
    cases values with
    | nil => cases hpaired
    | cons value values =>
      obtain ⟨node, rest, hnode, hrest, rfl, rfl⟩ := round_cons_eq_some_iff.mp hround
      obtain ⟨hindices, hvalues, hinside⟩ := ih (Nat.succ.inj hpaired) hrest
      obtain ⟨hlt, -⟩ := Array.getElem?_eq_some_iff.mp hnode
      refine ⟨congrArg Nat.succ hindices, congrArg Nat.succ hvalues, ?_⟩
      intro i hi
      rcases List.mem_cons.mp hi with rfl | hi
      · exact step_lt node index value (Nat.zero_lt_of_lt hlt)
      · exact hinside i hi

end Walk

namespace ImageWalk

open Image

theorem stepLane_encode {lane : Nat} {index value node : Word}
    (hpaired : b.indices.length = b.values.length) (hindex : b.indices[lane]? = some index)
    (hvalue : b.values[lane]? = some value) (hnode : t.values[index.toNat]? = some node) :
    stepLane (layoutFor t b) (encode t b) lane =
      some (encode t
        { b with
          indices := b.indices.set lane (Walk.step node index value t.size).1
          values := b.values.set lane (Walk.step node index value t.size).2 }) := by
  obtain ⟨hlane, -⟩ := List.getElem?_eq_some_iff.mp hindex
  obtain ⟨hsize, -⟩ := Array.getElem?_eq_some_iff.mp hnode
  have hindices := (getElem?_encode_index (t := t) hpaired hlane).trans hindex
  have hvalues := (getElem?_encode_value (t := t) hpaired hlane).trans hvalue
  have hnodes := (getElem?_encode_node (b := b) hpaired hsize).trans hnode
  have hcount : (layoutFor t b).nodeCount = t.size := rfl
  simp only [stepLane, hindices, hvalues, hnodes, hcount, Option.bind_eq_bind, Option.bind_some]
  generalize Walk.step node index value t.size = next
  have hset := setIfInBounds_encode_index (t := t) (x := next.1) hpaired hlane
  have hset' := setIfInBounds_encode_value (t := t) (x := next.2)
    (b := { b with indices := b.indices.set lane next.1 })
    (by rw [List.length_set, hpaired]) (by rw [List.length_set]; exact hlane)
  have hlayout : layoutFor t { b with indices := b.indices.set lane next.1 } = layoutFor t b :=
    layoutFor_congr List.length_set rfl
  rw [hlayout] at hset'
  rw [hset, hset']
  rfl

theorem foldlM_stepLane_encode (doneIndices doneValues : List Word)
    (hdone : doneIndices.length = doneValues.length) (hpaired : indices.length = values.length)
    (hindices : b.indices = doneIndices ++ indices) (hvalues : b.values = doneValues ++ values)
    (hround : Walk.round t indices values = some (indices', values')) :
    (List.range' doneIndices.length indices.length).foldlM (stepLane (layoutFor t b)) (encode t b) =
      some (encode t
        { b with indices := doneIndices ++ indices', values := doneValues ++ values' }) := by
  induction indices generalizing b values indices' values' doneIndices doneValues with
  | nil =>
    cases hround
    rw [← hindices, ← hvalues]
    rfl
  | cons index indices ih =>
    cases values with
    | nil => cases hpaired
    | cons value values =>
      obtain ⟨node, rest, hnode, hrest, rfl, rfl⟩ := Walk.round_cons_eq_some_iff.mp hround
      have hindex : b.indices[doneIndices.length]? = some index := by
        rw [hindices, List.getElem?_append_right (Nat.le_refl _), Nat.sub_self]
        rfl
      have hvalue : b.values[doneIndices.length]? = some value := by
        rw [hvalues, hdone, List.getElem?_append_right (Nat.le_refl _), Nat.sub_self]
        rfl
      have hlengths : b.indices.length = b.values.length := by
        rw [hindices, hvalues, List.length_append, List.length_append, hdone, hpaired]
      have hstep := stepLane_encode hlengths hindex hvalue hnode
      generalize Walk.step node index value t.size = next at hstep ⊢
      rw [hindices, hvalues, List.set_append_right _ _ (Nat.le_refl _), hdone,
        List.set_append_right _ _ (Nat.le_refl _), Nat.sub_self, List.set_cons_zero,
        List.set_cons_zero, List.append_cons, List.append_cons doneValues] at hstep
      set b₁ : Batch :=
        { b with
          indices := doneIndices ++ [next.1] ++ indices
          values := doneValues ++ [next.2] ++ values }
      have hrest' := ih (b := b₁) (doneIndices ++ [next.1]) (doneValues ++ [next.2])
        (by simp [hdone]) (Nat.succ.inj hpaired) rfl rfl hrest
      have hlayout : layoutFor t b₁ = layoutFor t b :=
        layoutFor_congr (by simp [b₁, hindices]) rfl
      rw [hlayout, List.length_append, List.length_singleton] at hrest'
      rw [List.length_cons, List.range'_succ, List.foldlM_cons, hdone, hstep]
      simpa [hdone, b₁] using hrest'

/-- A round of all lanes. -/
theorem roundOn_encode (hpaired : b.indices.length = b.values.length)
    (hround : Walk.round t b.indices b.values = some (indices', values')) :
    roundOn (layoutFor t b) (encode t b) =
      some (encode t { b with indices := indices', values := values' }) := by
  have hlanes := foldlM_stepLane_encode [] [] rfl hpaired rfl rfl hround
  rw [List.length_nil, ← List.range_eq_range'] at hlanes
  exact hlanes

theorem roundsOn_encode (n : Nat) (h : b.Inside t) :
    ∃ indices' values', Walk.rounds t n b.indices b.values = some (indices', values') ∧
      roundsOn (layoutFor t b) n (encode t b) =
        some (encode t { b with indices := indices', values := values' }) ∧
      indices'.length = b.indices.length ∧ values'.length = b.values.length := by
  induction n generalizing b with
  | zero => exact ⟨b.indices, b.values, rfl, rfl, rfl, rfl⟩
  | succ n ih =>
    obtain ⟨⟨indices₁, values₁⟩, hround⟩ : ∃ rest, Walk.round t b.indices b.values = some rest :=
      Walk.exists_round h.index_lt
    obtain ⟨hindices, hvalues, hinside⟩ := Walk.round_inside h.paired hround
    obtain ⟨indices₂, values₂, hrounds, hrounds', hindices', hvalues'⟩ :=
      ih (b := { b with indices := indices₁, values := values₁ })
        ⟨hindices.trans (h.paired.trans hvalues.symm), hinside⟩
    have hlayout : layoutFor t { b with indices := indices₁, values := values₁ } = layoutFor t b :=
      layoutFor_congr hindices rfl
    refine ⟨indices₂, values₂, ?_, ?_, hindices'.trans hindices, hvalues'.trans hvalues⟩
    · simp only [Walk.rounds, hround, Option.bind_eq_bind, Option.bind_some]
      exact hrounds
    · rw [hlayout] at hrounds'
      simp only [roundsOn, roundOn_encode h.paired hround, Option.bind_eq_bind, Option.bind_some]
      exact hrounds'

theorem strayLane?_eq_none_iff {nodes lane : Nat} :
    strayLane? nodes lane indices = none ↔ ∀ index ∈ indices, index.toNat < nodes := by
  induction indices generalizing lane with
  | nil => simp [strayLane?]
  | cons index indices ih =>
    rw [strayLane?, List.forall_mem_cons]
    split
    · rename_i hstray
      exact iff_of_false nofun fun h => absurd h.1 (Nat.not_lt_of_le hstray)
    · rename_i hinside
      rw [ih, and_iff_right (Nat.lt_of_not_le hinside)]

/-- The image of a batch is taken up when its lanes stand inside a complete tree. -/
theorem start_encode (h : b.Inside t) (hcomplete : Tree.nodeCount? t.height = some t.size)
    (hrounds : b.rounds < 2 ^ 32) (hsize : (encode t b).size ≤ Word.maxSize) :
    start (encode t b) = .ok ⟨encode t b, layoutFor t b, .fresh⟩ := by
  have hcut := extract_encode_indices (t := t) h.paired
  unfold start
  rw [decode_encode h.paired hcomplete hrounds hsize]
  have hbatch : (layoutFor t b).batch = b.indices.length := rfl
  have hcount : (layoutFor t b).nodeCount = t.size := rfl
  simp only [bind, Except.bind, hbatch, hcount, hcut, strayLane?_eq_none_iff.mpr h.index_lt]
  rfl

/-- The image of a batch whose lanes all stand at the root can be walked for any number of rounds. -/
theorem walkable_encode {lanes : Nat} (hindices : b.indices = List.replicate lanes 0)
    (hvalues : b.values.length = lanes) (hcomplete : Tree.nodeCount? t.height = some t.size)
    (hrounds : b.rounds < 2 ^ 32) (hsize : (encode t b).size ≤ Word.maxSize) :
    start (encode t b) = .ok ⟨encode t b, layoutFor t b, .fresh⟩ ∧
      Walkable (layoutFor t b) (encode t b) := by
  have hlanes : b.indices.length = lanes := by rw [hindices, List.length_replicate]
  have hpaired : b.indices.length = b.values.length := hlanes.trans hvalues.symm
  have hroot : 0 < t.size := by
    have hpow : 2 ≤ 2 ^ (t.height + 1) := Nat.le_self_pow (Nat.succ_ne_zero _) 2
    have hcount := (Tree.nodeCount?_eq_some_iff.mp hcomplete).1
    omega
  have hinside : ∀ index ∈ b.indices, index.toNat < t.size := by
    intro index hindex
    rw [hindices] at hindex
    rw [List.eq_of_mem_replicate hindex]
    exact hroot
  have hstart := start_encode ⟨hpaired, hinside⟩ hcomplete hrounds hsize
  refine ⟨hstart, (walkable_of_start hstart (Nat.le_trans hsize (by decide))
    partsApart_layoutFor fun lane hlane => ?_).2⟩
  change lane < b.indices.length at hlane
  change (encode t b)[(layoutFor t b).indicesAt + lane]? = some 0
  rw [getElem?_encode_index hpaired hlane, hindices]
  exact List.getElem?_replicate_of_lt (hlanes ▸ hlane)

/-- A batch whose lanes stand inside a complete tree walks without leaving it. The walk on its image
shows the image untouched, then with the walked lanes' words and every other word unchanged, and
nothing more. -/
theorem encode_walks_as_batch (t : Tree) (b : Batch) {length : Nat}
    (hcomplete : Tree.nodeCount? t.height = some t.size)
    (hpaired : b.indices.length = b.values.length)
    (hinside : ∀ index ∈ b.indices, index.toNat < t.size)
    (hrounds : b.rounds < 2 ^ 32)
    (hlength : Image.length? t.size b.indices.length = some length) :
    ∃ b' w w₁ w₂, b.walk t = some b' ∧ start (encode t b) = .ok w ∧ w.layout = layoutFor t b ∧
      w.next = .shown w₁ ∧ w₁.mem = encode t b ∧ w₁.next = .shown w₂ ∧ w₂.next = .exhausted ∧
      (w₂.mem.extract w.layout.indicesAt (w.layout.indicesAt + w.layout.batch)).toList
        = b'.indices ∧
      (w₂.mem.extract w.layout.valuesAt (w.layout.valuesAt + w.layout.batch)).toList
        = b'.values ∧
      ∀ i, ¬ (w.layout.indicesAt ≤ i ∧ i < w.layout.indicesAt + w.layout.batch) →
        ¬ (w.layout.valuesAt ≤ i ∧ i < w.layout.valuesAt + w.layout.batch) →
        w₂.mem[i]? = (encode t b)[i]? := by
  have hsize : (encode t b).size ≤ Word.maxSize := by
    obtain ⟨rfl, hle⟩ := length?_eq_some_iff.mp hlength
    rwa [size_encode hpaired]
  obtain ⟨indices', values', hwalk, himage, hindices, hvalues⟩ :=
    roundsOn_encode b.rounds ⟨hpaired, hinside⟩
  have hstart := start_encode ⟨hpaired, hinside⟩ hcomplete hrounds hsize
  set b' : Batch := { b with indices := indices', values := values' } with hb'
  have hpaired' : b'.indices.length = b'.values.length :=
    hindices.trans (hpaired.trans hvalues.symm)
  have hlanes : b'.indices.length = b.indices.length := hindices
  have hlayout : layoutFor t b' = layoutFor t b := layoutFor_congr hlanes rfl
  refine ⟨b', _, ⟨encode t b, layoutFor t b, .begun⟩, ⟨encode t b', layoutFor t b, .done⟩, ?_,
    hstart, rfl, rfl, rfl, ?_, rfl, ?_, ?_, ?_⟩
  · simp only [Batch.walk, hwalk, Option.bind_eq_bind, Option.bind_some]
    rfl
  · have hrounds' : (layoutFor t b).rounds = b.rounds := rfl
    simp only [next, hrounds', himage]
  · have hcut := extract_encode_indices (t := t) hpaired'
    rw [hlayout, hlanes] at hcut
    exact hcut
  · have hcut := extract_encode_values (t := t) hpaired'
    rw [hlayout, hlanes] at hcut
    exact hcut
  · intro i hindex hvalue
    refine getElem?_encode_congr hpaired hpaired' hindices rfl ?_
    have hvaluesAt : (layoutFor t b).valuesAt = (layoutFor t b).indicesAt + b.indices.length := rfl
    have hroomAt : (layoutFor t b).roomAt = (layoutFor t b).indicesAt + 2 * b.indices.length := rfl
    have hbatch : (layoutFor t b).batch = b.indices.length := rfl
    simp only [hbatch] at hindex hvalue
    omega

/-- Two lanes, three rounds, a tree of three nodes. The lane that starts at a leaf goes back to the
root in the first round and in the third one. -/
theorem encode_walks_as_batch_two_lanes :
    let t : Tree := ⟨1, #[5, 7, 9]⟩
    let b : Batch := ⟨[0, 2], [3, 4], 3⟩
    ∃ w w₁ w₂, b.walk t = some ⟨[2, 0], [2512634637, 650367075], 3⟩ ∧
      start (encode t b) = .ok w ∧ w.next = .shown w₁ ∧ w₁.mem = encode t b ∧
      w₁.next = .shown w₂ ∧ w₂.next = .exhausted ∧ (w₂.mem.extract 11 13).toList = [2, 0] ∧
      (w₂.mem.extract 13 15).toList = [2512634637, 650367075] ∧
      ∀ i, i < 11 ∨ 15 ≤ i → w₂.mem[i]? = (encode t b)[i]? := by
  intro t b
  obtain ⟨b', w, w₁, w₂, hwalk, hstart, hlayout, hfirst, hshown, hsecond, hend, hindices, hvalues,
    hrest⟩ :=
    encode_walks_as_batch t b (by decide) (by decide) (by simp [t, b, Tree.size]) (by decide)
      (show Image.length? 3 2 = some 70 by decide)
  have hwalked : b.walk t = some ⟨[2, 0], [2512634637, 650367075], 3⟩ := by decide +kernel
  obtain rfl := Option.some.inj (hwalk.symm.trans hwalked)
  rw [hlayout] at hindices hvalues hrest
  refine ⟨w, w₁, w₂, hwalked, hstart, hfirst, hshown, hsecond, hend, hindices, hvalues,
    fun i hi => hrest i ?_ ?_⟩
  · change ¬ (11 ≤ i ∧ i < 13)
    omega
  · change ¬ (13 ≤ i ∧ i < 15)
    omega

end ImageWalk

end TreeWalk
