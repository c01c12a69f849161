import Mathlib.Logic.Function.Basic
import Mathlib.Tactic.Set
import TreeWalk.Proofs.Footprint
import TreeWalk.Walk.ImageWalk

/-!
# The walk of a lane

On an image whose parts share no word the lanes do not see each other. From the root on, all lanes
go down the tree level by level and return to the root together.
-/

namespace TreeWalk

theorem Tree.nodeCount?_eq_some_iff {height count : Nat} :
    Tree.nodeCount? height = some count ↔ count = 2 ^ (height + 1) - 1 ∧ count ≤ Word.maxSize := by
  unfold Tree.nodeCount? Word.maxSize
  rw [Nat.one_shiftLeft, Nat.one_shiftLeft]
  split <;> rename_i h
  · have hp : 2 ^ (height + 1) ≤ 2 ^ 32 := Nat.pow_le_pow_right (by decide) (by omega)
    simp only [Option.some.injEq]
    omega
  · have hp : 2 ^ 33 ≤ 2 ^ (height + 1) := Nat.pow_le_pow_right (by decide) (by omega)
    simp only [reduceCtorEq, false_iff]
    omega

namespace Walk

/-- The side of the child that a value chooses: one on an even value, two on an odd one. -/
def side (value : Word) : Nat := if value % 2 = 0 then 1 else 2

theorem side_cases (value : Word) : side value = 1 ∨ side value = 2 := by
  unfold side
  split <;> simp

/-- Where a step leads: to the child's number within 32 bits, or to the root if the tree has no
such node. -/
theorem toNat_step (node index value : Word) (nodeCount : Nat) :
    (step node index value nodeCount).1.toNat =
      if nodeCount ≤ (2 * index.toNat + side (step node index value nodeCount).2) % 2 ^ 32 then 0
      else (2 * index.toNat + side (step node index value nodeCount).2) % 2 ^ 32 := by
  have hchild (v : Word) : (index * 2 + (if v % 2 = 0 then 1 else 2)).toNat =
      (2 * index.toNat + side v) % 2 ^ 32 := by
    have htwo : (2 : Word).toNat = 2 := rfl
    have hone : (1 : Word).toNat = 1 := rfl
    unfold side
    split <;> simp only [UInt32.toNat_add, UInt32.toNat_mul, htwo, hone] <;> omega
  simp only [step, hchild]
  split
  · rfl
  · exact hchild _

end Walk

namespace Image

/-- No word belongs to two parts. -/
def Layout.PartsApart (l : Layout) : Prop :=
  l.parts.Pairwise fun p q =>
    ∀ i, p.2.1 ≤ i ∧ i < p.2.1 + p.2.2 → ¬ (q.2.1 ≤ i ∧ i < q.2.1 + q.2.2)

/-- An image that can be addressed, with a complete tree, parts that share no word, and all lanes
at the root. -/
structure Walkable (l : Layout) (mem : Array Word) : Prop where
  header : l = readHeader mem
  header_le : headerLength ≤ mem.size
  size_le : mem.size ≤ 2 ^ 32
  nodes : l.nodesAt + l.nodeCount ≤ mem.size
  indices : l.indicesAt + l.batch ≤ mem.size
  values : l.valuesAt + l.batch ≤ mem.size
  nodeCount : l.nodeCount = 2 ^ (l.height + 1) - 1
  apart : l.PartsApart
  roots : ∀ lane < l.batch, mem[l.indicesAt + lane]? = some 0

/-- An image that can be addressed, with a complete tree and all parts inside. -/
structure InBounds (l : Layout) (mem : Array Word) : Prop where
  header : l = readHeader mem
  header_le : headerLength ≤ mem.size
  size_le : mem.size ≤ 2 ^ 32
  nodes : l.nodesAt + l.nodeCount ≤ mem.size
  indices : l.indicesAt + l.batch ≤ mem.size
  values : l.valuesAt + l.batch ≤ mem.size
  nodeCount : l.nodeCount = 2 ^ (l.height + 1) - 1

theorem Walkable.inBounds {l : Layout} {mem : Array Word} (h : Walkable l mem) : InBounds l mem :=
  ⟨h.header, h.header_le, h.size_le, h.nodes, h.indices, h.values, h.nodeCount⟩

/-- Index and value of a lane after some rounds. -/
def laneAfter (l : Layout) (mem : Array Word) (lane : Nat) : Nat → Word × Word
  | 0 => (mem.getD (l.indicesAt + lane) 0, mem.getD (l.valuesAt + lane) 0)
  | n + 1 =>
    let (index, value) := laneAfter l mem lane n
    Walk.step (mem.getD (l.nodesAt + index.toNat) 0) index value l.nodeCount

/-- The node is one of the `2 ^ depth` nodes of a level. -/
def OnLevel (depth : Nat) (index : Word) : Prop :=
  2 ^ depth ≤ index.toNat + 1 ∧ index.toNat + 1 < 2 ^ (depth + 1)

theorem OnLevel.step {depth height : Nat} {index : Word} (h : OnLevel depth index)
    (hdepth : depth ≤ height) (hheight : height + 1 < 32) (node value : Word) :
    OnLevel ((depth + 1) % (height + 1))
      (Walk.step node index value (2 ^ (height + 1) - 1)).1 := by
  obtain ⟨hlow, hhigh⟩ := h
  have hmono : 2 ^ (depth + 1) ≤ 2 ^ (height + 1) := Nat.pow_le_pow_right (by decide) (by omega)
  have hmax : 2 ^ (height + 1) ≤ 2 ^ 31 := Nat.pow_le_pow_right (by decide) (by omega)
  have hpow : 2 ^ (depth + 1) = 2 * 2 ^ depth := by rw [Nat.pow_succ, Nat.mul_comm]
  have hpow' : 2 ^ (depth + 1 + 1) = 2 * 2 ^ (depth + 1) := by
    rw [Nat.pow_succ _ (depth + 1), Nat.mul_comm]
  have hstep := Walk.toNat_step node index value (2 ^ (height + 1) - 1)
  have hside := Walk.side_cases (Walk.step node index value (2 ^ (height + 1) - 1)).2
  -- whichever child it is, its number does not wrap
  rw [Nat.mod_eq_of_lt (by omega)] at hstep
  unfold OnLevel
  rcases Nat.lt_or_eq_of_le hdepth with hlt | rfl
  · have hinner : 2 ^ (depth + 1 + 1) ≤ 2 ^ (height + 1) :=
      Nat.pow_le_pow_right (by decide) (by omega)
    rw [if_neg (by omega)] at hstep
    rw [Nat.mod_eq_of_lt (by omega)]
    omega
  · rw [if_pos (by omega)] at hstep
    rw [Nat.mod_self, hstep]
    decide

namespace Walkable

variable {l : Layout} {mem : Array Word} {lane : Nat}

theorem apart_iff (h : Walkable l mem) (i : Nat) :
    (l.nodesAt ≤ i → i < l.nodesAt + l.nodeCount →
      ¬ (l.indicesAt ≤ i ∧ i < l.indicesAt + l.batch) ∧
        ¬ (l.valuesAt ≤ i ∧ i < l.valuesAt + l.batch)) ∧
    (l.indicesAt ≤ i → i < l.indicesAt + l.batch →
      ¬ (l.valuesAt ≤ i ∧ i < l.valuesAt + l.batch)) := by
  have hapart := h.apart
  simp only [Layout.PartsApart, Layout.parts, List.pairwise_cons, List.mem_cons,
    List.not_mem_nil, or_false, forall_eq_or_imp, forall_eq] at hapart
  obtain ⟨⟨hni, hnv⟩, hiv, -⟩ := hapart
  exact ⟨fun hlo hhi => ⟨hni i ⟨hlo, hhi⟩, hnv i ⟨hlo, hhi⟩⟩, fun hlo hhi => hiv i ⟨hlo, hhi⟩⟩

theorem height_lt (h : Walkable l mem) (hlane : lane < l.batch) : l.height + 1 < 32 := by
  have hindex := (h.apart_iff l.indicesAt).2 (Nat.le_refl _) (by omega)
  have hindex' := (h.apart_iff l.indicesAt).1
  have hvalue := (h.apart_iff l.valuesAt).1
  have hnodes := h.nodes
  have hindices := h.indices
  have hvalues := h.values
  have hsize := h.size_le
  have hcount := h.nodeCount
  have hpow : 2 ^ (l.height + 1) < 2 ^ 32 := by
    have hpos : 0 < 2 ^ (l.height + 1) := Nat.two_pow_pos _
    omega
  exact (Nat.pow_lt_pow_iff_right (by decide)).mp hpow

/-- A step goes down one level, and from the last level back to the root. -/
theorem onLevel_step (h : Walkable l mem) (hlane : lane < l.batch) {depth : Nat} {index : Word}
    (hdepth : depth ≤ l.height) (hindex : OnLevel depth index) (node value : Word) :
    OnLevel ((depth + 1) % (l.height + 1)) (Walk.step node index value l.nodeCount).1 := by
  rw [h.nodeCount]
  exact hindex.step hdepth (h.height_lt hlane) node value

/-- After any number of rounds a lane is on the level that the number says. -/
theorem onLevel_laneAfter (h : Walkable l mem) (hlane : lane < l.batch) (round : Nat) :
    OnLevel (round % (l.height + 1)) (laneAfter l mem lane round).1 := by
  induction round with
  | zero =>
    have hroot : mem.getD (l.indicesAt + lane) 0 = 0 := by
      rw [Array.getD_eq_getD_getElem?, h.roots lane hlane, Option.getD_some]
    simp [laneAfter, hroot, OnLevel]
  | succ round ih =>
    have hdepth : round % (l.height + 1) ≤ l.height :=
      Nat.le_of_lt_succ (Nat.mod_lt _ (Nat.succ_pos _))
    have hstep := h.onLevel_step hlane hdepth ih
      (mem.getD (l.nodesAt + (laneAfter l mem lane round).1.toNat) 0)
      (laneAfter l mem lane round).2
    rwa [Nat.mod_add_mod] at hstep

theorem laneAfter_lt_nodeCount (h : Walkable l mem) (hlane : lane < l.batch) (round : Nat) :
    (laneAfter l mem lane round).1.toNat < l.nodeCount := by
  obtain ⟨-, hhigh⟩ := h.onLevel_laneAfter hlane round
  have hcount := h.nodeCount
  have hdepth : round % (l.height + 1) < l.height + 1 := Nat.mod_lt _ (Nat.succ_pos _)
  have hmono : 2 ^ (round % (l.height + 1) + 1) ≤ 2 ^ (l.height + 1) :=
    Nat.pow_le_pow_right (by decide) hdepth
  omega

end Walkable

/-- The image in which every lane has gone as many rounds as `done` says. -/
structure Shows (l : Layout) (mem : Array Word) (done : Nat → Nat) (mem' : Array Word) : Prop where
  size : mem'.size = mem.size
  index : ∀ lane < l.batch,
    mem'[l.indicesAt + lane]? = some (laneAfter l mem lane (done lane)).1
  value : ∀ lane < l.batch,
    mem'[l.valuesAt + lane]? = some (laneAfter l mem lane (done lane)).2
  rest : ∀ i, ¬ (l.indicesAt ≤ i ∧ i < l.indicesAt + l.batch) →
    ¬ (l.valuesAt ≤ i ∧ i < l.valuesAt + l.batch) → mem'[i]? = mem[i]?

namespace Shows

variable {l : Layout} {mem mem₁ mem₂ : Array Word} {done : Nat → Nat}

theorem unique (h₁ : Shows l mem done mem₁) (h₂ : Shows l mem done mem₂) : mem₁ = mem₂ := by
  apply Array.ext_getElem?
  intro i
  by_cases hindex : l.indicesAt ≤ i ∧ i < l.indicesAt + l.batch
  · obtain ⟨lane, rfl⟩ := Nat.exists_eq_add_of_le hindex.1
    rw [h₁.index lane (by omega), h₂.index lane (by omega)]
  · by_cases hvalue : l.valuesAt ≤ i ∧ i < l.valuesAt + l.batch
    · obtain ⟨lane, rfl⟩ := Nat.exists_eq_add_of_le hvalue.1
      rw [h₁.value lane (by omega), h₂.value lane (by omega)]
    · rw [h₁.rest i hindex hvalue, h₂.rest i hindex hvalue]

theorem congr {done' : Nat → Nat} (h : Shows l mem done mem₁)
    (hdone : ∀ lane < l.batch, done lane = done' lane) : Shows l mem done' mem₁ :=
  ⟨h.size, fun lane hlane => hdone lane hlane ▸ h.index lane hlane,
    fun lane hlane => hdone lane hlane ▸ h.value lane hlane, h.rest⟩

theorem start (h : Walkable l mem) : Shows l mem (fun _ => 0) mem := by
  have hindices := h.indices
  have hvalues := h.values
  refine ⟨rfl, fun lane hlane => ?_, fun lane hlane => ?_, fun _ _ _ => rfl⟩
  · simp [laneAfter, show l.indicesAt + lane < mem.size by omega]
  · simp [laneAfter, show l.valuesAt + lane < mem.size by omega]

theorem node (h : Shows l mem done mem₁) (hw : Walkable l mem) {i : Nat} (hi : i < l.nodeCount) :
    mem₁[l.nodesAt + i]? = some (mem.getD (l.nodesAt + i) 0) := by
  obtain ⟨hindex, hvalue⟩ := (hw.apart_iff (l.nodesAt + i)).1 (by omega) (by omega)
  have hlt : l.nodesAt + i < mem.size := by have := hw.nodes; omega
  rw [h.rest _ hindex hvalue]
  simp [hlt]

theorem stepLane (h : Shows l mem done mem₁) (hw : Walkable l mem) {lane : Nat}
    (hlane : lane < l.batch) :
    ∃ mem₂, ImageWalk.stepLane l mem₁ lane = some mem₂ ∧
      Shows l mem (Function.update done lane (done lane + 1)) mem₂ := by
  have hnode := h.node hw (hw.laneAfter_lt_nodeCount hlane (done lane))
  have hindices := hw.indices
  have hvalues := hw.values
  have hsize := h.size
  set next := laneAfter l mem lane (done lane + 1) with hnext
  refine ⟨(mem₁.setIfInBounds (l.indicesAt + lane) next.1).setIfInBounds (l.valuesAt + lane) next.2,
    ?_, ?_⟩
  · simp only [ImageWalk.stepLane, h.index lane hlane, h.value lane hlane, hnode,
      Option.bind_eq_bind, Option.bind_some]
    rfl
  · have hapart (i : Nat) := (hw.apart_iff i).2
    refine ⟨by simpa using hsize, fun k hk => ?_, fun k hk => ?_, fun i hindex hvalue => ?_⟩
    · have hne : l.valuesAt + lane ≠ l.indicesAt + k := by
        have := hapart (l.indicesAt + k)
        omega
      rw [Array.getElem?_setIfInBounds_ne hne]
      by_cases hkl : k = lane
      · subst hkl
        rw [Array.getElem?_setIfInBounds_self_of_lt (by omega), Function.update_self]
      · rw [Array.getElem?_setIfInBounds_ne (by omega), Function.update_of_ne hkl]
        exact h.index k hk
    · by_cases hkl : k = lane
      · subst hkl
        rw [Array.getElem?_setIfInBounds_self_of_lt (by simp; omega), Function.update_self]
      · have hne : l.indicesAt + lane ≠ l.valuesAt + k := by
          have := hapart (l.valuesAt + k)
          omega
        rw [Array.getElem?_setIfInBounds_ne (by omega), Array.getElem?_setIfInBounds_ne hne,
          Function.update_of_ne hkl]
        exact h.value k hk
    · rw [Array.getElem?_setIfInBounds_ne (by omega), Array.getElem?_setIfInBounds_ne (by omega)]
      exact h.rest i hindex hvalue

theorem stepLanes (hw : Walkable l mem) {round count : Nat} (hcount : count ≤ l.batch)
    (h : Shows l mem (fun _ => round) mem₁) :
    ∃ mem₂, (List.range count).foldlM (ImageWalk.stepLane l) mem₁ = some mem₂ ∧
      Shows l mem (fun lane => if lane < count then round + 1 else round) mem₂ := by
  induction count with
  | zero => exact ⟨mem₁, rfl, by simpa using h⟩
  | succ count ih =>
    obtain ⟨mem₂, hfold, hshows⟩ := ih (by omega)
    obtain ⟨mem₃, hstep, hshows'⟩ := hshows.stepLane hw (show count < l.batch by omega)
    refine ⟨mem₃, ?_, hshows'.congr fun lane _ => ?_⟩
    · rw [List.range_succ, List.foldlM_append, hfold]
      simpa using hstep
    · by_cases hlane : lane = count
      · subst hlane
        simp
      · rw [Function.update_of_ne hlane]
        congr 1
        simp only [eq_iff_iff]
        omega

theorem roundsOn (hw : Walkable l mem) {round : Nat} (n : Nat)
    (h : Shows l mem (fun _ => round) mem₁) :
    ∃ mem₂, ImageWalk.roundsOn l n mem₁ = some mem₂ ∧ Shows l mem (fun _ => round + n) mem₂ := by
  induction n generalizing round mem₁ with
  | zero => exact ⟨mem₁, rfl, h⟩
  | succ n ih =>
    obtain ⟨mem₂, hround, hshows⟩ := stepLanes hw (Nat.le_refl l.batch) h
    have hshows₂ : Shows l mem (fun _ => round + 1) mem₂ :=
      hshows.congr fun lane hlane => if_pos hlane
    obtain ⟨mem₃, hrounds, hshows'⟩ := ih hshows₂
    refine ⟨mem₃, ?_, hshows'.congr fun _ _ => by omega⟩
    simp only [ImageWalk.roundsOn, ImageWalk.roundOn, hround, Option.bind_eq_bind,
      Option.bind_some]
    exact hrounds

end Shows

theorem decode_eq_ok {mem : Array Word} {l : Layout} (h : decode mem = .ok l) :
    l = readHeader mem ∧ headerLength ≤ mem.size ∧
      (∀ p ∈ l.parts, p.2.1 + p.2.2 ≤ mem.size) ∧ l.nodeCount = 2 ^ (l.height + 1) - 1 := by
  unfold decode at h
  split at h
  · cases h
  · rename_i hlength
    dsimp only at h
    split at h
    · cases h
    · rename_i hparts
      split at h
      · rename_i hcount
        cases h
        refine ⟨rfl, Nat.le_of_not_lt hlength, fun p hp => ?_,
          (Tree.nodeCount?_eq_some_iff.mp hcount).1⟩
        simpa using List.find?_eq_none.mp hparts p hp
      · cases h

theorem inBounds_of_decode {mem : Array Word} {l : Layout} (h : decode mem = .ok l)
    (hsize : mem.size ≤ 2 ^ 32) : InBounds l mem := by
  obtain ⟨hheader, hlength, hparts, hcount⟩ := decode_eq_ok h
  simp only [Layout.parts, List.mem_cons, List.not_mem_nil, or_false, forall_eq_or_imp,
    forall_eq] at hparts
  exact ⟨hheader, hlength, hsize, hparts.1, hparts.2.1, hparts.2.2, hcount⟩

end Image

namespace ImageWalk

variable {mem : Array Word} {w : ImageWalk}

theorem start_eq_ok (h : start mem = .ok w) :
    ∃ l, Image.decode mem = .ok l ∧ w = ⟨mem, l, .fresh⟩ := by
  unfold start at h
  cases hdecode : Image.decode mem with
  | error e =>
    rw [hdecode] at h
    cases h
  | ok l =>
    simp only [hdecode, bind, Except.bind] at h
    split at h
    · cases h
    · cases h
      exact ⟨l, rfl, rfl⟩

theorem walkable_of_start (h : start mem = .ok w) (hsize : mem.size ≤ 2 ^ 32)
    (hapart : w.layout.PartsApart)
    (hroots : ∀ lane < w.layout.batch, mem[w.layout.indicesAt + lane]? = some 0) :
    w = ⟨mem, w.layout, .fresh⟩ ∧ Image.Walkable w.layout mem := by
  obtain ⟨l, hdecode, rfl⟩ := start_eq_ok h
  have h := Image.inBounds_of_decode hdecode hsize
  exact ⟨rfl, h.header, h.header_le, h.size_le, h.nodes, h.indices, h.values, h.nodeCount, hapart,
    hroots⟩

/-- The walk shows the image untouched first, then after all of its rounds, and nothing more. -/
theorem next_next (h : Image.Walkable w.layout mem) (hw : w = ⟨mem, w.layout, .fresh⟩) :
    ∃ w₁ w₂, w.next = .shown w₁ ∧ w₁.mem = mem ∧ w₁.next = .shown w₂ ∧ w₂.next = .exhausted ∧
      Image.Shows w.layout mem (fun _ => w.layout.rounds) w₂.mem := by
  obtain ⟨mem₂, hrounds, hshows⟩ := (Image.Shows.start h).roundsOn h w.layout.rounds
  rw [Nat.zero_add] at hshows
  refine ⟨⟨mem, w.layout, .begun⟩, ⟨mem₂, w.layout, .done⟩, ?_, rfl, ?_, rfl, hshows⟩
  · rw [hw]
    rfl
  · simp only [next, hrounds]

theorem roundsOn_of_next {w' : ImageWalk} (hphase : w.phase = .begun) (h : w.next = .shown w') :
    roundsOn w.layout w.layout.rounds w.mem = some w'.mem := by
  unfold next at h
  rw [hphase] at h
  dsimp only at h
  split at h
  · rename_i mem' hrounds
    obtain rfl := Next.shown.inj h
    exact hrounds
  · cases h

end ImageWalk

end TreeWalk
