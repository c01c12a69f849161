import TreeWalk.Proofs.Lanes

/-!
# Filling scratch and storing blocks

Operations that set stretches of scratch words which share no word, and read none of them, fill the
scratch in any order. Blocks that are stored to stretches of memory that share no word all arrive.
-/

namespace TreeWalk

/-- An operation with the scratch words that it sets. -/
structure Filling where
  op : Op
  start : Nat
  length : Nat
  words : Nat → Word

namespace Filling

def Covers (x : Filling) (i : Nat) : Prop := x.start ≤ i ∧ i < x.start + x.length

def Apart (x y : Filling) : Prop :=
  x.start + x.length ≤ y.start ∨ y.start + y.length ≤ x.start

/-- The operation does what it is for as long as only words of `W` have changed. -/
def Works (W : Nat → Prop) (s : Contents) (x : Filling) : Prop :=
  ∀ t, Contents.DiffersIn W s t → x.op.execute t = some (t.put x.start x.length x.words)

def sum (s : Contents) (dest base offset : Addr) (number : Word) : Filling :=
  ⟨.scalar .add dest base offset, dest.toNat, 1, fun _ => s.word base + number⟩

theorem sum_works {s : Contents} {dest base offset : Addr} {number : Word} {lo hi : Nat}
    (hsize : hi ≤ s.scratch.size) (hhi : hi ≤ 2 ^ 32) (hdest : lo ≤ dest.toNat ∧ dest.toNat < hi)
    (hbase : base.toNat < lo) (hoffset : offset.toNat < lo) (hnumber : s.word offset = number) :
    (sum s dest base offset number).Works (fun i => lo ≤ i ∧ i < hi) s := by
  intro t ht
  have hword : t.word base = s.word base := ht.lane (by omega)
  have hsame : t.word offset = number := (ht.lane (by omega)).trans hnumber
  have hholds {a : Addr} (ha : a.toNat < hi) : t.Holds a 1 :=
    ht.holds.mpr ⟨by omega, by omega⟩
  have hexec := execute_scalar (show Opcode.add.isTotal = true from rfl) (hholds hdest.2)
    (hholds (a := base) (by omega)) (hholds (a := offset) (by omega))
  rw [hword, hsame] at hexec
  exact hexec

end Filling

/-- Fillings that set no common word fill their words. -/
theorem execute_fillings {fills : List Filling} {W : Nat → Prop} {s : Contents}
    (hworks : ∀ x ∈ fills, x.Works W s) (hW : ∀ x ∈ fills, ∀ i, x.Covers i → W i)
    (hsize : ∀ x ∈ fills, x.start + x.length ≤ s.scratch.size)
    (hapart : fills.Pairwise Filling.Apart) :
    ∃ t, execute (fills.map (·.op)) s = some t ∧
      Contents.DiffersIn (fun i => ∃ x ∈ fills, x.Covers i) s t ∧
      ∀ x ∈ fills, ∀ l < x.length, t.scratch[x.start + l]? = some (x.words l) := by
  induction fills generalizing s with
  | nil => exact ⟨s, rfl, .refl _ s, by simp⟩
  | cons x rest ih =>
    obtain ⟨hx, hrest⟩ := List.pairwise_cons.mp hapart
    have hput := Contents.DiffersIn.put s x.start x.length x.words
    have hputW : Contents.DiffersIn W s (s.put x.start x.length x.words) :=
      hput.mono (hW x List.mem_cons_self)
    obtain ⟨t, ht, hdiffers, hwords⟩ := ih (s := s.put x.start x.length x.words)
      (fun y hy u hu => hworks y (List.mem_cons_of_mem x hy) u (hputW.trans hu))
      (fun y hy => hW y (List.mem_cons_of_mem x hy))
      (fun y hy => hput.size.symm ▸ hsize y (List.mem_cons_of_mem x hy)) hrest
    refine ⟨t, ?_, (hput.mono fun i hi => ⟨x, List.mem_cons_self, hi⟩).trans
      (hdiffers.mono fun i ⟨y, hy, hi⟩ => ⟨y, List.mem_cons_of_mem x hy, hi⟩), fun y hy l hl => ?_⟩
    · rw [List.map_cons, execute, hworks x List.mem_cons_self s (.refl W s), Option.bind_some]
      exact ht
    · rcases List.mem_cons.mp hy with rfl | hy
      · -- the later fillings leave these words alone
        have hkept := hdiffers.word (y.start + l) (by
          rintro ⟨z, hz, hcovers⟩
          have := hx z hz
          unfold Filling.Apart at this
          unfold Filling.Covers at hcovers
          omega)
        have hin := hsize y List.mem_cons_self
        rw [hkept, Contents.getElem?_put, if_pos ⟨by omega, by omega, by omega⟩,
          Nat.add_sub_cancel_left]
      · exact hwords y hy l hl

theorem execute_map_fillings {α : Type} {xs : List α} {fill : α → Filling} {lo hi : Nat}
    {s : Contents} (hhi : hi ≤ s.scratch.size)
    (hworks : ∀ x ∈ xs, (fill x).Works (fun i => lo ≤ i ∧ i < hi) s)
    (hin : ∀ x ∈ xs, lo ≤ (fill x).start ∧ (fill x).start + (fill x).length ≤ hi)
    (hapart : xs.Pairwise fun x y => (fill x).Apart (fill y)) :
    ∃ t, execute (xs.map fun x => (fill x).op) s = some t ∧
      Contents.DiffersIn (fun i => lo ≤ i ∧ i < hi) s t ∧
      ∀ x ∈ xs, ∀ l < (fill x).length,
        t.scratch[(fill x).start + l]? = some ((fill x).words l) := by
  have hcovers : ∀ y ∈ xs.map fill, ∀ i, y.Covers i → lo ≤ i ∧ i < hi := by
    intro y hy i hi
    obtain ⟨x, hx, rfl⟩ := List.mem_map.mp hy
    have := hin x hx
    unfold Filling.Covers at hi
    omega
  obtain ⟨t, ht, hdiffers, hwords⟩ := execute_fillings
    (List.forall_mem_map.mpr hworks) hcovers
    (List.forall_mem_map.mpr fun x hx => Nat.le_trans (hin x hx).2 hhi)
    (List.pairwise_map.mpr hapart)
  rw [List.map_map] at ht
  exact ⟨t, ht, hdiffers.mono fun i ⟨y, hy, hi⟩ => hcovers y hy i hi,
    fun x hx => hwords (fill x) (List.mem_map_of_mem hx)⟩

/-! ## Blocks from and to memory -/

section Blocks

variable {s : Contents} {a d src : Addr}

theorem loadLanes_eq {mem : Array Word} (hsize : mem.size ≤ 2 ^ 32) {base : Word} {count : Nat}
    (h : base.toNat + count ≤ mem.size) :
    loadLanes mem base count =
      .ok ((List.range count).map fun l => mem.getD (base.toNat + l) 0) := by
  induction count generalizing base with
  | zero => rfl
  | succ count ih =>
    have hlt : base.toNat < mem.size := by omega
    have hread : Memory.read mem base.toNat = .ok (mem.getD base.toNat 0) := by
      simp [Memory.read, hlt]
    rcases Nat.eq_zero_or_pos count with rfl | hpos
    · rw [loadLanes, hread]
      rfl
    · have hnext : (base + 1).toNat = base.toNat + 1 := by
        rw [UInt32.toNat_add, UInt32.toNat_one]
        omega
      rw [loadLanes, hread, ih (by omega), List.range_succ_eq_map, List.map_cons, List.map_map]
      simp only [bind, Except.bind, pure, Except.pure, hnext]
      congr 2
      refine List.map_congr_left fun l _ => ?_
      simp only [Function.comp_apply]
      congr 1
      omega

theorem execute_loadBlock_of_loadLanes {ws : List Word} (hd : s.Holds d laneCount)
    (ha : s.Holds a 1) (h : loadLanes s.mem (s.word a) laneCount = .ok ws) :
    (Op.loadBlock d a).execute s = some (s.put d.toNat laneCount fun l => ws.getD l 0) := by
  have hview : s.view.mem = s.mem := rfl
  rw [← Contents.commit_block hd (length_of_loadLanes h)]
  simp only [Op.execute, Op.loadBlock, Op.effect, LoadOp.writesIn, Contents.read_view ha, hview,
    bind, Except.bind, h]
  rfl

theorem execute_loadBlock (hd : s.Holds d laneCount) (ha : s.Holds a 1)
    (hmem : (s.word a).toNat + laneCount ≤ s.mem.size) (hsize : s.mem.size ≤ 2 ^ 32) :
    (Op.loadBlock d a).execute s =
      some (s.put d.toNat laneCount fun l => s.mem.getD ((s.word a).toNat + l) 0) := by
  rw [execute_loadBlock_of_loadLanes hd ha (loadLanes_eq hsize hmem)]
  exact congrArg some (Contents.put_congr fun l hl => by simp [hl])

theorem storeLanes_spec {mem : Array Word} {base : Nat} {ws : List Word}
    (h : base + ws.length ≤ mem.size) :
    ∃ writes, storeLanes mem base ws = .ok writes ∧
      ∀ mem' : Array Word, mem'.size = mem.size → ∀ i, (Memory.write writes mem')[i]? =
        if base ≤ i ∧ i < base + ws.length then ws[i - base]? else mem'[i]? := by
  induction ws generalizing base with
  | nil =>
    refine ⟨[], rfl, fun mem' _ i => ?_⟩
    rw [if_neg (by rw [List.length_nil]; omega)]
    rfl
  | cons w ws ih =>
    rw [List.length_cons] at h
    obtain ⟨writes, hstore, hwrite⟩ := ih (show base + 1 + ws.length ≤ mem.size by omega)
    refine ⟨(base, w) :: writes, ?_, fun mem' hsize i => ?_⟩
    · rw [storeLanes, hstore, Memory.check, if_pos (by omega)]
      rfl
    · have hcons : Memory.write ((base, w) :: writes) mem' =
          Memory.write writes (mem'.setIfInBounds base w) := rfl
      rw [hcons, hwrite _ (by simpa using hsize), List.length_cons]
      by_cases hi : i = base
      · subst hi
        rw [if_neg (by omega), if_pos (by omega), Nat.sub_self, List.getElem?_cons_zero]
        exact Array.getElem?_setIfInBounds_self_of_lt (by omega)
      · rw [Array.getElem?_setIfInBounds_ne (by omega)]
        by_cases hin : base + 1 ≤ i ∧ i < base + 1 + ws.length
        · rw [if_pos hin, if_pos (by omega), show i - base = i - (base + 1) + 1 by omega,
            List.getElem?_cons_succ]
        · rw [if_neg hin, if_neg (by omega)]

def Contents.StoresTo (s : Contents) (a : Addr) (i : Nat) : Prop :=
  (s.word a).toNat ≤ i ∧ i < (s.word a).toNat + laneCount

theorem execute_storeBlock (ha : s.Holds a 1) (hsrc : s.Holds src laneCount)
    (hmem : (s.word a).toNat + laneCount ≤ s.mem.size) :
    ∃ mem, (Op.storeBlock a src).execute s = some { s with mem } ∧ mem.size = s.mem.size ∧
      (∀ l < laneCount, mem[(s.word a).toNat + l]? = some (s.lane l src)) ∧
      ∀ i, ¬ s.StoresTo a i → mem[i]? = s.mem[i]? := by
  set ws := (List.range laneCount).map fun l => s.lane l src with hws
  have hlength : ws.length = laneCount := by simp [hws]
  obtain ⟨writes, hstore, hwrite⟩ :=
    storeLanes_spec (show (s.word a).toNat + ws.length ≤ s.mem.size by omega)
  have hget := hwrite s.mem rfl
  refine ⟨Memory.write writes s.mem, ?_, Memory.size_write _ _, fun l hl => ?_, fun i hi => ?_⟩
  · have hview : s.view.mem = s.mem := rfl
    simp only [Op.execute, Op.storeBlock, Op.effect, StoreOp.writesIn, Contents.read_view ha,
      Contents.readBlock_view hsrc, hview, bind, Except.bind]
    rw [← hws, hstore]
    simp [pure, Except.pure, Contents.commit, Scratch.write]
  · rw [hget, if_pos ⟨by omega, by omega⟩, Nat.add_sub_cancel_left]
    simp [hws, hl]
  · rw [hget, if_neg (by rw [hlength]; exact hi)]

/-- Blocks that are stored to different words all arrive, and no other memory word changes. -/
theorem execute_map_storeBlock {stores : List (Addr × Addr)}
    (hholds : ∀ x ∈ stores, s.Holds x.1 1 ∧ s.Holds x.2 laneCount)
    (hmem : ∀ x ∈ stores, (s.word x.1).toNat + laneCount ≤ s.mem.size)
    (hapart : stores.Pairwise fun x y => ∀ i, s.StoresTo x.1 i → ¬ s.StoresTo y.1 i) :
    ∃ mem, execute (stores.map fun x => .storeBlock x.1 x.2) s = some { s with mem } ∧
      mem.size = s.mem.size ∧
      (∀ x ∈ stores, ∀ l < laneCount, mem[(s.word x.1).toNat + l]? = some (s.lane l x.2)) ∧
      ∀ i, (∀ x ∈ stores, ¬ s.StoresTo x.1 i) → mem[i]? = s.mem[i]? := by
  induction stores generalizing s with
  | nil => exact ⟨s.mem, rfl, rfl, by simp, fun _ _ => rfl⟩
  | cons x rest ih =>
    obtain ⟨hx, hrest⟩ := List.pairwise_cons.mp hapart
    obtain ⟨ha, hsrc⟩ := hholds x List.mem_cons_self
    obtain ⟨mem₁, hstep, hsize₁, hwords₁, hkept₁⟩ :=
      execute_storeBlock ha hsrc (hmem x List.mem_cons_self)
    obtain ⟨mem₂, hrun, hsize₂, hwords₂, hkept₂⟩ := ih (s := { s with mem := mem₁ })
      (fun y hy => hholds y (List.mem_cons_of_mem x hy))
      (fun y hy => Nat.le_trans (hmem y (List.mem_cons_of_mem x hy)) (Nat.le_of_eq hsize₁.symm))
      hrest
    refine ⟨mem₂, ?_, hsize₂.trans hsize₁, fun y hy l hl => ?_, fun i hi => ?_⟩
    · rw [List.map_cons, execute, hstep, Option.bind_some]
      exact hrun
    · rcases List.mem_cons.mp hy with rfl | hy
      · rw [hkept₂ _ fun z hz => hx z hz _ ⟨by omega, by omega⟩]
        exact hwords₁ l hl
      · exact hwords₂ y hy l hl
    · rw [hkept₂ i fun y hy => hi y (List.mem_cons_of_mem x hy)]
      exact hkept₁ i (hi x List.mem_cons_self)

end Blocks

end TreeWalk
