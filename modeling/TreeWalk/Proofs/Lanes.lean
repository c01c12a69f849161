import Mathlib.Data.List.Pairwise
import Mathlib.Logic.Function.Basic
import TreeWalk.Proofs.IssueOrder

/-!
# Lanes

What the operations of a kernel do, said in words: every operation replaces one stretch of scratch
words. Lane by lane, vector code is scalar code on registers, one register to a block.
-/

namespace TreeWalk

namespace Contents

/-- The word of one lane of the block at `a`, zero outside the scratch. -/
def lane (s : Contents) (lane : Nat) (a : Addr) : Word := s.scratch.getD (a.toNat + lane) 0

def word (s : Contents) (a : Addr) : Word := s.lane 0 a

/-- The `n` words from `a` on are scratch words that can be addressed. -/
def Holds (s : Contents) (a : Addr) (n : Nat) : Prop :=
  a.toNat + n ≤ s.scratch.size ∧ a.toNat + n ≤ 2 ^ 32

/-- The contents with `g 0`, `g 1`, … as the `n` words from `start` on. -/
def put (s : Contents) (start n : Nat) (g : Nat → Word) : Contents :=
  { s with
    scratch := Array.ofFn fun i : Fin s.scratch.size =>
      if start ≤ i.val ∧ i.val < start + n then g (i.val - start) else s.scratch[i] }

variable {s : Contents} {start n : Nat} {g : Nat → Word} {a d : Addr} {l : Nat}

@[simp] theorem mem_put : (s.put start n g).mem = s.mem := rfl

@[simp] theorem size_put : (s.put start n g).scratch.size = s.scratch.size := by simp [put]

@[simp] theorem holds_put : (s.put start n g).Holds a l ↔ s.Holds a l := by simp [Holds]

theorem Holds.toNat_offset (h : s.Holds a n) (hl : l < n) : (a.offset l).toNat = a.toNat + l :=
  Addr.toNat_offset (by have := h.2; omega)

theorem Holds.offset (h : s.Holds a n) (hl : l < n) : s.Holds (a.offset l) 1 := by
  unfold Holds
  rw [h.toNat_offset hl]
  obtain ⟨hsize, hfit⟩ := h
  exact ⟨by omega, by omega⟩

theorem word_offset (h : s.Holds a n) (hl : l < n) : s.word (a.offset l) = s.lane l a := by
  simp only [word, lane, h.toNat_offset hl, Nat.add_zero]

theorem getElem?_put (s : Contents) (start n : Nat) (g : Nat → Word) (i : Nat) :
    (s.put start n g).scratch[i]? =
      if start ≤ i ∧ i < start + n ∧ i < s.scratch.size then some (g (i - start))
      else s.scratch[i]? := by
  by_cases hi : i < s.scratch.size
  · have hget : (s.put start n g).scratch[i]? =
        some (if start ≤ i ∧ i < start + n then g (i - start) else s.scratch[i]) := by
      simp [put, hi]
    rw [hget]
    by_cases h : start ≤ i ∧ i < start + n
    · simp [h, hi]
    · have h' : ¬ (start ≤ i ∧ i < start + n ∧ i < s.scratch.size) := fun hh => h ⟨hh.1, hh.2.1⟩
      rw [if_neg h, if_neg h', Array.getElem?_eq_getElem hi]
  · simp [hi]

theorem lane_put_self (h : s.Holds d n) (hl : l < n) : (s.put d.toNat n g).lane l d = g l := by
  have hin : d.toNat + l < s.scratch.size := by have := h.1; omega
  have hget : (s.put d.toNat n g).scratch[d.toNat + l]? = some (g l) := by
    rw [getElem?_put, if_pos ⟨by omega, by omega, hin⟩]
    simp
  rw [lane, Array.getD_eq_getD_getElem?, hget, Option.getD_some]

theorem put_congr {g' : Nat → Word} (h : ∀ l < n, g l = g' l) :
    s.put start n g = s.put start n g' := by
  have hscratch : (s.put start n g).scratch = (s.put start n g').scratch := by
    apply Array.ext_getElem?
    intro i
    rw [getElem?_put, getElem?_put]
    split
    · rw [h _ (by omega)]
    · rfl
  exact congrArg (fun scratch => ({ s with scratch } : Contents)) hscratch

theorem lane_put_of_apart (h : a.toNat + l < start ∨ start + n ≤ a.toNat + l) :
    (s.put start n g).lane l a = s.lane l a := by
  have hout : ¬ (start ≤ a.toNat + l ∧ a.toNat + l < start + n ∧
      a.toNat + l < s.scratch.size) := by omega
  simp only [lane, Array.getD_eq_getD_getElem?, getElem?_put, if_neg hout]

/-- The second contents differ from the first at most in the scratch words of `W`. -/
structure DiffersIn (W : Nat → Prop) (s t : Contents) : Prop where
  id : t.id = s.id
  mem : t.mem = s.mem
  trace : t.trace = s.trace
  size : t.scratch.size = s.scratch.size
  word : ∀ i, ¬ W i → t.scratch[i]? = s.scratch[i]?

namespace DiffersIn

variable {W W' : Nat → Prop} {t u : Contents}

theorem refl (W : Nat → Prop) (s : Contents) : DiffersIn W s s :=
  ⟨rfl, rfl, rfl, rfl, fun _ _ => rfl⟩

theorem mono (h : DiffersIn W s t) (hsub : ∀ i, W i → W' i) : DiffersIn W' s t :=
  ⟨h.id, h.mem, h.trace, h.size, fun i hi => h.word i fun hw => hi (hsub i hw)⟩

theorem trans (h : DiffersIn W s t) (h' : DiffersIn W t u) : DiffersIn W s u :=
  ⟨h'.id.trans h.id, h'.mem.trans h.mem, h'.trace.trans h.trace, h'.size.trans h.size,
    fun i hi => (h'.word i hi).trans (h.word i hi)⟩

theorem trans' (h : DiffersIn W s t) (h' : DiffersIn W' t u) :
    DiffersIn (fun i => W i ∨ W' i) s u :=
  (h.mono fun _ => Or.inl).trans (h'.mono fun _ => Or.inr)

theorem put (s : Contents) (start n : Nat) (g : Nat → Word) :
    DiffersIn (fun i => start ≤ i ∧ i < start + n) s (s.put start n g) := by
  refine ⟨rfl, rfl, rfl, size_put, fun i hi => ?_⟩
  rw [getElem?_put, if_neg fun h => hi ⟨h.1, h.2.1⟩]

theorem lane (h : DiffersIn W s t) {l : Nat} {a : Addr} (hl : ¬ W (a.toNat + l)) :
    t.lane l a = s.lane l a := by
  simp only [Contents.lane, Array.getD_eq_getD_getElem?, h.word _ hl]

theorem holds (h : DiffersIn W s t) {a : Addr} {n : Nat} : t.Holds a n ↔ s.Holds a n := by
  simp only [Contents.Holds, h.size]

end DiffersIn

end Contents

namespace Opcode

def isTotal : Opcode → Bool
  | div | ceilDiv | rem => false
  | _ => true

def value (code : Opcode) (x y : Word) : Word := (code.apply x y).getD 0

theorem apply_eq_some_value {code : Opcode} (h : code.isTotal = true) (x y : Word) :
    code.apply x y = some (code.value x y) := by
  cases code <;> first | rfl | cases h

end Opcode

/-! ## Single operations -/

section Operations

variable {s : Contents} {a b c d : Addr}

theorem Contents.read_view (h : s.Holds a 1) : s.view.read a = .ok (s.word a) := by
  have hlt : a.toNat < s.scratch.size := by have := h.1; omega
  simp [View.read, Scratch.read, Contents.view, Contents.word, Contents.lane, hlt]

theorem Contents.readBlock_view (h : s.Holds a laneCount) :
    s.view.readBlock a = .ok ((List.range laneCount).map fun l => s.lane l a) := by
  simp [View.readBlock, Scratch.readBlock, Contents.view, h.1, Contents.lane]

theorem Contents.commit_word (h : s.Holds d 1) (w : Word) :
    s.commit { scratch := [(d, w)], control := {} } = some (s.put d.toNat 1 fun _ => w) := by
  have hlt : d.toNat < s.scratch.size := by have := h.1; omega
  rw [Contents.commit_eq_some_iff]
  refine ⟨by simpa using hlt, ?_⟩
  have hscratch : (s.put d.toNat 1 fun _ => w).scratch =
      (Scratch.write [(d, w)] s.scratch).1 := by
    apply Array.ext_getElem?
    intro i
    rw [Contents.getElem?_put, Scratch.getElem?_write_singleton hlt]
    by_cases hi : d.toNat = i
    · subst hi
      simp [hlt]
    · rw [if_neg hi, if_neg (by omega)]
  rw [← hscratch]
  simp [Contents.put, Memory.write]

theorem Contents.Holds.touches_blockWrites_iff (h : s.Holds d laneCount) {ws : List Word}
    (hws : ws.length = laneCount) (i : Nat) :
    Scratch.Touches (blockWrites d ws) i ↔ d.toNat ≤ i ∧ i < d.toNat + laneCount := by
  have hmem : Scratch.Touches (blockWrites d ws) i ↔ ∃ b ∈ d.block, b.toNat = i := by
    rw [← map_fst_blockWrites hws]
    simp [Scratch.Touches]
  rw [hmem]
  constructor
  · rintro ⟨b, hb, rfl⟩
    obtain ⟨l, hl, rfl⟩ := Addr.mem_block.mp hb
    rw [h.toNat_offset hl]
    omega
  · rintro ⟨hle, hlt⟩
    have hl : i - d.toNat < laneCount := by omega
    refine ⟨d.offset (i - d.toNat), Addr.mem_block.mpr ⟨_, hl, rfl⟩, ?_⟩
    rw [h.toNat_offset hl]
    omega

theorem Contents.Holds.write_blockWrites (h : s.Holds d laneCount) {ws : List Word}
    (hws : ws.length = laneCount)
    (hin : ∀ x ∈ blockWrites d ws, x.1.toNat < s.scratch.size) :
    (Scratch.write (blockWrites d ws) s.scratch).1 =
      (s.put d.toNat laneCount fun l => ws.getD l 0).scratch := by
  apply Array.ext_getElem?
  intro i
  rw [Contents.getElem?_put]
  by_cases hi : d.toNat ≤ i ∧ i < d.toNat + laneCount
  · have hl : i - d.toNat < laneCount := by omega
    have hsize : i < s.scratch.size := by have := h.1; omega
    have hmem : (d.offset (i - d.toNat), ws.getD (i - d.toNat) 0) ∈ blockWrites d ws := by
      refine List.mem_iff_getElem?.mpr ⟨i - d.toNat, ?_⟩
      have hlw : i - d.toNat < ws.length := by omega
      rw [blockWrites, List.getElem?_zip_eq_some]
      exact ⟨by simp [Addr.block, hl], by simp [hlw]⟩
    have hnodup : ((blockWrites d ws).map (·.1)).Nodup := by
      rw [map_fst_blockWrites hws]
      exact d.nodup_block
    have hword := Scratch.getElem?_write_of_mem hnodup hin hmem
    rw [h.toNat_offset hl, show d.toNat + (i - d.toNat) = i by omega] at hword
    rw [hword, if_pos ⟨hi.1, hi.2, hsize⟩]
  · rw [if_neg fun hh => hi ⟨hh.1, hh.2.1⟩, Scratch.getElem?_write_of_not_touches]
    rwa [h.touches_blockWrites_iff hws]

theorem Contents.commit_block (h : s.Holds d laneCount) {ws : List Word}
    (hws : ws.length = laneCount) :
    s.commit { scratch := blockWrites d ws, control := {} } =
      some (s.put d.toNat laneCount fun l => ws.getD l 0) := by
  have hin : ∀ x ∈ blockWrites d ws, x.1.toNat < s.scratch.size := by
    intro x hx
    have htouched := (h.touches_blockWrites_iff hws x.1.toNat).mp ⟨x, hx, rfl⟩
    have := h.1
    omega
  rw [Contents.commit_eq_some_iff]
  refine ⟨hin, ?_⟩
  rw [h.write_blockWrites hws hin]
  simp [Contents.put, Memory.write]

theorem execute_const (hd : s.Holds d 1) (w : Word) :
    (Op.const d w).execute s = some (s.put d.toNat 1 fun _ => w) :=
  Contents.commit_word hd w

theorem execute_scalar {code : Opcode} (hcode : code.isTotal = true) (hd : s.Holds d 1)
    (ha : s.Holds a 1) (hb : s.Holds b 1) :
    (Op.scalar code d a b).execute s =
      some (s.put d.toNat 1 fun _ => code.value (s.word a) (s.word b)) := by
  simp only [Op.execute, Op.scalar, Op.effect, ScalarOp.writesIn, Contents.read_view ha,
    Contents.read_view hb, View.compute, Opcode.apply_eq_some_value hcode]
  exact Contents.commit_word hd _

theorem execute_loadWord (hd : s.Holds d 1) (ha : s.Holds a 1) :
    (Op.loadWord d a).execute s =
      (s.mem[(s.word a).toNat]?).map fun w => s.put d.toNat 1 fun _ => w := by
  have hmem : s.view.mem = s.mem := rfl
  simp only [Op.execute, Op.loadWord, Op.effect, LoadOp.writesIn, Contents.read_view ha,
    Memory.read, hmem]
  cases hw : s.mem[(s.word a).toNat]? with
  | none => simp only [bind, Except.bind, hw, Option.map_none]
  | some w =>
    simp only [bind, Except.bind, hw, Option.map_some]
    exact Contents.commit_word hd w

theorem execute_broadcast (hd : s.Holds d laneCount) (ha : s.Holds a 1) :
    (Op.broadcast d a).execute s = some (s.put d.toNat laneCount fun _ => s.word a) := by
  simp only [Op.execute, Op.broadcast, Op.effect, VectorOp.writesIn, Contents.read_view ha]
  rw [← Contents.put_congr (g := fun l => (List.replicate laneCount (s.word a)).getD l 0)
    fun l hl => by simp [hl]]
  exact Contents.commit_block hd (by simp)

theorem computeLanes_eq_zipWith {code : Opcode} (hcode : code.isTotal = true) (v : View)
    (xs ys : List Word) : computeLanes v code xs ys = .ok (List.zipWith code.value xs ys) := by
  induction xs generalizing ys with
  | nil => rfl
  | cons x xs ih =>
    cases ys with
    | nil => rfl
    | cons y ys =>
      simp only [computeLanes, View.compute, Opcode.apply_eq_some_value hcode, ih]
      rfl

theorem execute_vector {code : Opcode} (hcode : code.isTotal = true) (hd : s.Holds d laneCount)
    (ha : s.Holds a laneCount) (hb : s.Holds b laneCount) :
    (Op.vector code d a b).execute s =
      some (s.put d.toNat laneCount fun l => code.value (s.lane l a) (s.lane l b)) := by
  simp only [Op.execute, Op.vector, Op.effect, VectorOp.writesIn, Contents.readBlock_view ha,
    Contents.readBlock_view hb]
  rw [← Contents.put_congr (g := fun l => (List.zipWith code.value
    ((List.range laneCount).map fun l => s.lane l a)
    ((List.range laneCount).map fun l => s.lane l b)).getD l 0) fun l hl => by simp [hl]]
  rw [← Contents.commit_block hd (by simp)]
  simp only [bind, Except.bind, computeLanes_eq_zipWith hcode]
  rfl

theorem execute_multiplyAdd (hd : s.Holds d laneCount) (ha : s.Holds a laneCount)
    (hb : s.Holds b laneCount) (hc : s.Holds c laneCount) :
    (Op.multiplyAdd d a b c).execute s =
      some (s.put d.toNat laneCount fun l => s.lane l a * s.lane l b + s.lane l c) := by
  simp only [Op.execute, Op.multiplyAdd, Op.effect, VectorOp.writesIn, Contents.readBlock_view ha,
    Contents.readBlock_view hb, Contents.readBlock_view hc]
  rw [← Contents.put_congr (g := fun l => (List.zipWith (· + ·) (List.zipWith (· * ·)
    ((List.range laneCount).map fun l => s.lane l a)
    ((List.range laneCount).map fun l => s.lane l b))
    ((List.range laneCount).map fun l => s.lane l c)).getD l 0) fun l hl => by simp [hl]]
  exact Contents.commit_block hd (by simp)

end Operations

/-! ## Vector code as code on lanes -/

/-- What a lane-wise operation does to the registers of one lane. -/
def Op.onLane : Op → (Addr → Word) → Addr → Word
  | valu (.binary code dest a b), ρ => Function.update ρ dest (code.value (ρ a) (ρ b))
  | valu (.multiplyAdd dest a b c), ρ => Function.update ρ dest (ρ a * ρ b + ρ c)
  | _, ρ => ρ

def onLanes (ops : List Op) (ρ : Addr → Word) : Addr → Word := ops.foldl (fun ρ op => op.onLane ρ) ρ

/-- The operation works lane by lane, changes a block of `own` and reads those of `own` and
`shared`, and cannot fault. -/
def Op.LaneWise (own shared : List Addr) : Op → Prop
  | valu (.binary code dest a b) =>
    code.isTotal = true ∧ dest ∈ own ∧ a ∈ own ++ shared ∧ b ∈ own ++ shared
  | valu (.multiplyAdd dest a b c) =>
    dest ∈ own ∧ a ∈ own ++ shared ∧ b ∈ own ++ shared ∧ c ∈ own ++ shared
  | _ => False

namespace Addr

def BlocksApart (a b : Addr) : Prop :=
  a.toNat + laneCount ≤ b.toNat ∨ b.toNat + laneCount ≤ a.toNat

def Covered (blocks : List Addr) (i : Nat) : Prop :=
  ∃ a ∈ blocks, a.toNat ≤ i ∧ i < a.toNat + laneCount

theorem BlocksApart.symm {a b : Addr} (h : a.BlocksApart b) : b.BlocksApart a := Or.symm h

instance : Std.Symm BlocksApart := ⟨fun _ _ => BlocksApart.symm⟩

theorem BlocksApart.ne {a b : Addr} (h : a.BlocksApart b) : a ≠ b := by
  rintro rfl
  have hpos : 0 < laneCount := by decide
  unfold BlocksApart at h
  omega

end Addr

/-- The blocks that some code changes and those that it only reads. -/
structure LaneBlocks (own shared : List Addr) : Prop where
  apart : own.Pairwise Addr.BlocksApart
  apart_shared : ∀ d ∈ own, ∀ a ∈ shared, d.BlocksApart a

theorem LaneBlocks.apart_of_ne {own shared : List Addr} (h : LaneBlocks own shared) {a d : Addr}
    (hd : d ∈ own) (ha : a ∈ own ++ shared) (hne : d ≠ a) : d.BlocksApart a := by
  rcases List.mem_append.mp ha with ha | ha
  · exact h.apart.forall hd ha hne
  · exact h.apart_shared d hd a ha

theorem LaneBlocks.shift {xs ys zs : List Addr} (h : LaneBlocks (xs ++ ys) zs) :
    LaneBlocks xs (ys ++ zs) := by
  obtain ⟨hxs, -, hxy⟩ := List.pairwise_append.mp h.apart
  refine ⟨hxs, fun d hd a ha => ?_⟩
  rcases List.mem_append.mp ha with ha | ha
  · exact hxy d hd a ha
  · exact h.apart_shared d (List.mem_append_left _ hd) a ha

section LaneWise

variable {own shared : List Addr} {ops : List Op} {s : Contents} {ρ : Nat → Addr → Word}

theorem execute_of_laneWise {op : Op} (hop : op.LaneWise own shared)
    (hs : ∀ a ∈ own ++ shared, s.Holds a laneCount)
    (hρ : ∀ l < laneCount, ∀ a ∈ own ++ shared, s.lane l a = ρ l a) :
    ∃ d ∈ own, ∃ g : Nat → Word, op.execute s = some (s.put d.toNat laneCount g) ∧
      ∀ l < laneCount, op.onLane (ρ l) = Function.update (ρ l) d (g l) := by
  have hown : ∀ d ∈ own, s.Holds d laneCount := fun d hd => hs d (List.mem_append_left _ hd)
  match op, hop with
  | .valu (.binary code dest a b), ⟨hcode, hd, ha, hb⟩ =>
    refine ⟨dest, hd, _, execute_vector hcode (hown dest hd) (hs a ha) (hs b hb), ?_⟩
    intro l hl
    rw [Op.onLane, hρ l hl a ha, hρ l hl b hb]
  | .valu (.multiplyAdd dest a b c), ⟨hd, ha, hb, hc⟩ =>
    refine ⟨dest, hd, _, execute_multiplyAdd (hown dest hd) (hs a ha) (hs b hb) (hs c hc), ?_⟩
    intro l hl
    rw [Op.onLane, hρ l hl a ha, hρ l hl b hb, hρ l hl c hc]

/-- Lane-wise code does on every lane what it does on registers. -/
theorem execute_onLanes (hblocks : LaneBlocks own shared)
    (hops : ∀ op ∈ ops, op.LaneWise own shared) (hs : ∀ a ∈ own ++ shared, s.Holds a laneCount)
    (hρ : ∀ l < laneCount, ∀ a ∈ own ++ shared, s.lane l a = ρ l a) :
    ∃ t, execute ops s = some t ∧ Contents.DiffersIn (Addr.Covered own) s t ∧
      ∀ l < laneCount, ∀ a ∈ own ++ shared, t.lane l a = onLanes ops (ρ l) a := by
  induction ops generalizing s ρ with
  | nil => exact ⟨s, rfl, .refl _ s, hρ⟩
  | cons op rest ih =>
    obtain ⟨d, hd, g, hexecute, hlane⟩ :=
      execute_of_laneWise (hops op List.mem_cons_self) hs hρ
    have hput : Contents.DiffersIn (Addr.Covered own) s (s.put d.toNat laneCount g) :=
      (Contents.DiffersIn.put s d.toNat laneCount g).mono fun i hi => ⟨d, hd, hi⟩
    obtain ⟨t, ht, hdiffers, hword⟩ := ih (s := s.put d.toNat laneCount g)
      (ρ := fun l => op.onLane (ρ l)) (fun x hx => hops x (List.mem_cons_of_mem op hx))
      (fun a ha => Contents.holds_put.mpr (hs a ha)) (by
        intro l hl a ha
        rw [hlane l hl]
        by_cases hda : d = a
        · subst hda
          rw [Function.update_self,
            Contents.lane_put_self (hs d (List.mem_append_left _ hd)) hl]
        · have hapart := hblocks.apart_of_ne hd ha hda
          rw [Function.update_of_ne (Ne.symm hda), Contents.lane_put_of_apart, hρ l hl a ha]
          unfold Addr.BlocksApart at hapart
          omega)
    exact ⟨t, by rw [execute, hexecute, Option.bind_some, ht], hput.trans hdiffers, hword⟩

end LaneWise

end TreeWalk
