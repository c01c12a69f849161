import TreeWalk.Op.Access
import TreeWalk.Machine.Issue
import TreeWalk.Proofs.ScratchWrites

/-!
# Footprints of operations

`Op.reads` and `Op.writes` are read off the shape of an operation, its effect off the machine. The
two agree: an effect depends on no scratch word outside `reads`, and the words it replaces are
exactly those of `writes`.
-/

namespace TreeWalk

namespace Addr

theorem toNat_ofNat {n : Nat} (h : n < 2 ^ 32) : (ofNat n).toNat = n :=
  UInt32.toNat_ofNat_of_lt' h

theorem toNat_offset {a : Addr} {delta : Nat} (h : a.toNat + delta < 2 ^ 32) :
    (a.offset delta).toNat = a.toNat + delta := by
  have hd : delta < 2 ^ 32 := by omega
  simp only [toNat, offset, UInt32.toNat_add, UInt32.toNat_ofNat_of_lt' hd] at h ⊢
  exact Nat.mod_eq_of_lt h

/-- No lane of the block at `a` lies past the last address. -/
def FitsBlock (a : Addr) : Prop := a.toNat + laneCount ≤ 2 ^ 32

def FitsLane (a : Addr) (n : Word) : Prop := a.toNat + n.toNat < 2 ^ 32

instance (a : Addr) : Decidable a.FitsBlock := inferInstanceAs (Decidable (_ ≤ _))

instance (a : Addr) (n : Word) : Decidable (a.FitsLane n) := inferInstanceAs (Decidable (_ < _))

theorem FitsBlock.toNat_offset {a : Addr} (h : a.FitsBlock) {lane : Nat}
    (hl : lane < laneCount) : (a.offset lane).toNat = a.toNat + lane := by
  unfold FitsBlock at h
  exact Addr.toNat_offset (by omega)

theorem mem_block {a b : Addr} : b ∈ a.block ↔ ∃ lane < laneCount, a.offset lane = b := by
  simp [block]

theorem FitsBlock.mem_iff {a b : Addr} (h : a.FitsBlock) :
    b ∈ a.block ↔ a.toNat ≤ b.toNat ∧ b.toNat < a.toNat + laneCount := by
  rw [mem_block]
  constructor
  · rintro ⟨lane, hlane, rfl⟩
    rw [h.toNat_offset hlane]
    omega
  · rintro ⟨hlow, hhigh⟩
    have hlane : b.toNat - a.toNat < laneCount := by omega
    refine ⟨b.toNat - a.toNat, hlane, toNat_injective ?_⟩
    rw [h.toNat_offset hlane]
    omega

end Addr

def VectorOp.Fits : VectorOp → Prop
  | .broadcast dest _ => dest.FitsBlock
  | .multiplyAdd dest a b c => dest.FitsBlock ∧ a.FitsBlock ∧ b.FitsBlock ∧ c.FitsBlock
  | .binary _ dest a b => dest.FitsBlock ∧ a.FitsBlock ∧ b.FitsBlock

def LoadOp.Fits : LoadOp → Prop
  | .lane dest addr n => dest.FitsLane n ∧ addr.FitsLane n
  | .block dest _ => dest.FitsBlock
  | .word .. | .const .. => True

def StoreOp.Fits : StoreOp → Prop
  | .block _ src => src.FitsBlock
  | .word .. => True

def FlowOp.Fits : FlowOp → Prop
  | .blockSelect dest cond a b =>
    dest.FitsBlock ∧ cond.FitsBlock ∧ a.FitsBlock ∧ b.FitsBlock
  | _ => True

namespace Op

/-- No lane or offset address of the operation wraps around the address space. -/
def Fits : Op → Prop
  | valu op => op.Fits
  | load op => op.Fits
  | store op => op.Fits
  | flow op => op.Fits
  | alu _ | note _ => True

/-- Whether the operation reads a memory word. -/
def readsMemory : Op → Bool
  | load (.const ..) => false
  | load _ => true
  | _ => false

end Op

/-- Two views that differ at most in scratch words outside `R` and in memory words. -/
structure View.Agrees (v w : View) (R : List Addr) : Prop where
  coreId : v.coreId = w.coreId
  pc : v.pc = w.pc
  honorPause : v.honorPause = w.honorPause
  size : v.scratch.size = w.scratch.size
  word : ∀ a ∈ R, v.scratch[a.toNat]? = w.scratch[a.toNat]?

theorem computeLanes_congr {v w : View} (hpc : v.pc = w.pc) (code : Opcode) (xs ys : List Word) :
    computeLanes v code xs ys = computeLanes w code xs ys := by
  induction xs generalizing ys with
  | nil => rfl
  | cons x xs ih =>
    cases ys with
    | nil => rfl
    | cons y ys => simp only [computeLanes, View.compute, hpc, ih]

namespace View.Agrees

variable {v w : View} {R S : List Addr}

theorem mono (h : v.Agrees w S) (hsub : ∀ a ∈ R, a ∈ S) : v.Agrees w R :=
  ⟨h.coreId, h.pc, h.honorPause, h.size, fun a ha => h.word a (hsub a ha)⟩

theorem left (h : v.Agrees w (R ++ S)) : v.Agrees w R :=
  h.mono fun _ => List.mem_append_left S

theorem right (h : v.Agrees w (R ++ S)) : v.Agrees w S :=
  h.mono fun _ => List.mem_append_right R

theorem read_eq (h : v.Agrees w R) {a : Addr} (ha : a ∈ R) : v.read a = w.read a := by
  simp only [View.read, Scratch.read, h.word a ha, h.size]

theorem readBlock_eq (h : v.Agrees w R) {a : Addr} (hfit : a.FitsBlock)
    (ha : ∀ b ∈ a.block, b ∈ R) : v.readBlock a = w.readBlock a := by
  have hlane : ∀ lane ∈ List.range laneCount,
      v.scratch.getD (a.toNat + lane) 0 = w.scratch.getD (a.toNat + lane) 0 := by
    intro lane hl
    have hl : lane < laneCount := List.mem_range.mp hl
    have hword := h.word (a.offset lane) (ha _ (Addr.mem_block.mpr ⟨lane, hl, rfl⟩))
    rw [hfit.toNat_offset hl] at hword
    simp only [Array.getD_eq_getD_getElem?, hword]
  simp only [View.readBlock, Scratch.readBlock, h.size, List.map_congr_left hlane]

theorem compute_eq (h : v.Agrees w R) (code : Opcode) (x y : Word) :
    v.compute code x y = w.compute code x y := by
  simp only [View.compute, h.pc]

theorem computeLanes_eq (h : v.Agrees w R) (code : Opcode) (xs ys : List Word) :
    computeLanes v code xs ys = computeLanes w code xs ys := computeLanes_congr h.pc code xs ys

theorem jump_eq (h : v.Agrees w R) (c : Control) (target : Int) :
    c.jump v target = c.jump w target := by
  simp only [Control.jump, h.pc]

end View.Agrees

theorem storeLanes_congr {mem mem' : Array Word} (hsize : mem.size = mem'.size) (base : Nat)
    (ws : List Word) : storeLanes mem base ws = storeLanes mem' base ws := by
  induction ws generalizing base with
  | nil => rfl
  | cons w ws ih => simp only [storeLanes, Memory.check, hsize, ih]

/-! ## An effect depends on nothing but the words read -/

section Congruence

variable {v w : View}

theorem ScalarOp.writesIn_congr {op : ScalarOp} (h : v.Agrees w (Op.alu op).reads) :
    op.writesIn v = op.writesIn w := by
  have ha : v.read op.a = w.read op.a := h.read_eq (by simp [Op.reads])
  have hb : v.read op.b = w.read op.b := h.read_eq (by simp [Op.reads])
  simp only [ScalarOp.writesIn, ha, hb, h.compute_eq]

theorem VectorOp.writesIn_congr {op : VectorOp} (hfit : op.Fits) (h : v.Agrees w op.reads) :
    op.writesIn v = op.writesIn w := by
  cases op with
  | broadcast dest src =>
    simp only [VectorOp.writesIn, h.read_eq (a := src) (by simp [VectorOp.reads])]
  | multiplyAdd dest a b c =>
    obtain ⟨-, ha, hb, hc⟩ := hfit
    simp only [VectorOp.writesIn, h.left.left.readBlock_eq ha fun _ => id,
      h.left.right.readBlock_eq hb fun _ => id, h.right.readBlock_eq hc fun _ => id]
  | binary code dest a b =>
    obtain ⟨-, ha, hb⟩ := hfit
    simp only [VectorOp.writesIn, h.left.readBlock_eq ha fun _ => id,
      h.right.readBlock_eq hb fun _ => id, h.computeLanes_eq]

theorem LoadOp.writesIn_congr {op : LoadOp} (h : v.Agrees w op.reads)
    (hmem : (Op.load op).readsMemory → v.mem = w.mem) : op.writesIn v = op.writesIn w := by
  cases op with
  | word dest addr =>
    simp only [LoadOp.writesIn, h.read_eq (a := addr) (by simp [LoadOp.reads]), hmem rfl]
  | lane dest addr n =>
    simp only [LoadOp.writesIn, h.read_eq (a := addr.offset n.toNat) (by simp [LoadOp.reads]),
      hmem rfl]
  | block dest addr =>
    simp only [LoadOp.writesIn, h.read_eq (a := addr) (by simp [LoadOp.reads]), hmem rfl]
  | const dest value => rfl

theorem StoreOp.writesIn_congr {op : StoreOp} (hfit : op.Fits) (h : v.Agrees w op.reads)
    (hsize : v.mem.size = w.mem.size) : op.writesIn v = op.writesIn w := by
  cases op with
  | word addr src =>
    simp only [StoreOp.writesIn, h.read_eq (a := addr) (by simp [StoreOp.reads]),
      h.read_eq (a := src) (by simp [StoreOp.reads]), Memory.check, hsize]
  | block addr src =>
    have hsrc : v.readBlock src = w.readBlock src :=
      h.readBlock_eq hfit fun a ha => List.mem_cons_of_mem addr ha
    simp only [StoreOp.writesIn, h.read_eq (a := addr) (by simp [StoreOp.reads]), hsrc,
      storeLanes_congr hsize]

theorem FlowOp.effect_congr {op : FlowOp} (hfit : op.Fits) (h : v.Agrees w op.reads)
    (c : Control) : op.effect v c = op.effect w c := by
  cases op with
  | select dest cond a b =>
    have hpick (choice : Word) : v.read (if choice ≠ 0 then a else b) =
        w.read (if choice ≠ 0 then a else b) := by
      split <;> exact h.read_eq (by simp [FlowOp.reads])
    simp only [FlowOp.effect, h.read_eq (a := cond) (by simp [FlowOp.reads]), hpick]
  | addImm dest a imm =>
    simp only [FlowOp.effect, h.read_eq (a := a) (by simp [FlowOp.reads])]
  | blockSelect dest cond a b =>
    obtain ⟨-, hc, ha, hb⟩ := hfit
    simp only [FlowOp.effect, h.left.left.readBlock_eq hc fun _ => id,
      h.left.right.readBlock_eq ha fun _ => id, h.right.readBlock_eq hb fun _ => id]
  | halt => rfl
  | pause => simp only [FlowOp.effect, h.honorPause]
  | trace src => simp only [FlowOp.effect, h.read_eq (a := src) (by simp [FlowOp.reads])]
  | jumpIf cond target =>
    simp only [FlowOp.effect, h.read_eq (a := cond) (by simp [FlowOp.reads]), h.jump_eq]
  | jumpByIf cond distance =>
    simp only [FlowOp.effect, h.read_eq (a := cond) (by simp [FlowOp.reads]), h.jump_eq]
  | jump target => simp only [FlowOp.effect, h.jump_eq]
  | jumpTo addr =>
    simp only [FlowOp.effect, h.read_eq (a := addr) (by simp [FlowOp.reads]), h.jump_eq]
  | coreId dest => simp only [FlowOp.effect, h.coreId]

theorem Op.effect_congr {op : Op} (hfit : op.Fits) (h : v.Agrees w op.reads)
    (hsize : v.mem.size = w.mem.size) (hmem : op.readsMemory → v.mem = w.mem) (c : Control) :
    op.effect v c = op.effect w c := by
  cases op with
  | alu op => simp only [Op.effect, ScalarOp.writesIn_congr h]
  | valu op => simp only [Op.effect, VectorOp.writesIn_congr hfit h]
  | load op => simp only [Op.effect, LoadOp.writesIn_congr h hmem]
  | store op => simp only [Op.effect, StoreOp.writesIn_congr hfit h hsize]
  | flow op => exact FlowOp.effect_congr hfit h c
  | note text => rfl

/-- Of views with the same words, `coreId` alone sees the core and `pause` alone the switch. -/
theorem Op.effect_congr_view {op : Op} {c : Control} (hscratch : v.scratch = w.scratch)
    (hmem : v.mem = w.mem) (hpc : v.pc = w.pc)
    (hid : ∀ dest, op = .flow (.coreId dest) → v.coreId = w.coreId)
    (hpause : op = .pause → v.honorPause = w.honorPause) :
    op.effect v c = op.effect w c := by
  have hlanes : ∀ code xs ys, computeLanes v code xs ys = computeLanes w code xs ys :=
    computeLanes_congr hpc
  rcases v with ⟨id, scratch, mem, pc, honorPause⟩
  rcases w with ⟨id', scratch', mem', pc', honorPause'⟩
  obtain rfl : scratch = scratch' := hscratch
  obtain rfl : mem = mem' := hmem
  obtain rfl : pc = pc' := hpc
  cases op with
  | note text | alu op => rfl
  | valu op =>
    cases op with
    | binary code dest a b =>
      simp only [Op.effect, VectorOp.writesIn, hlanes]
      rfl
    | broadcast | multiplyAdd => rfl
  | load op => cases op <;> rfl
  | store op => cases op <;> rfl
  | flow op =>
    cases op with
    | coreId dest =>
      obtain rfl : id = id' := hid dest rfl
      rfl
    | pause =>
      obtain rfl : honorPause = honorPause' := hpause rfl
      rfl
    | select | addImm | blockSelect | halt | trace | jumpIf | jumpByIf | jump | jumpTo => rfl

end Congruence

/-! ## An effect replaces exactly the words written -/

theorem bind_eq_ok_iff {ε α β : Type} {x : Except ε α} {f : α → Except ε β} {b : β} :
    x >>= f = .ok b ↔ ∃ a, x = .ok a ∧ f a = .ok b := by
  cases x <;> simp [bind, Except.bind]

/-- Whether there is a result, and of what kind, can be computed. -/
theorem exists_eq_ok {ε α : Type} {x : Except ε α} {p : α → Prop} [DecidablePred p]
    (h : x.toOption.any (fun a => decide (p a)) = true) : ∃ a, x = .ok a ∧ p a := by
  cases x with
  | ok a => exact ⟨a, rfl, of_decide_eq_true h⟩
  | error e => cases h

theorem pure_eq_ok_iff {ε α : Type} {a b : α} : (pure a : Except ε α) = .ok b ↔ a = b := by
  simp [pure, Except.pure]

section Writes

variable {v : View}

theorem map_fst_blockWrites {dest : Addr} {values : List Word}
    (h : values.length = laneCount) : (blockWrites dest values).map (·.1) = dest.block := by
  simp [blockWrites, List.map_fst_zip, h]

theorem length_of_readBlock {a : Addr} {ws : List Word} (h : v.readBlock a = .ok ws) :
    ws.length = laneCount := by
  unfold View.readBlock Scratch.readBlock at h
  split at h
  · cases h
    simp
  · cases h

theorem length_of_computeLanes {code : Opcode} {xs ys ws : List Word}
    (h : computeLanes v code xs ys = .ok ws) : ws.length = min xs.length ys.length := by
  induction xs generalizing ys ws with
  | nil => cases h; simp
  | cons x xs ih =>
    cases ys with
    | nil => cases h; simp
    | cons y ys =>
      simp only [computeLanes, bind_eq_ok_iff, pure_eq_ok_iff] at h
      obtain ⟨w, -, rest, hrest, rfl⟩ := h
      simp [ih hrest]

theorem length_of_loadLanes {mem : Array Word} {base : Word} {count : Nat} {ws : List Word}
    (h : loadLanes mem base count = .ok ws) : ws.length = count := by
  induction count generalizing base ws with
  | zero => cases h; rfl
  | succ count ih =>
    simp only [loadLanes, bind_eq_ok_iff, pure_eq_ok_iff] at h
    obtain ⟨w, -, rest, hrest, rfl⟩ := h
    simp [ih hrest]

theorem ScalarOp.map_fst_writesIn {op : ScalarOp} {ws : List (Addr × Word)}
    (h : op.writesIn v = .ok ws) : ws.map (·.1) = (Op.alu op).writes := by
  simp only [ScalarOp.writesIn, bind_eq_ok_iff, pure_eq_ok_iff] at h
  obtain ⟨a, -, b, -, w, -, rfl⟩ := h
  rfl

theorem VectorOp.map_fst_writesIn {op : VectorOp} {ws : List (Addr × Word)}
    (h : op.writesIn v = .ok ws) : ws.map (·.1) = op.writes := by
  cases op with
  | broadcast dest src =>
    simp only [VectorOp.writesIn, bind_eq_ok_iff, pure_eq_ok_iff] at h
    obtain ⟨w, -, rfl⟩ := h
    exact map_fst_blockWrites (by simp)
  | multiplyAdd dest a b c =>
    simp only [VectorOp.writesIn, bind_eq_ok_iff, pure_eq_ok_iff] at h
    obtain ⟨as, ha, bs, hb, cs, hc, rfl⟩ := h
    exact map_fst_blockWrites
      (by simp [length_of_readBlock ha, length_of_readBlock hb, length_of_readBlock hc])
  | binary code dest a b =>
    simp only [VectorOp.writesIn, bind_eq_ok_iff, pure_eq_ok_iff] at h
    obtain ⟨as, ha, bs, hb, ws, hw, rfl⟩ := h
    exact map_fst_blockWrites
      (by simp [length_of_computeLanes hw, length_of_readBlock ha, length_of_readBlock hb])

theorem LoadOp.map_fst_writesIn {op : LoadOp} {ws : List (Addr × Word)}
    (h : op.writesIn v = .ok ws) : ws.map (·.1) = op.writes := by
  cases op with
  | word dest addr =>
    simp only [LoadOp.writesIn, bind_eq_ok_iff, pure_eq_ok_iff] at h
    obtain ⟨target, -, w, -, rfl⟩ := h
    rfl
  | lane dest addr n =>
    simp only [LoadOp.writesIn, bind_eq_ok_iff, pure_eq_ok_iff] at h
    obtain ⟨target, -, w, -, rfl⟩ := h
    rfl
  | block dest addr =>
    simp only [LoadOp.writesIn, bind_eq_ok_iff, pure_eq_ok_iff] at h
    obtain ⟨base, -, ws, hw, rfl⟩ := h
    exact map_fst_blockWrites (length_of_loadLanes hw)
  | const dest value =>
    simp only [LoadOp.writesIn, pure_eq_ok_iff] at h
    subst h
    rfl

theorem FlowOp.map_fst_effect {op : FlowOp} {c : Control} {e : Effect}
    (h : op.effect v c = .ok e) : e.scratch.map (·.1) = op.writes := by
  cases op with
  | blockSelect dest cond a b =>
    simp only [FlowOp.effect, bind_eq_ok_iff, pure_eq_ok_iff] at h
    obtain ⟨cs, hc, as, ha, bs, hb, rfl⟩ := h
    exact map_fst_blockWrites
      (by simp [length_of_readBlock ha, length_of_readBlock hb, length_of_readBlock hc])
  | jumpIf | jumpByIf =>
    simp only [FlowOp.effect, bind_eq_ok_iff] at h
    obtain ⟨choice, -, h⟩ := h
    split at h
    all_goals
      simp only [bind_eq_ok_iff, pure_eq_ok_iff] at h
      obtain ⟨control, -, rfl⟩ := h
      rfl
  | select | addImm | trace | jumpTo | halt | pause | jump | coreId =>
    simp only [FlowOp.effect, bind_eq_ok_iff, pure_eq_ok_iff] at h
    grind [FlowOp.writes]

/-- The scratch writes of an operation go to the addresses of `writes`, in that order. -/
theorem Op.map_fst_effect {op : Op} {c : Control} {e : Effect} (h : op.effect v c = .ok e) :
    e.scratch.map (·.1) = op.writes := by
  cases op with
  | flow op => exact FlowOp.map_fst_effect h
  | note text =>
    simp only [Op.effect, pure_eq_ok_iff] at h
    subst h
    rfl
  | alu op =>
    simp only [Op.effect, bind_eq_ok_iff, pure_eq_ok_iff] at h
    obtain ⟨ws, hw, rfl⟩ := h
    exact ScalarOp.map_fst_writesIn hw
  | valu op =>
    simp only [Op.effect, bind_eq_ok_iff, pure_eq_ok_iff] at h
    obtain ⟨ws, hw, rfl⟩ := h
    exact VectorOp.map_fst_writesIn hw
  | load op =>
    simp only [Op.effect, bind_eq_ok_iff, pure_eq_ok_iff] at h
    obtain ⟨ws, hw, rfl⟩ := h
    exact LoadOp.map_fst_writesIn hw
  | store op =>
    simp only [Op.effect, bind_eq_ok_iff, pure_eq_ok_iff] at h
    obtain ⟨ws, -, rfl⟩ := h
    rfl

end Writes

end TreeWalk
