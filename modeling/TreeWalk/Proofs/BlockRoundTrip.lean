import TreeWalk.Proofs.MachineRun
import TreeWalk.Proofs.Transfers

/-!
# Blocks to memory and back

The addresses of a stored block end with the memory, those of a loaded block wrap like words. Both
transfers find the same words as long as the memory is smaller than what a word can address; in a
memory of just that size a block at its end can be loaded, from both ends of the memory, but not
stored. What has been stored can always be loaded again.
-/

namespace TreeWalk

/-! ## Lanes at the end of the memory -/

section Lanes

variable {mem : Array Word}

theorem Memory.read_of_lt {addr : Nat} (h : addr < mem.size) :
    Memory.read mem addr = .ok (mem.getD addr 0) := by
  simp [Memory.read, h]

theorem Memory.read_of_le {addr : Nat} (h : mem.size ≤ addr) :
    Memory.read mem addr = .error (.memoryOutOfBounds addr mem.size) := by
  simp [Memory.read, h]

theorem loadLanes_error (hsize : mem.size < 2 ^ 32) {base : Word} {count : Nat}
    (h : mem.size < base.toNat + (count + 1)) :
    loadLanes mem base (count + 1) =
      .error (.memoryOutOfBounds (max base.toNat mem.size) mem.size) := by
  induction count generalizing base with
  | zero =>
    rw [loadLanes, Memory.read_of_le (by omega), Nat.max_eq_left (by omega)]
    rfl
  | succ count ih =>
    rcases Nat.lt_or_ge base.toNat mem.size with hlt | hge
    · have hnext : (base + 1).toNat = base.toNat + 1 := by
        rw [UInt32.toNat_add, UInt32.toNat_one]
        omega
      rw [loadLanes, Memory.read_of_lt hlt, ih (by omega), hnext,
        show max (base.toNat + 1) mem.size = max base.toNat mem.size by omega]
      rfl
    · rw [loadLanes, Memory.read_of_le hge, Nat.max_eq_left hge]
      rfl

theorem exists_loadLanes (hsize : mem.size = 2 ^ 32) (base : Word) (count : Nat) :
    ∃ ws, loadLanes mem base count = .ok ws := by
  induction count generalizing base with
  | zero => exact ⟨[], rfl⟩
  | succ count ih =>
    obtain ⟨ws, hws⟩ := ih (base + 1)
    have hlt : base.toNat < mem.size := hsize ▸ base.toNat_lt
    refine ⟨mem.getD base.toNat 0 :: ws, ?_⟩
    rw [loadLanes, Memory.read_of_lt hlt, hws]
    rfl

theorem storeLanes_error {base : Nat} {ws : List Word} (hws : ws ≠ [])
    (h : mem.size < base + ws.length) :
    storeLanes mem base ws = .error (.memoryOutOfBounds (max base mem.size) mem.size) := by
  induction ws generalizing base with
  | nil => exact absurd rfl hws
  | cons w ws ih =>
    rw [List.length_cons] at h
    rcases Nat.lt_or_ge base mem.size with hlt | hge
    · have hrest : ws ≠ [] := by
        rintro rfl
        rw [List.length_nil] at h
        omega
      rw [storeLanes, Memory.check, if_pos hlt, ih hrest (by omega),
        show max (base + 1) mem.size = max base mem.size by omega]
      rfl
    · rw [storeLanes, Memory.check, if_neg (by omega), Nat.max_eq_left hge]
      rfl

end Lanes

/-! ## An operation alone in its bundle -/

section Single

variable {widths : Widths}

theorem Bundle.single_within_of_engine {op : Op} (h : 1 ≤ widths.of op.engine) :
    (Bundle.single op).Within widths := by
  intro e _
  rw [← length_on, on_single]
  split
  · rename_i he
    exact he ▸ h
  · exact Nat.zero_le _

theorem executeTogether_singleton (op : Op) (s : Contents) :
    executeTogether [op] s = op.execute s := by
  unfold executeTogether Op.execute collect
  cases op.effect s.view {} <;> rfl

namespace Core

variable {core : Core} {mem : Array Word}

def contents (core : Core) (mem : Array Word) : Contents :=
  ⟨core.id, core.scratch, mem, core.control.trace⟩

theorem issue_single (op : Op) (hop : op.isNote = false) (hwidth : 1 ≤ widths.of op.engine)
    (honorPause : Bool) (pc : Nat) :
    core.issue mem (.single op) widths honorPause pc =
      match op.effect (core.view mem honorPause pc) core.control with
      | .ok e => e.commit core.id core.scratch mem
      | .error fault => ⟨core, mem, some fault⟩ := by
  rw [issue_eq, collectEngines_eq_collect (Bundle.single_within_of_engine hwidth),
    Bundle.flatMap_on_single hop]
  simp only [collect]
  cases op.effect (core.view mem honorPause pc) core.control with
  | error fault => rfl
  | ok e => simp

theorem issue_single_of_execute (op : Op) {t : Contents} (hop : op.isNote = false)
    (hstraight : op.isStraight = true) (hwidth : 1 ≤ widths.of op.engine)
    (h : op.execute (core.contents mem) = some t) (honorPause : Bool) (pc : Nat) :
    core.issue mem (.single op) widths honorPause pc =
      ⟨t.core core.control.pc core.control.state, t.mem, none⟩ := by
  have hissued : (Bundle.single op).issued = [op] := Bundle.flatMap_on_single hop
  refine issue_eq_of_executeTogether (s := core.contents mem) ?_
    (Bundle.single_within_of_engine hwidth) ?_ honorPause pc core.control.pc core.control.state
  · intro x hx
    rw [hissued] at hx
    rwa [List.mem_singleton.mp hx]
  · rw [hissued, executeTogether_singleton, h]

end Core

end Single

/-! ## A block through a register -/

namespace Core

def HasBlock (core : Core) (a : Addr) : Prop :=
  a.toNat + laneCount ≤ core.scratch.size ∧ a.FitsBlock

instance (core : Core) (a : Addr) : Decidable (core.HasBlock a) :=
  inferInstanceAs (Decidable (_ ∧ _))

variable {core : Core} {mem : Array Word} {addr block : Addr} {base : Word} {widths : Widths}

theorem contents_register (h : core.scratch[addr.toNat]? = some base) (mem : Array Word) :
    (core.contents mem).Holds addr 1 ∧ (core.contents mem).word addr = base := by
  obtain ⟨hlt, hget⟩ := Array.getElem?_eq_some_iff.mp h
  refine ⟨⟨hlt, addr.index.toNat_lt⟩, ?_⟩
  simp [Contents.word, Contents.lane, contents, hlt, hget]

theorem fault_issue_storeBlock (haddr : core.scratch[addr.toNat]? = some base)
    (hblock : core.HasBlock block) (hwidth : 1 ≤ widths.store) (mem : Array Word)
    (honorPause : Bool) (pc : Nat) :
    (core.issue mem (.single (.storeBlock addr block)) widths honorPause pc).fault =
      if base.toNat + laneCount ≤ mem.size then none
      else some (.memoryOutOfBounds (max base.toNat mem.size) mem.size) := by
  obtain ⟨hregister, hword⟩ := contents_register haddr mem
  split
  · rename_i hin
    obtain ⟨mem', hexec, -⟩ := execute_storeBlock hregister hblock (hword ▸ hin)
    rw [issue_single_of_execute (.storeBlock addr block) rfl rfl hwidth hexec]
  · rename_i hout
    have hread : (core.view mem honorPause pc).read addr = .ok base := by
      simp [View.read, view, Scratch.read, haddr]
    have hlanes : (core.view mem honorPause pc).readBlock block =
        .ok ((List.range laneCount).map fun l => core.scratch.getD (block.toNat + l) 0) := by
      simp [View.readBlock, view, Scratch.readBlock, hblock.1]
    rw [issue_single (.storeBlock addr block) rfl hwidth]
    simp only [Op.storeBlock, Op.effect, StoreOp.writesIn, hread, hlanes, bind, Except.bind]
    rw [storeLanes_error (by simp [laneCount]) (by simpa [view] using hout)]
    rfl

/-- A block to load has to begin inside the memory, and to end there unless its addresses wrap. -/
theorem fault_issue_loadBlock (hmem : mem.size ≤ 2 ^ 32)
    (haddr : core.scratch[addr.toNat]? = some base) (hblock : core.HasBlock block)
    (hwidth : 1 ≤ widths.load) (honorPause : Bool) (pc : Nat) :
    (core.issue mem (.single (.loadBlock block addr)) widths honorPause pc).fault =
      if base.toNat + laneCount ≤ mem.size ∨ mem.size = 2 ^ 32 then none
      else some (.memoryOutOfBounds (max base.toNat mem.size) mem.size) := by
  obtain ⟨hregister, hword⟩ := contents_register haddr mem
  split
  · rename_i hin
    obtain ⟨ws, hws⟩ : ∃ ws, loadLanes mem base laneCount = .ok ws := by
      rcases hin with hin | hfull
      · exact ⟨_, loadLanes_eq hmem hin⟩
      · exact exists_loadLanes hfull base laneCount
    have hexec := execute_loadBlock_of_loadLanes (s := core.contents mem) hblock hregister
      (hword.symm ▸ hws)
    rw [issue_single_of_execute (.loadBlock block addr) rfl rfl hwidth hexec]
  · rename_i hout
    have hread : (core.view mem honorPause pc).read addr = .ok base := by
      simp [View.read, view, Scratch.read, haddr]
    have hlanes : loadLanes mem base laneCount =
        .error (.memoryOutOfBounds (max base.toNat mem.size) mem.size) :=
      loadLanes_error (by omega) (by simp only [laneCount] at hout; omega)
    have hview : (core.view mem honorPause pc).mem = mem := rfl
    rw [issue_single (.loadBlock block addr) rfl hwidth]
    simp only [Op.loadBlock, Op.effect, LoadOp.writesIn, hread, hview, hlanes, bind, Except.bind]

/-- A block that is loaded from inside the memory is what is there. -/
theorem issue_loadBlock (hmem : mem.size ≤ 2 ^ 32)
    (haddr : core.scratch[addr.toNat]? = some base) (hblock : core.HasBlock block)
    (hwidth : 1 ≤ widths.load) (hin : base.toNat + laneCount ≤ mem.size) (honorPause : Bool)
    (pc : Nat) :
    let r := core.issue mem (.single (.loadBlock block addr)) widths honorPause pc
    r.fault = none ∧ ∀ l < laneCount,
      r.core.scratch[block.toNat + l]? = mem[base.toNat + l]? := by
  intro r
  obtain ⟨hregister, hword⟩ := contents_register haddr mem
  have hexec := execute_loadBlock (s := core.contents mem) hblock hregister
    (hword.symm ▸ hin) hmem
  have hr := issue_single_of_execute (.loadBlock block addr) rfl rfl hwidth hexec honorPause pc
  refine ⟨congrArg Issued.fault hr, fun l hl => ?_⟩
  have hscratch : r.core.scratch[block.toNat + l]? = _ :=
    congrArg (fun i : Issued => i.core.scratch[block.toNat + l]?) hr
  have hlt : block.toNat + l < core.scratch.size := by have := hblock.1; omega
  rw [hscratch]
  simp only [Contents.core]
  rw [Contents.getElem?_put, if_pos ⟨by omega, by omega, hlt⟩, hword, Nat.add_sub_cancel_left,
    Array.getD_eq_getD_getElem?]
  simp only [contents]
  rw [Array.getElem?_eq_getElem (by omega), Option.getD_some]

theorem issue_storeBlock (haddr : core.scratch[addr.toNat]? = some base)
    (hblock : core.HasBlock block) (hwidth : 1 ≤ widths.store)
    (hin : base.toNat + laneCount ≤ mem.size) (honorPause : Bool) (pc : Nat) :
    let r := core.issue mem (.single (.storeBlock addr block)) widths honorPause pc
    r.mem.size = mem.size ∧ r.core.scratch = core.scratch ∧
      ∀ l < laneCount, r.mem[base.toNat + l]? = core.scratch[block.toNat + l]? := by
  intro r
  obtain ⟨hregister, hword⟩ := contents_register haddr mem
  obtain ⟨mem', hexec, hsize, hlanes, -⟩ :=
    execute_storeBlock (s := core.contents mem) hregister hblock (hword.symm ▸ hin)
  have hr := issue_single_of_execute (.storeBlock addr block) rfl rfl hwidth hexec honorPause pc
  have hmem : r.mem = mem' := congrArg Issued.mem hr
  refine ⟨hmem ▸ hsize, congrArg (fun i : Issued => i.core.scratch) hr, fun l hl => ?_⟩
  have hlt : block.toNat + l < core.scratch.size := by have := hblock.1; omega
  rw [hmem, ← hword, hlanes l hl]
  simp [Contents.lane, contents, hlt]

/-- Blocks are loaded and stored through a register with the same faults, unless the memory is as
large as what a word can address and the block reaches beyond its end: then it can be loaded, but
not stored. A block that has been stored is loaded back as it was, to whatever block of whatever
core, as long as the register and the stored words are still the same. -/
theorem block_transfers_agree (hmem : mem.size ≤ 2 ^ 32)
    (haddr : core.scratch[addr.toNat]? = some base) (hblock : core.HasBlock block)
    (hload : 1 ≤ widths.load) (hstore : 1 ≤ widths.store) (honorPause : Bool) (pc : Nat) :
    let load := core.issue mem (.single (.loadBlock block addr)) widths honorPause pc
    let store := core.issue mem (.single (.storeBlock addr block)) widths honorPause pc
    ((load.fault = none ↔ store.fault = none) ↔
      mem.size < 2 ^ 32 ∨ base.toNat + laneCount ≤ 2 ^ 32) ∧
    (mem.size < 2 ^ 32 → load.fault = store.fault) ∧
    (store.fault = none → ∀ (later : Core) (mem' : Array Word) (dest : Addr) (pc' : Nat),
      later.scratch[addr.toNat]? = some base → later.HasBlock dest → mem'.size = mem.size →
      (∀ l < laneCount, mem'[base.toNat + l]? = store.mem[base.toNat + l]?) →
      let back := later.issue mem' (.single (.loadBlock dest addr)) widths honorPause pc'
      back.fault = none ∧ ∀ l < laneCount,
        back.core.scratch[dest.toNat + l]? = core.scratch[block.toNat + l]?) := by
  intro load store
  have hloads : load.fault = _ := fault_issue_loadBlock hmem haddr hblock hload honorPause pc
  have hstores : store.fault = _ := fault_issue_storeBlock haddr hblock hstore mem honorPause pc
  refine ⟨?_, fun hsmall => ?_, fun hok later mem' dest pc' hregister hdest hsize hwords => ?_⟩
  · rw [hloads, hstores]
    by_cases hin : base.toNat + laneCount ≤ mem.size
    · rw [if_pos (.inl hin), if_pos hin]
      exact ⟨fun _ => .inr (Nat.le_trans hin hmem), fun _ => Iff.rfl⟩
    · rw [if_neg hin]
      by_cases hfull : mem.size = 2 ^ 32
      · rw [if_pos (.inr hfull)]
        refine ⟨fun h => ?_, fun h => ?_⟩
        · cases h.mp rfl
        · omega
      · rw [if_neg (not_or.mpr ⟨hin, hfull⟩)]
        exact ⟨fun _ => .inl (Nat.lt_of_le_of_ne hmem hfull), fun _ => Iff.rfl⟩
  · have hfull : mem.size ≠ 2 ^ 32 := Nat.ne_of_lt hsmall
    rw [hloads, hstores]
    simp only [hfull, or_false]
  · have hin : base.toNat + laneCount ≤ mem.size := by
      by_contra hout
      rw [hstores, if_neg hout] at hok
      cases hok
    obtain ⟨-, -, hstored⟩ := issue_storeBlock haddr hblock hstore hin honorPause pc
    obtain ⟨hback, hloaded⟩ :=
      issue_loadBlock (hsize ▸ hmem) hregister hdest hload (hsize ▸ hin) honorPause pc'
    exact ⟨hback, fun l hl => (hloaded l hl).trans ((hwords l hl).trans (hstored l hl))⟩

/-- A block that is stored in one bundle to the end of the memory and loaded in the next one. -/
theorem block_transfers_agree_next_bundle :
    let addr : Addr := ⟨0⟩
    let block : Addr := ⟨4⟩
    let dest : Addr := ⟨12⟩
    let core : Core := ⟨0, #[5, 0, 0, 0, 1, 2, 3, 4, 5, 6, 7, 8] ++ Array.replicate 8 0, {}⟩
    let mem : Array Word := Array.replicate 13 9
    let store := core.issue mem (.single (.storeBlock addr block)) {} true 0
    mem.size ≤ 2 ^ 32 ∧ core.HasBlock block ∧ store.core.HasBlock dest ∧ store.fault = none ∧
      store.mem.extract 4 8 = #[9, 1, 2, 3] ∧
      ∃ back, store.core.issue store.mem (.single (.loadBlock dest addr)) {} true 1 = back ∧
        back.fault = none ∧
        ∀ l < laneCount, back.core.scratch[dest.toNat + l]? = core.scratch[block.toNat + l]? := by
  intro addr block dest core mem store
  have hmem : mem.size ≤ 2 ^ 32 := by decide
  have haddr : core.scratch[addr.toNat]? = some 5 := by decide +kernel
  have hblock : core.HasBlock block := by decide +kernel
  have hload : 1 ≤ ({} : Widths).load := by decide
  have hstore : 1 ≤ ({} : Widths).store := by decide
  have hok : store.fault = none := by decide +kernel
  have hregister : store.core.scratch[addr.toNat]? = some 5 := by decide +kernel
  have hdest : store.core.HasBlock dest := by decide +kernel
  have hsize : store.mem.size = mem.size := by decide +kernel
  exact ⟨hmem, hblock, hdest, hok, by decide +kernel, _, rfl,
    (block_transfers_agree hmem haddr hblock hload hstore true 0).2.2 hok store.core store.mem
      dest 1 hregister hdest hsize fun _ _ => rfl⟩

/-- Of a memory that words can just address, a block is loaded from the last word and the first
seven, and not stored there. -/
theorem loads_block_it_cannot_store :
    let core : Core := ⟨0, #[0xffffffff] ++ Array.replicate 15 0, {}⟩
    let mem : Array Word := Array.replicate (2 ^ 32) 0
    mem.size ≤ 2 ^ 32 ∧ core.scratch[(⟨0⟩ : Addr).toNat]? = some 0xffffffff ∧
      core.HasBlock ⟨8⟩ ∧
      (core.issue mem (.single (.loadBlock ⟨8⟩ ⟨0⟩)) {} true 0).fault = none ∧
      (core.issue mem (.single (.storeBlock ⟨0⟩ ⟨8⟩)) {} true 0).fault =
        some (.memoryOutOfBounds (2 ^ 32) (2 ^ 32)) := by
  intro core mem
  have hsize : mem.size = 2 ^ 32 := Array.size_replicate
  have haddr : core.scratch[(⟨0⟩ : Addr).toNat]? = some 0xffffffff := by decide +kernel
  have hblock : core.HasBlock ⟨8⟩ := by decide +kernel
  have hout : ¬ (0xffffffff : Word).toNat + laneCount ≤ mem.size := by
    rw [hsize]
    decide
  refine ⟨Nat.le_of_eq hsize, haddr, hblock, ?_, ?_⟩
  · rw [fault_issue_loadBlock (Nat.le_of_eq hsize) haddr hblock (by decide), if_pos (.inr hsize)]
  · rw [fault_issue_storeBlock haddr hblock (by decide), if_neg hout, hsize]
    rfl

end Core

end TreeWalk
