import TreeWalk.Proofs.CallMoments

/-!
# Where jumps lead

A jump sets the number of the bundle to issue next, which may be any number that is not negative.
A negative target is a fault, the only one that blames a jump. A target behind the end of the
program is taken, and the core stops when its turn comes: it has no bundle to issue there.
-/

namespace TreeWalk

/-! ## Faults that blame no jump -/

def Fault.blamesJump : Fault → Bool
  | .invalidJumpTarget .. => true
  | _ => false

def BlamesNoJump {α : Type} (x : Except Fault α) : Prop :=
  ∀ fault, x = .error fault → fault.blamesJump = false

namespace BlamesNoJump

variable {α β : Type} {v : View}

theorem pure (a : α) : BlamesNoJump (Pure.pure a) := by
  intro fault h
  cases h

theorem error {fault : Fault} (h : fault.blamesJump = false) :
    BlamesNoJump (.error fault : Except Fault α) := by
  rintro _ ⟨⟩
  exact h

theorem bind {x : Except Fault α} {f : α → Except Fault β} (hx : BlamesNoJump x)
    (hf : ∀ a, BlamesNoJump (f a)) : BlamesNoJump (x >>= f) := by
  cases x with
  | error fault => exact .error (hx fault rfl)
  | ok a => exact hf a

theorem read (v : View) (a : Addr) : BlamesNoJump (v.read a) := by
  unfold View.read Scratch.read
  split
  · exact .pure _
  · exact .error rfl

theorem readBlock (v : View) (a : Addr) : BlamesNoJump (v.readBlock a) := by
  unfold View.readBlock Scratch.readBlock
  split
  · exact .pure _
  · exact .error rfl

theorem compute (v : View) (code : Opcode) (x y : Word) : BlamesNoJump (v.compute code x y) := by
  unfold View.compute
  split
  · exact .pure _
  · exact .error rfl

theorem memoryRead (mem : Array Word) (addr : Nat) : BlamesNoJump (Memory.read mem addr) := by
  unfold Memory.read
  split
  · exact .pure _
  · exact .error rfl

theorem memoryCheck (mem : Array Word) (addr : Nat) : BlamesNoJump (Memory.check mem addr) := by
  unfold Memory.check
  split
  · exact .pure _
  · exact .error rfl

theorem computeLanes (v : View) (code : Opcode) (xs ys : List Word) :
    BlamesNoJump (computeLanes v code xs ys) := by
  induction xs generalizing ys with
  | nil => exact .pure _
  | cons x xs ih =>
    cases ys with
    | nil => exact .pure _
    | cons y ys => exact .bind (compute v code x y) fun _ => .bind (ih ys) fun _ => .pure _

theorem loadLanes (mem : Array Word) (base : Word) (count : Nat) :
    BlamesNoJump (loadLanes mem base count) := by
  induction count generalizing base with
  | zero => exact .pure _
  | succ count ih => exact .bind (memoryRead mem base.toNat) fun _ => .bind (ih _) fun _ => .pure _

theorem storeLanes (mem : Array Word) (base : Nat) (ws : List Word) :
    BlamesNoJump (storeLanes mem base ws) := by
  induction ws generalizing base with
  | nil => exact .pure _
  | cons w ws ih => exact .bind (memoryCheck mem base) fun _ => .bind (ih _) fun _ => .pure _

theorem scalarWrites (v : View) (op : ScalarOp) : BlamesNoJump (op.writesIn v) :=
  .bind (read v op.a) fun _ => .bind (read v op.b) fun _ =>
    .bind (compute v op.code _ _) fun _ => .pure _

theorem vectorWrites (v : View) (op : VectorOp) : BlamesNoJump (op.writesIn v) := by
  cases op with
  | broadcast dest src => exact .bind (read v src) fun _ => .pure _
  | multiplyAdd dest a b c =>
    exact .bind (readBlock v a) fun _ => .bind (readBlock v b) fun _ =>
      .bind (readBlock v c) fun _ => .pure _
  | binary code dest a b =>
    exact .bind (readBlock v a) fun _ => .bind (readBlock v b) fun _ =>
      .bind (computeLanes v code _ _) fun _ => .pure _

theorem loadWrites (v : View) (op : LoadOp) : BlamesNoJump (op.writesIn v) := by
  cases op with
  | word dest addr =>
    exact .bind (read v addr) fun _ => .bind (memoryRead v.mem _) fun _ => .pure _
  | lane dest addr n =>
    exact .bind (read v (addr.offset n.toNat)) fun _ =>
      .bind (memoryRead v.mem _) fun _ => .pure _
  | block dest addr =>
    exact .bind (read v addr) fun _ => .bind (loadLanes v.mem _ laneCount) fun _ => .pure _
  | const dest value => exact .pure _

theorem storeWrites (v : View) (op : StoreOp) : BlamesNoJump (op.writesIn v) := by
  cases op with
  | word addr src =>
    exact .bind (read v addr) fun _ => .bind (memoryCheck v.mem _) fun _ =>
      .bind (read v src) fun _ => .pure _
  | block addr src =>
    exact .bind (read v addr) fun _ => .bind (readBlock v src) fun _ => storeLanes v.mem _ _

end BlamesNoJump

theorem Scratch.blamesNoJump_write {writes : List (Addr × Word)} {scratch : Array Word}
    {fault : Fault} (h : (write writes scratch).2 = some fault) : fault.blamesJump = false := by
  induction writes generalizing scratch with
  | nil => cases h
  | cons x rest ih =>
    unfold write at h
    split at h
    · exact ih h
    · obtain rfl := Option.some.inj h
      rfl

/-! ## Jumps of one bundle -/

/-- The bundle that the operation jumps to, if it does. `pc` is the bundle to be issued next. -/
def FlowOp.target? (v : View) (pc : Nat) : FlowOp → Option Int
  | .jumpIf cond target =>
    (v.scratch[cond.toNat]?).bind fun choice => if choice ≠ 0 then some target.toNat else none
  | .jumpByIf cond distance =>
    (v.scratch[cond.toNat]?).bind fun choice =>
      if choice ≠ 0 then some (pc + distance.toInt) else none
  | .jump target => some target.toNat
  | .jumpTo addr => (v.scratch[addr.toNat]?).map fun target => target.toNat
  | _ => none

namespace FlowOp

variable {op : FlowOp} {v : View} {c : Control} {t : Int}

theorem effect_of_target?_eq_some (h : op.target? v c.pc = some t) :
    op.effect v c = c.jump v t >>= fun control => pure { control } := by
  cases op with
  | jumpIf cond target | jumpByIf cond target =>
    simp only [target?, Option.bind_eq_some_iff] at h
    obtain ⟨choice, hchoice, h⟩ := h
    split at h
    · rename_i hne
      obtain rfl := Option.some.inj h
      simp only [effect, View.read, Scratch.read, hchoice]
      exact if_pos hne
    · cases h
  | jump target =>
    obtain rfl := Option.some.inj h
    rfl
  | jumpTo addr =>
    simp only [target?, Option.map_eq_some_iff] at h
    obtain ⟨target, htarget, rfl⟩ := h
    simp only [effect, View.read, Scratch.read, htarget]
    rfl
  | select | addImm | blockSelect | halt | pause | trace | coreId => cases h

theorem effect_of_target?_eq_none (h : op.target? v c.pc = none) :
    BlamesNoJump (op.effect v c) ∧ ∀ e, op.effect v c = .ok e → e.control.pc = c.pc := by
  cases op with
  | halt =>
    refine ⟨.pure _, fun e he => ?_⟩
    cases he
    rfl
  | pause =>
    refine ⟨.pure _, fun e he => ?_⟩
    cases he
    dsimp only
    split <;> rfl
  | select dest cond a b =>
    refine ⟨.bind (.read v _) fun _ => .bind (.read v _) fun _ => .pure _, fun e he => ?_⟩
    simp only [effect, bind_eq_ok_iff, pure_eq_ok_iff] at he
    obtain ⟨_, -, _, -, rfl⟩ := he
    rfl
  | addImm dest a imm =>
    refine ⟨.bind (.read v _) fun _ => .pure _, fun e he => ?_⟩
    simp only [effect, bind_eq_ok_iff, pure_eq_ok_iff] at he
    obtain ⟨_, -, rfl⟩ := he
    rfl
  | blockSelect dest cond a b =>
    refine ⟨.bind (.readBlock v _) fun _ => .bind (.readBlock v _) fun _ =>
      .bind (.readBlock v _) fun _ => .pure _, fun e he => ?_⟩
    simp only [effect, bind_eq_ok_iff, pure_eq_ok_iff] at he
    obtain ⟨_, -, _, -, _, -, rfl⟩ := he
    rfl
  | trace src =>
    refine ⟨.bind (.read v _) fun _ => .pure _, fun e he => ?_⟩
    simp only [effect, bind_eq_ok_iff, pure_eq_ok_iff] at he
    obtain ⟨_, -, rfl⟩ := he
    rfl
  | coreId dest =>
    refine ⟨.pure _, fun e he => ?_⟩
    cases he
    rfl
  | jumpIf cond target | jumpByIf cond target =>
    simp only [effect, View.read, Scratch.read]
    cases hchoice : v.scratch[cond.toNat]? with
    | none => exact ⟨.error rfl, fun e he => by cases he⟩
    | some choice =>
      have hzero : choice = 0 := by
        by_contra hne
        simp [target?, hchoice, hne] at h
      subst hzero
      refine ⟨.pure _, fun e he => ?_⟩
      cases he
      rfl
  | jump target => cases h
  | jumpTo addr =>
    simp only [effect, View.read, Scratch.read]
    cases htarget : v.scratch[addr.toNat]? with
    | none => exact ⟨.error rfl, fun e he => by cases he⟩
    | some target => simp [target?, htarget] at h

end FlowOp

/-- The targets of the jumps that flow operations take, up to the first one that faults. -/
def jumps (v : View) : List FlowOp → Control → List Int
  | [], _ => []
  | op :: rest, c =>
    (op.target? v c.pc).toList ++
      match op.effect v c with
      | .ok e => jumps v rest e.control
      | .error _ => []

/-- Where jumps lead: a negative target leads nowhere. -/
def landing (pc : Nat) (targets : List Int) : Nat :=
  targets.foldl (fun pc t => if 0 ≤ t then t.toNat else pc) pc

theorem landing_cases (pc : Nat) (targets : List Int) :
    landing pc targets = pc ∨ (landing pc targets : Int) ∈ targets := by
  induction targets generalizing pc with
  | nil => exact .inl rfl
  | cons t rest ih =>
    have hnext : landing pc (t :: rest) = landing (if 0 ≤ t then t.toNat else pc) rest := rfl
    rw [hnext]
    rcases ih (if 0 ≤ t then t.toNat else pc) with heq | hmem
    · rw [heq]
      split
      · rename_i ht
        refine .inr ?_
        rw [Int.toNat_of_nonneg ht]
        exact List.mem_cons_self
      · exact .inl rfl
    · exact .inr (List.mem_cons_of_mem t hmem)

/-- Flow operations lead where their jumps lead, and they blame a jump just when they take one to a
negative target. -/
theorem collect_flow (v : View) (ops : List FlowOp) (e : Effect) :
    (collect v (ops.map .flow) e).1.control.pc =
        landing e.control.pc (jumps v ops e.control) ∧
      ∀ fault, fault.blamesJump = true →
        ((collect v (ops.map .flow) e).2 = some fault ↔
          ∃ t ∈ jumps v ops e.control, t < 0 ∧ fault = .invalidJumpTarget v.pc t) := by
  induction ops generalizing e with
  | nil => simp [collect, jumps, landing]
  | cons op rest ih =>
    simp only [List.map_cons, collect, jumps, Op.effect]
    cases ht : op.target? v e.control.pc with
    | some t =>
      rw [FlowOp.effect_of_target?_eq_some ht]
      unfold Control.jump
      by_cases hneg : t < 0
      · rw [if_neg (by omega)]
        simp only [bind, Except.bind, landing, Option.toList_some, List.append_nil,
          List.foldl_cons, List.foldl_nil, if_neg (Int.not_le.mpr hneg), true_and]
        intro fault _
        simp [hneg, eq_comm]
      · rw [if_pos (by omega)]
        simp only [bind, Except.bind, pure, Except.pure]
        obtain ⟨hpc, hfault⟩ := ih
          ⟨e.scratch ++ [], e.mem ++ [], { e.control with pc := t.toNat }⟩
        refine ⟨?_, fun fault hjump => ?_⟩
        · rw [hpc]
          simp [landing, show 0 ≤ t by omega]
        · rw [hfault fault hjump]
          simp [hneg]
    | none =>
      obtain ⟨hblames, hkept⟩ := FlowOp.effect_of_target?_eq_none ht
      cases heffect : op.effect v e.control with
      | error f =>
        refine ⟨by simp [landing], fun fault hjump => ?_⟩
        have hf := hblames f heffect
        simp only [Option.some.injEq, Option.toList_none, List.append_nil, List.not_mem_nil,
          false_and, exists_false, iff_false]
        rintro rfl
        rw [hf] at hjump
        cases hjump
      | ok next =>
        obtain ⟨hpc, hfault⟩ := ih ⟨e.scratch ++ next.scratch, e.mem ++ next.mem, next.control⟩
        refine ⟨?_, hfault⟩
        rw [hpc, hkept next heffect]
        rfl

/-! ## Jumps of an issued bundle -/

section Quiet

variable {v : View} {widths : Widths} {b : Bundle}

theorem Op.effect_of_engine_ne_flow {op : Op} (h : op.engine ≠ .flow) (c : Control) :
    BlamesNoJump (op.effect v c) ∧ ∀ e, op.effect v c = .ok e → e.control = c := by
  cases op with
  | flow op => exact absurd rfl h
  | note text =>
    refine ⟨.pure _, fun e he => ?_⟩
    cases he
    rfl
  | alu op =>
    refine ⟨.bind (.scalarWrites v op) fun _ => .pure _, fun e he => ?_⟩
    simp only [Op.effect, bind_eq_ok_iff, pure_eq_ok_iff] at he
    obtain ⟨_, -, rfl⟩ := he
    rfl
  | valu op =>
    refine ⟨.bind (.vectorWrites v op) fun _ => .pure _, fun e he => ?_⟩
    simp only [Op.effect, bind_eq_ok_iff, pure_eq_ok_iff] at he
    obtain ⟨_, -, rfl⟩ := he
    rfl
  | load op =>
    refine ⟨.bind (.loadWrites v op) fun _ => .pure _, fun e he => ?_⟩
    simp only [Op.effect, bind_eq_ok_iff, pure_eq_ok_iff] at he
    obtain ⟨_, -, rfl⟩ := he
    rfl
  | store op =>
    refine ⟨.bind (.storeWrites v op) fun _ => .pure _, fun e he => ?_⟩
    simp only [Op.effect, bind_eq_ok_iff, pure_eq_ok_iff] at he
    obtain ⟨_, -, rfl⟩ := he
    rfl

theorem collect_quiet {ops : List Op} (h : ∀ op ∈ ops, op.engine ≠ .flow) (e : Effect) :
    (collect v ops e).1.control = e.control ∧
      ∀ fault, (collect v ops e).2 = some fault → fault.blamesJump = false := by
  induction ops generalizing e with
  | nil => exact ⟨rfl, fun fault hfault => by cases hfault⟩
  | cons op rest ih =>
    obtain ⟨hblames, hkept⟩ := Op.effect_of_engine_ne_flow (v := v) (h op List.mem_cons_self)
      e.control
    simp only [collect]
    cases heffect : op.effect v e.control with
    | error f =>
      refine ⟨rfl, fun fault hfault => ?_⟩
      obtain rfl := Option.some.inj hfault
      exact hblames f heffect
    | ok next =>
      obtain ⟨hcontrol, hfault⟩ := ih (fun x hx => h x (List.mem_cons_of_mem op hx))
        ⟨e.scratch ++ next.scratch, e.mem ++ next.mem, next.control⟩
      exact ⟨hcontrol.trans (hkept next heffect), hfault⟩

theorem collectEngines_quiet (v : View) (widths : Widths) (b : Bundle) {engines : List Engine}
    (h : .flow ∉ engines) (e : Effect) :
    (collectEngines v widths b engines e).1.control = e.control ∧
      ∀ fault, (collectEngines v widths b engines e).2 = some fault →
        fault.blamesJump = false := by
  induction engines generalizing e with
  | nil => exact ⟨rfl, fun fault hfault => by cases hfault⟩
  | cons engine rest ih =>
    obtain ⟨hengine, hrest⟩ : .flow ≠ engine ∧ .flow ∉ rest := by simpa using h
    have hops : ∀ op ∈ b.on engine, op.engine ≠ .flow := fun op hop =>
      Bundle.engine_of_mem_on hop ▸ (Ne.symm hengine)
    obtain ⟨hcontrol, hfault⟩ := collect_quiet (v := v) hops e
    rw [collectEngines]
    split
    · refine ⟨rfl, fun fault hover => ?_⟩
      obtain rfl := Option.some.inj hover
      rfl
    · rcases hc : collect v (b.on engine) e with ⟨next, fault⟩
      rw [hc] at hcontrol hfault
      cases fault with
      | some f => exact ⟨hcontrol, hfault⟩
      | none =>
        obtain ⟨hcontrol', hfault'⟩ := ih hrest next
        exact ⟨hcontrol'.trans hcontrol, hfault'⟩

theorem collectEngines_append (v : View) (widths : Widths) (b : Bundle) (xs ys : List Engine)
    (e : Effect) :
    collectEngines v widths b (xs ++ ys) e =
      match collectEngines v widths b xs e with
      | (next, none) => collectEngines v widths b ys next
      | faulted => faulted := by
  induction xs generalizing e with
  | nil => rfl
  | cons engine rest ih =>
    simp only [List.cons_append, collectEngines]
    split
    · rfl
    · rcases collect v (b.on engine) e with ⟨next, fault⟩
      cases fault with
      | some f => rfl
      | none => exact ih next

theorem collectEngines_singleton (v : View) (widths : Widths) (b : Bundle) (engine : Engine)
    (e : Effect) :
    collectEngines v widths b [engine] e =
      if widths.of engine < b.count engine then
        (e, some (.tooManyOps v.pc engine (b.count engine) (widths.of engine)))
      else collect v (b.on engine) e := by
  rw [collectEngines]
  split
  · rfl
  · rcases collect v (b.on engine) e with ⟨next, fault⟩
    cases fault <;> rfl

end Quiet

namespace Core

variable {core : Core} {mem : Array Word} {b : Bundle} {widths : Widths} {honorPause : Bool}
  {pc : Nat}

/-- The targets of the jumps that a core takes when a bundle is issued: none if an operation of
another engine faults first, or if the bundle asks for too many flow operations. -/
def jumps (core : Core) (mem : Array Word) (b : Bundle) (widths : Widths) (honorPause : Bool)
    (pc : Nat) : List Int :=
  let v := core.view mem honorPause pc
  match collectEngines v widths b [.alu, .valu, .load, .store] { control := core.control } with
  | (_, none) =>
    if b.count .flow ≤ widths.of .flow then TreeWalk.jumps v b.flow core.control else []
  | (_, some _) => []

theorem collectEngines_jumps (core : Core) (mem : Array Word) (b : Bundle) (widths : Widths)
    (honorPause : Bool) (pc : Nat) :
    let collected := collectEngines (core.view mem honorPause pc) widths b Engine.issuing
      { control := core.control }
    let targets := core.jumps mem b widths honorPause pc
    collected.1.control.pc = landing core.control.pc targets ∧
      ∀ fault, fault.blamesJump = true →
        (collected.2 = some fault ↔
          ∃ t ∈ targets, t < 0 ∧ fault = .invalidJumpTarget pc t) := by
  intro collected targets
  have hsplit : collected = _ := collectEngines_append (core.view mem honorPause pc) widths b
    [.alu, .valu, .load, .store] [.flow] { control := core.control }
  have hflow : Engine.flow ∉ [Engine.alu, .valu, .load, .store] := by decide
  have hquiet := collectEngines_quiet (core.view mem honorPause pc) widths b hflow
    { control := core.control }
  have htargets : targets = core.jumps mem b widths honorPause pc := rfl
  unfold jumps at htargets
  dsimp only at htargets
  rcases hc : collectEngines (core.view mem honorPause pc) widths b [.alu, .valu, .load, .store]
    { control := core.control } with ⟨e, fault⟩
  rw [hc] at hsplit hquiet htargets
  obtain ⟨hcontrol, hfault⟩ := hquiet
  dsimp only at hcontrol hfault hsplit htargets
  cases fault with
  | some f =>
    rw [hsplit, htargets, hcontrol]
    refine ⟨rfl, fun fault hjump => ?_⟩
    simp only [Option.some.injEq, List.not_mem_nil, false_and, exists_false, iff_false]
    rintro rfl
    rw [hfault f rfl] at hjump
    cases hjump
  | none =>
    rw [hsplit, htargets]
    dsimp only
    rw [collectEngines_singleton]
    by_cases hover : widths.of .flow < b.count .flow
    · rw [if_pos hover, if_neg (Nat.not_le.mpr hover), hcontrol]
      refine ⟨rfl, fun fault hjump => ?_⟩
      simp only [Option.some.injEq, List.not_mem_nil, false_and, exists_false, iff_false]
      rintro rfl
      cases hjump
    · have hflow := collect_flow (core.view mem honorPause pc) b.flow e
      rw [hcontrol] at hflow
      rw [if_neg hover, if_pos (Nat.not_lt.mp hover)]
      exact hflow

theorem blamesNoJump_commit (e : Effect) (id : Nat) (scratch mem : Array Word) {fault : Fault}
    (h : (e.commit id scratch mem).fault = some fault) : fault.blamesJump = false := by
  unfold Effect.commit at h
  split at h
  · cases h
  · rename_i f hwrite
    exact Scratch.blamesNoJump_write (by rw [hwrite]; exact h)

/-- A bundle leads where its jumps lead, and it blames a jump just when it takes one to a negative
target. -/
theorem issue_jumps (core : Core) (mem : Array Word) (b : Bundle) (widths : Widths)
    (honorPause : Bool) (pc : Nat) :
    let r := core.issue mem b widths honorPause pc
    let targets := core.jumps mem b widths honorPause pc
    r.core.control.pc = landing core.control.pc targets ∧
      ∀ fault, fault.blamesJump = true →
        (r.fault = some fault ↔ ∃ t ∈ targets, t < 0 ∧ fault = .invalidJumpTarget pc t) := by
  obtain ⟨hpc, hfault⟩ := collectEngines_jumps core mem b widths honorPause pc
  rw [issue_eq]
  rcases hc : collectEngines (core.view mem honorPause pc) widths b Engine.issuing
    { control := core.control } with ⟨e, fault⟩
  rw [hc] at hpc hfault
  cases fault with
  | some f => exact ⟨hpc, hfault⟩
  | none =>
    refine ⟨(congrArg Control.pc (control_commit e _ _ _)).trans hpc, fun fault hjump => ?_⟩
    rw [← hfault fault hjump]
    constructor
    · intro hcommit
      rw [blamesNoJump_commit e _ _ _ hcommit] at hjump
      cases hjump
    · intro hnone
      cases hnone

end Core

end TreeWalk
