import TreeWalk.Proofs.PackedRun

/-!
# What loads see of earlier stores

The operations of a bundle see the memory as it was before the bundle. So a load of a packed
program reads the word that the bundles before its own stored last. A store of its own bundle that
stands before it in the list comes too late for it: packing looks at scratch addresses only.
-/

namespace TreeWalk

/-! ## Stores one after the other -/

namespace Memory

/-- The word that the last of some stores to an address leaves there. -/
def lastStored? (addr : Nat) : List (Nat × Word) → Option Word
  | [] => none
  | (a, w) :: rest => (lastStored? addr rest).or (if a = addr then some w else none)

/-- The word at an address after some stores, of which there may be none to it. -/
def wordAfter (mem : Array Word) (stores : List (Nat × Word)) (addr : Nat) : Option Word :=
  (lastStored? addr stores).or mem[addr]?

theorem lastStored?_append (addr : Nat) (xs ys : List (Nat × Word)) :
    lastStored? addr (xs ++ ys) = (lastStored? addr ys).or (lastStored? addr xs) := by
  induction xs with
  | nil => simp [lastStored?]
  | cons x xs ih => simp only [List.cons_append, lastStored?, ih, Option.or_assoc]

theorem wordAfter_append (mem : Array Word) (xs ys : List (Nat × Word)) (addr : Nat) :
    wordAfter mem (xs ++ ys) addr = (lastStored? addr ys).or (wordAfter mem xs addr) := by
  rw [wordAfter, lastStored?_append, Option.or_assoc]
  rfl

theorem getElem?_write {addr : Nat} (stores : List (Nat × Word)) {mem : Array Word}
    (h : addr < mem.size) : (write stores mem)[addr]? = wordAfter mem stores addr := by
  induction stores generalizing mem with
  | nil => rfl
  | cons x rest ih =>
    obtain ⟨a, w⟩ := x
    have hrest : (write rest (mem.setIfInBounds a w))[addr]? =
        wordAfter (mem.setIfInBounds a w) rest addr := ih (by simpa using h)
    rw [write, List.foldl_cons, ← write, hrest, wordAfter, wordAfter, lastStored?,
      Option.or_assoc]
    by_cases ha : a = addr
    · subst ha
      rw [Array.getElem?_setIfInBounds_self_of_lt h, if_pos rfl, Option.some_or]
    · rw [Array.getElem?_setIfInBounds_ne ha, if_neg ha, Option.none_or]

end Memory

/-! ## Memory words of a load -/

namespace LoadOp

def targets (v : View) : LoadOp → Except Fault (List Nat)
  | .word _ addr => do
    let target ← v.read addr
    pure [target.toNat]
  | .lane _ addr n => do
    let target ← v.read (addr.offset n.toNat)
    pure [target.toNat]
  | .block _ addr => do
    let base ← v.read addr
    pure ((List.range laneCount).map fun lane => (base + UInt32.ofNat lane).toNat)
  | .const _ _ => pure []

/-- The memory words that a load reads, with their addresses. A load that faults reads none. -/
def fetched (v : View) (op : LoadOp) : List (Nat × Word) :=
  match op.targets v, op.writesIn v with
  | .ok addrs, .ok writes => addrs.zip (writes.map (·.2))
  | _, _ => []

variable {v : View} {op : LoadOp}

theorem Memory.read_eq_ok_iff {mem : Array Word} {addr : Nat} {w : Word} :
    Memory.read mem addr = .ok w ↔ mem[addr]? = some w := by
  unfold Memory.read
  split <;> rename_i h <;> simp [h]

theorem map_getElem?_of_loadLanes {mem : Array Word} {base : Word} {count : Nat} {ws : List Word}
    (h : loadLanes mem base count = .ok ws) :
    ((List.range count).map fun lane => mem[(base + UInt32.ofNat lane).toNat]?) = ws.map some := by
  induction count generalizing base ws with
  | zero =>
    cases h
    rfl
  | succ count ih =>
    simp only [loadLanes, bind_eq_ok_iff, pure_eq_ok_iff] at h
    obtain ⟨w, hw, rest, hrest, rfl⟩ := h
    have hnext (lane : Nat) : base + UInt32.ofNat (lane + 1) = base + 1 + UInt32.ofNat lane := by
      rw [UInt32.ofNat_add, UInt32.add_comm (UInt32.ofNat lane), UInt32.add_assoc]
      rfl
    rw [List.range_succ_eq_map, List.map_cons, List.map_map, List.map_cons, ← ih hrest]
    simp only [Function.comp_def, Nat.succ_eq_add_one, hnext]
    congr 1
    rw [← Memory.read_eq_ok_iff, ← hw]
    simp

theorem targets_of_writesIn {writes : List (Addr × Word)} (h : op.writesIn v = .ok writes) :
    ∃ addrs, op.targets v = .ok addrs ∧ (addrs = [] ∨
      addrs.map (fun a => v.mem[a]?) = (writes.map (·.2)).map some) := by
  cases op with
  | word dest addr =>
    simp only [writesIn, bind_eq_ok_iff, pure_eq_ok_iff] at h
    obtain ⟨target, htarget, w, hw, rfl⟩ := h
    refine ⟨[target.toNat], by rw [targets, htarget]; rfl, .inr ?_⟩
    exact congrArg (fun x => [x]) (Memory.read_eq_ok_iff.mp hw)
  | lane dest addr n =>
    simp only [writesIn, bind_eq_ok_iff, pure_eq_ok_iff] at h
    obtain ⟨target, htarget, w, hw, rfl⟩ := h
    refine ⟨[target.toNat], by rw [targets, htarget]; rfl, .inr ?_⟩
    exact congrArg (fun x => [x]) (Memory.read_eq_ok_iff.mp hw)
  | block dest addr =>
    simp only [writesIn, bind_eq_ok_iff, pure_eq_ok_iff] at h
    obtain ⟨base, hbase, ws, hws, rfl⟩ := h
    refine ⟨_, by rw [targets, hbase]; rfl, .inr ?_⟩
    have hsnd : (blockWrites dest ws).map (·.2) = ws :=
      List.map_snd_zip (by simp [length_of_loadLanes hws])
    rw [List.map_map, hsnd]
    exact map_getElem?_of_loadLanes hws
  | const dest value => exact ⟨[], rfl, .inl rfl⟩

theorem getElem?_of_mem_fetched {p : Nat × Word} (h : p ∈ op.fetched v) :
    v.mem[p.1]? = some p.2 := by
  unfold fetched at h
  cases hwrites : op.writesIn v with
  | error fault => simp [hwrites] at h
  | ok writes =>
    obtain ⟨addrs, haddrs, rfl | hwords⟩ := targets_of_writesIn hwrites
    · simp [hwrites, haddrs] at h
    · simp only [hwrites, haddrs] at h
      obtain ⟨i, hi⟩ := List.mem_iff_getElem?.mp h
      obtain ⟨haddr, hword⟩ := List.getElem?_zip_eq_some.mp hi
      have hsame := congrArg (·[i]?) hwords
      simpa [haddr, List.getElem?_map, hword, -List.map_map] using hsame

end LoadOp

/-! ## Stores of a run -/

theorem executeBundles_snoc (bundles : List Bundle) (b : Bundle) (s : Contents) :
    executeBundles (bundles ++ [b]) s =
      (executeBundles bundles s).bind (executeTogether b.issued) := by
  induction bundles generalizing s with
  | nil => simp [executeBundles]
  | cons c rest ih =>
    simp only [List.cons_append, executeBundles, Option.bind_assoc]
    exact Option.bind_congr fun t _ => ih t

/-- Straight operations ask for the same stores wherever they see the same contents. -/
theorem mem_wishes_congr {v w : View} {ops : List Op} (hops : ∀ op ∈ ops, op.isStraight = true)
    (hid : v.coreId = w.coreId) (hscratch : v.scratch = w.scratch) (hmem : v.mem = w.mem) :
    (wishes v ops).mem = (wishes w ops).mem := by
  refine List.flatMap_congr fun op hop => ?_
  rw [Op.wish, Op.wish, op.toOption_effect_congr (hops op hop) hid hscratch hmem]

theorem mem_wishes_issued_ofOps (v : View) (run : List Op) :
    (wishes v (Bundle.ofOps run).issued).mem = (wishes v run).mem := by
  refine flatMap_eq_of_filter_eq
    (fun op (h : op.engine ≠ .store) => Op.mem_wish_eq_nil h) ?_
  rw [Bundle.filter_engine_issued _ (by decide), Bundle.on_ofOps]

namespace Machine

def storesBy (m : Machine) (ops : List Op) : List (Nat × Word) :=
  m.cores.flatMap fun core =>
    (wishes (core.view m.mem m.honorPause core.control.pc) ops).mem

def fetchedBy (m : Machine) (op : LoadOp) : List (Nat × Word) :=
  m.cores.flatMap fun core => op.fetched (core.view m.mem m.honorPause core.control.pc)

/-- The stores of the first bundles of a program, each of which holds one of the runs. -/
def storeHistory (m : Machine) (runs : List (List Op)) : List (Nat × Word) :=
  runs.zipIdx.flatMap fun (run, n) => (m.runFor n).2.storesBy run

theorem storeHistory_snoc (m : Machine) (runs : List (List Op)) (run : List Op) :
    m.storeHistory (runs ++ [run]) =
      m.storeHistory runs ++ (m.runFor runs.length).2.storesBy run := by
  simp [storeHistory, List.zipIdx_append]

section Holding

variable (m : Machine) (s : Contents) (pc cycle : Nat)

theorem storesBy_holding {ops : List Op} (hops : ∀ op ∈ ops, op.isStraight = true) :
    (m.holding s pc .running cycle).storesBy ops = (wishes s.view ops).mem := by
  simp only [storesBy, holding, List.flatMap_singleton]
  exact mem_wishes_congr hops rfl rfl rfl

theorem getElem?_of_mem_fetchedBy_holding {op : LoadOp} {p : Nat × Word}
    (h : p ∈ (m.holding s pc .running cycle).fetchedBy op) : s.mem[p.1]? = some p.2 := by
  simp only [fetchedBy, holding, List.flatMap_singleton] at h
  exact LoadOp.getElem?_of_mem_fetched h

end Holding

/-- The machine stands at the start of a program of straight runs that keep its widths. -/
structure RunsProgram (m : Machine) (runs : List (List Op)) (s : Contents) : Prop where
  start : m = m.holding s 0 .running 0
  program : m.program = .ofList (runs.map Bundle.ofOps)
  straight : ∀ r ∈ runs, ∀ op ∈ r, op.isStraight = true
  within : ∀ r ∈ runs, (Bundle.ofOps r).Within m.widths

namespace RunsProgram

variable {m : Machine} {s t : Contents} {before after : List (List Op)}

theorem bundles (h : m.RunsProgram (before ++ after) s) :
    m.HasBundles 0 (before.map Bundle.ofOps) ∧
      (∀ b ∈ before.map Bundle.ofOps, b.IsStraight) ∧
      ∀ b ∈ before.map Bundle.ofOps, b.Within m.widths := by
  refine ⟨hasBundles_of_program_eq [] (after.map Bundle.ofOps) (by simp [h.program]), ?_, ?_⟩
  · intro b hb
    obtain ⟨r, hr, rfl⟩ := List.mem_map.mp hb
    exact Packing.isStraight_ofOps (h.straight r (List.mem_append_left _ hr))
  · intro b hb
    obtain ⟨r, hr, rfl⟩ := List.mem_map.mp hb
    exact h.within r (List.mem_append_left _ hr)

theorem runFor_eq (h : m.RunsProgram (before ++ after) s) (n : Nat) :
    m.runFor n = (m.holding s 0 .running 0).runFor n :=
  congrArg (Machine.runFor n) h.start

theorem runFor_length (h : m.RunsProgram (before ++ after) s)
    (ht : executeBundles (before.map Bundle.ofOps) s = some t) :
    ∃ cycle, m.runFor before.length =
      (.unfinished, m.holding t before.length .running cycle) := by
  obtain ⟨hprogram, hstraight, hwithin⟩ := h.bundles
  have hrun := runFor_of_executeBundles hprogram hstraight hwithin ht 0 0
  rw [List.length_map, Nat.add_zero, Nat.zero_add, ← h.runFor_eq] at hrun
  exact ⟨_, hrun⟩

theorem executeBundles_of_runFor (h : m.RunsProgram (before ++ after) s) {n : Machine}
    (hn : m.runFor before.length = (.unfinished, n)) :
    ∃ t cycle, executeBundles (before.map Bundle.ofOps) s = some t ∧
      n = m.holding t before.length .running cycle := by
  cases ht : executeBundles (before.map Bundle.ofOps) s with
  | some t =>
    obtain ⟨cycle, hrun⟩ := h.runFor_length ht
    exact ⟨t, cycle, rfl, (Prod.mk.inj (hn.symm.trans hrun)).2⟩
  | none =>
    obtain ⟨hprogram, hstraight, hwithin⟩ := h.bundles
    obtain ⟨fault, n', hrun⟩ := runFor_of_executeBundles_eq_none hprogram hstraight hwithin ht 0
    rw [List.length_map, ← h.runFor_eq, hn] at hrun
    exact RunEnd.noConfusion (Prod.mk.inj hrun).1

theorem getElem?_mem (h : m.RunsProgram (before ++ after) s)
    (ht : executeBundles (before.map Bundle.ofOps) s = some t) :
    t.mem.size = s.mem.size ∧ ∀ addr < s.mem.size,
      t.mem[addr]? = Memory.wordAfter s.mem (m.storeHistory before) addr := by
  induction before using List.reverseRecOn generalizing after t with
  | nil =>
    cases ht
    exact ⟨rfl, fun addr _ => rfl⟩
  | append_singleton before run ih =>
    have hprogram : m.RunsProgram (before ++ ([run] ++ after)) s := by
      rwa [← List.append_assoc]
    rw [List.map_append, List.map_singleton, executeBundles_snoc] at ht
    obtain ⟨u, hu, hlast⟩ := Option.bind_eq_some_iff.mp ht
    obtain ⟨hsize, hwords⟩ := ih hprogram hu
    have hrun : ∀ op ∈ run, op.isStraight = true := h.straight run (by simp)
    obtain ⟨-, hcommit⟩ :=
      (executeTogether_eq_some_iff (Packing.isStraight_ofOps hrun)).mp hlast
    obtain ⟨-, rfl⟩ := Contents.commit_eq_some_iff.mp hcommit
    obtain ⟨cycle, hreached⟩ := hprogram.runFor_length hu
    have hstores : (m.runFor before.length).2.storesBy run = (wishes u.view run).mem := by
      rw [hreached]
      exact storesBy_holding m u _ cycle hrun
    refine ⟨(Memory.size_write _ _).trans hsize, fun addr haddr => ?_⟩
    rw [mem_wishes_issued_ofOps, Memory.getElem?_write _ (hsize ▸ haddr), storeHistory_snoc,
      Memory.wordAfter_append, hstores, Memory.wordAfter, hwords addr haddr]

/-- A load reads what the runs before stored last. -/
theorem wordAfter_of_mem_fetchedBy (h : m.RunsProgram (before ++ after) s) {n : Machine}
    (hn : m.runFor before.length = (.unfinished, n)) {op : LoadOp} {p : Nat × Word}
    (hp : p ∈ n.fetchedBy op) :
    Memory.wordAfter s.mem (m.storeHistory before) p.1 = some p.2 := by
  obtain ⟨t, cycle, ht, rfl⟩ := h.executeBundles_of_runFor hn
  have hword := getElem?_of_mem_fetchedBy_holding m t _ cycle hp
  obtain ⟨hsize, hwords⟩ := h.getElem?_mem ht
  obtain ⟨hlt, -⟩ := Array.getElem?_eq_some_iff.mp hword
  rw [← hwords p.1 (hsize ▸ hlt), hword]

end RunsProgram

end Machine

namespace Packing

theorem pack_eq_map_ofOps {ops : List Op} (hops : ∀ op ∈ ops, op.isStraight = true)
    {widths : Widths} (hwidths : ∀ e, e ≠ .debug → 1 ≤ widths.of e) (mode : Mode) :
    ∃ rs : List (List Op), pack mode widths ops = rs.map Bundle.ofOps ∧ rs.flatten = ops ∧
      (mode = .unit → ∀ r ∈ rs, ∃ op, r = [op]) ∧
      ∀ r ∈ rs, (∀ op ∈ r, op.isStraight = true) ∧ (Bundle.ofOps r).Within widths := by
  refine ⟨cut mode widths ops, pack_eq_map_cut mode widths ops, flatten_cut mode widths ops, ?_,
    fun r hr => ⟨fun op hop => hops op ((sublist_of_mem_cut hr).mem hop),
      (cut_spec hwidths mode ops r hr).2⟩⟩
  rintro rfl r hr
  obtain ⟨op, -, rfl⟩ := List.mem_map.mp hr
  exact ⟨op, rfl⟩

theorem exists_run_of_flatten_eq {α : Type} {rs : List (List α)} {xs ys : List α} {x : α}
    (h : rs.flatten = xs ++ x :: ys) :
    ∃ before pre post after, rs = before ++ (pre ++ x :: post) :: after ∧
      before.flatten ++ pre = xs ∧ post ++ after.flatten = ys := by
  induction rs generalizing xs with
  | nil => simp at h
  | cons r rs ih =>
    rw [List.flatten_cons] at h
    rcases List.append_eq_append_iff.mp h with ⟨zs, rfl, hrest⟩ | ⟨zs, rfl, hrest⟩
    · obtain ⟨before, pre, post, after, rfl, rfl, rfl⟩ := ih hrest
      exact ⟨r :: before, pre, post, after, rfl, by simp, rfl⟩
    · cases zs with
      | nil =>
        have hnext : rs.flatten = [] ++ x :: ys := hrest.symm
        obtain ⟨before, pre, post, after, rfl, hpre, rfl⟩ := ih hnext
        exact ⟨(xs ++ []) :: before, pre, post, after, rfl, by simpa using hpre, rfl⟩
      | cons z zs =>
        obtain ⟨rfl, rfl⟩ := List.cons.inj hrest
        exact ⟨[], xs, zs, rs, rfl, rfl, rfl⟩

/-- Every load of packed code reads, at each address that it touches, what the bundles before its
own stored there last. That is the last store before it in the list just when no store before it
in its own bundle puts another word there; in unit mode there is no such store. -/
theorem load_reads_last_stored {ops xs ys : List Op} {op : LoadOp}
    (hops : ∀ op ∈ ops, op.isStraight = true) (hload : ops = xs ++ .load op :: ys)
    {widths : Widths} (hwidths : ∀ e, e ≠ .debug → 1 ≤ widths.of e) (mode : Mode)
    (scratch mem : Array Word) (regions : Regions) (honorPause : Bool) :
    let machine : Machine :=
      .solo scratch mem (.ofList (pack mode widths ops)) widths regions honorPause
    ∃ before pre post after,
      pack mode widths ops = (before ++ (pre ++ .load op :: post) :: after).map Bundle.ofOps ∧
      before.flatten ++ pre = xs ∧ post ++ after.flatten = ys ∧ (mode = .unit → pre = []) ∧
      ∀ m, machine.runFor before.length = (.unfinished, m) → ∀ p ∈ m.fetchedBy op,
        Memory.wordAfter mem (machine.storeHistory before) p.1 = some p.2 ∧
        (Memory.wordAfter mem (machine.storeHistory before ++ m.storesBy pre) p.1 = some p.2 ↔
          ∀ w, Memory.lastStored? p.1 (m.storesBy pre) = some w → w = p.2) := by
  intro machine
  obtain ⟨rs, hpack, hflat, hunit, hruns⟩ := pack_eq_map_ofOps hops hwidths mode
  obtain ⟨before, pre, post, after, rfl, hxs, hys⟩ :=
    exists_run_of_flatten_eq (hflat.trans hload)
  have hprogram : machine.RunsProgram (before ++ (pre ++ .load op :: post) :: after)
      ⟨0, scratch, mem, #[]⟩ :=
    ⟨rfl, congrArg Program.ofList hpack, fun r hr => (hruns r hr).1, fun r hr => (hruns r hr).2⟩
  refine ⟨before, pre, post, after, hpack, hxs, hys, ?_, ?_⟩
  · intro hmode
    obtain ⟨x, hx⟩ := hunit hmode (pre ++ .load op :: post) (by simp)
    cases pre with
    | nil => rfl
    | cons y pre => simp at hx
  · intro m hm p hp
    have hearlier := hprogram.wordAfter_of_mem_fetchedBy hm hp
    refine ⟨hearlier, ?_⟩
    rw [Memory.wordAfter_append, hearlier]
    cases Memory.lastStored? p.1 (m.storesBy pre) with
    | none => simp
    | some w => simp

/-- Two loads fill the bundle of a store, so the load behind them reads the stored word. -/
theorem load_reads_last_stored_next_bundle :
    let ops : List Op := [.const ⟨0⟩ 3, .const ⟨1⟩ 42, .storeWord ⟨0⟩ ⟨1⟩, .const ⟨3⟩ 5,
      .const ⟨4⟩ 6, .loadWord ⟨2⟩ ⟨0⟩]
    let mem : Array Word := Array.replicate 8 7
    let machine : Machine := .solo (Array.replicate 8 0) mem (.ofList (pack .wide {} ops)) {}
    ∃ before m, before.length = 2 ∧ machine.runFor 2 = (.unfinished, m) ∧
      m.fetchedBy (.word ⟨2⟩ ⟨0⟩) = [(3, 42)] ∧
      Memory.wordAfter mem (machine.storeHistory before) 3 = some 42 := by
  intro ops mem machine
  have hops : ∀ op ∈ ops, op.isStraight = true := by decide
  have hload : ops = ops.take 5 ++ .load (.word ⟨2⟩ ⟨0⟩) :: [] := rfl
  have hwidths : ∀ e, e ≠ Engine.debug → 1 ≤ ({} : Widths).of e := by
    intro e _
    cases e <;> decide
  obtain ⟨before, pre, post, after, hpack, -, -, -, hloads⟩ :=
    load_reads_last_stored hops hload hwidths .wide (Array.replicate 8 0) mem [] true
  have hthird : ∀ i < 3, Op.loadWord ⟨2⟩ ⟨0⟩ ∈ ((pack .wide {} ops).getD i {}).on .load →
      i = 2 := by
    decide +kernel
  have hlt : before.length < 3 := by
    have hlength : (pack .wide {} ops).length = 3 := by decide +kernel
    rw [hpack] at hlength
    simp at hlength
    omega
  have hbefore : before.length = 2 := by
    refine hthird _ hlt ?_
    rw [hpack]
    simp [List.getD, Bundle.on_ofOps, Op.loadWord, Op.engine]
  have hreached : machine.runFor 2 = (.unfinished, (machine.runFor 2).2) :=
    Prod.ext (by decide +kernel) rfl
  have hfetched : (machine.runFor 2).2.fetchedBy (.word ⟨2⟩ ⟨0⟩) = [(3, 42)] := by decide +kernel
  refine ⟨before, _, hbefore, hreached, hfetched, ?_⟩
  exact (hloads _ (by rw [hbefore]; exact hreached) (3, 42) (by simp [hfetched])).1

/-- A load of the bundle of a store to its address reads the word that the store replaces. The
program of one operation a bundle loads the stored word. -/
theorem packed_load_misses_store :
    let ops : List Op := [.const ⟨0⟩ 3, .const ⟨1⟩ 42, .storeWord ⟨0⟩ ⟨1⟩, .loadWord ⟨2⟩ ⟨0⟩]
    let mem : Array Word := Array.replicate 8 7
    let machine (mode : Mode) : Machine :=
      .solo (Array.replicate 8 0) mem (.ofList (pack mode {} ops)) {}
    (∀ op ∈ ops, op.isStraight = true) ∧ (∀ e, e ≠ .debug → 1 ≤ ({} : Widths).of e) ∧
      pack .wide {} ops = [.ofOps (ops.take 2), .ofOps (ops.drop 2)] ∧
      (∃ m, (machine .wide).runFor 1 = (.unfinished, m) ∧
        m.fetchedBy (.word ⟨2⟩ ⟨0⟩) = [(3, 7)] ∧
        Memory.wordAfter mem
          ((machine .wide).storeHistory [ops.take 2] ++ m.storesBy [.storeWord ⟨0⟩ ⟨1⟩]) 3 =
            some 42) ∧
      ∃ m n, (machine .wide).Ends .settled m ∧ (machine .unit).Ends .settled n ∧
        m.cores.map (·.scratch[2]?) = [some 7] ∧ n.cores.map (·.scratch[2]?) = [some 42] := by
  intro ops mem machine
  refine ⟨by decide, ?_, by decide +kernel,
    ⟨((machine .wide).runFor 1).2, ?_, by decide +kernel, by decide +kernel⟩,
    ((machine .wide).resume.runFor 3).2, ((machine .unit).resume.runFor 5).2,
    ⟨by simp, 3, ?_⟩, ⟨by simp, 5, ?_⟩, by decide +kernel, by decide +kernel⟩
  · intro e _
    cases e <;> decide
  · exact Prod.ext (by decide +kernel) rfl
  · exact Prod.ext (by decide +kernel) rfl
  · exact Prod.ext (by decide +kernel) rfl

end Packing

end TreeWalk
