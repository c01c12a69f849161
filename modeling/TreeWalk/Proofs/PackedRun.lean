import TreeWalk.Packing
import TreeWalk.Proofs.IssueOrder
import TreeWalk.Proofs.MachineRun

/-!
# Packed code

A run that becomes a bundle has no hazards and stays within the widths. Its operations issue engine
by engine and not in the order of the run, which makes no difference to operations that see the
same contents and write different addresses. Packing therefore keeps what straight code does.
-/

namespace TreeWalk

/-! ## Runs that become bundles -/

namespace Bundle

theorem on_foldl_push (ops : List Op) (b : Bundle) (engine : Engine) :
    (ops.foldl push b).on engine = b.on engine ++ ops.filter fun op => op.engine = engine := by
  induction ops generalizing b with
  | nil => simp
  | cons op rest ih =>
    rw [List.foldl_cons, ih, on_push, List.filter_cons]
    split <;> simp_all

theorem on_ofOps (ops : List Op) (engine : Engine) :
    (ofOps ops).on engine = ops.filter fun op => op.engine = engine := by
  rw [ofOps, on_foldl_push, on_empty, List.nil_append]

theorem count_ofOps (ops : List Op) (engine : Engine) :
    (ofOps ops).count engine = ops.countP fun op => op.engine = engine := by
  rw [← length_on, on_ofOps, List.countP_eq_length_filter]

theorem filter_engine_issued (b : Bundle) {engine : Engine} (h : engine ≠ .debug) :
    b.issued.filter (fun op => op.engine = engine) = b.on engine := by
  have hfilter (e : Engine) : (b.on e).filter (fun op => op.engine = engine) =
      if e = engine then b.on e else [] := by
    split
    · rename_i he
      exact List.filter_eq_self.mpr fun op hop => by simp [engine_of_mem_on hop, he]
    · rename_i he
      exact List.filter_eq_nil_iff.mpr fun op hop => by simp [engine_of_mem_on hop, he]
  simp only [issued, Engine.issuing, List.flatMap_cons, List.flatMap_nil, List.filter_append,
    hfilter]
  cases engine <;> simp_all

theorem issued_ofOps_perm (ops : List Op) :
    (ofOps ops).issued.Perm (ops.filter fun op => !op.isNote) := by
  have hcount (p : Op → Bool) (op : Op) :
      (ops.filter p).count op = if p op then ops.count op else 0 := by
    split <;> rename_i hp
    · exact List.count_filter hp
    · exact List.count_eq_zero_of_not_mem fun h => hp (List.mem_filter.mp h).2
  refine List.perm_iff_count.mpr fun op => ?_
  simp only [issued, Engine.issuing, List.flatMap_cons, List.flatMap_nil, List.append_nil,
    List.count_append, on_ofOps, hcount]
  cases op <;> simp [Op.engine, Op.isNote]

end Bundle

theorem executeTogether_issued_ofOps_eq {run : List Op} (hspares : run.Pairwise Op.Spares)
    (hops : ∀ op ∈ run, op.isStraight = true) (s : Contents) :
    executeTogether (Bundle.ofOps run).issued s = executeTogether run s := by
  have hsub : (run.filter fun op => !op.isNote).Sublist run := List.filter_sublist
  have hnodup : ((run.filter fun op => !op.isNote).flatMap Op.writes).Nodup :=
    nodup_writes_of_spares (hspares.sublist hsub)
  have horder (e : Engine) : (run.filter fun op => !op.isNote).filter (fun op => op.engine = e) =
      (Bundle.ofOps run).issued.filter fun op => op.engine = e := by
    by_cases he : e = .debug
    · have hnil (ops : List Op) (h : ∀ op ∈ ops, op.isNote = false) :
          ops.filter (fun op => op.engine = e) = [] := by
        refine List.filter_eq_nil_iff.mpr fun op hop => ?_
        have hnote := h op hop
        simp [he, Op.engine_eq_debug_iff, hnote]
      have hfilter : ∀ op ∈ run.filter (fun op => !op.isNote), op.isNote = false := by simp
      rw [hnil _ hfilter, hnil _ fun op hop =>
        hfilter op ((Bundle.issued_ofOps_perm run).mem_iff.mp hop)]
    · rw [Bundle.filter_engine_issued _ he, Bundle.on_ofOps, List.filter_filter]
      refine List.filter_congr fun op _ => ?_
      cases op <;> simp [Op.engine, Op.isNote, Ne.symm he]
  rw [← executeTogether_regroup (Bundle.issued_ofOps_perm run).symm
    (fun op hop => hops op (hsub.mem hop)) hnodup horder, executeTogether_filter_isNote]

/-- The bundle of a run without hazards does what the run does op by op. -/
theorem executeTogether_issued_ofOps {run : List Op} (hrun : HazardFree run)
    (hops : ∀ op ∈ run, op.isStraight = true) (hfit : ∀ op ∈ run, op.Fits) (s : Contents) :
    executeTogether (Bundle.ofOps run).issued s = execute run s := by
  rw [executeTogether_issued_ofOps_eq hrun.spares hops, executeTogether_eq_execute hops hfit hrun]

namespace Packing

variable {widths : Widths}

/-- An open run, with its last op first, and the addresses that it writes. -/
structure OpenRun (widths : Widths) (run : List Op) (written : List Addr) : Prop where
  spares : run.reverse.Pairwise Op.Spares
  written : ∀ op ∈ run, ∀ a ∈ op.writes, a ∈ written
  count : ∀ e ∈ Engine.issuing, run.countP (fun op => op.engine == e) ≤ widths.of e

theorem spares_of_touches_eq_false {written : List Addr} {x op : Op}
    (h : touches written op = false) (hx : ∀ a ∈ x.writes, a ∈ written) : x.Spares op := by
  simp only [touches, Bool.or_eq_false_iff, List.any_eq_false, List.contains_iff_mem] at h
  exact fun a ha => ⟨fun hr => h.1 a hr (hx a ha), fun hw => h.2 a hw (hx a ha)⟩

theorem OpenRun.nil : OpenRun widths [] [] :=
  ⟨List.Pairwise.nil, by simp, by simp⟩

theorem OpenRun.single (hwidths : ∀ e, e ≠ .debug → 1 ≤ widths.of e) (op : Op) :
    OpenRun widths [op] op.writes := by
  refine ⟨by simp, by simp, fun e he => ?_⟩
  have hle : [op].countP (fun op => op.engine == e) ≤ 1 := List.countP_le_length
  exact Nat.le_trans hle (hwidths e (Engine.mem_issuing.mp he))

theorem OpenRun.note {run : List Op} {written : List Addr} (h : OpenRun widths run written)
    (text : String) : OpenRun widths (.note text :: run) written := by
  refine ⟨?_, ?_, ?_⟩
  · rw [List.reverse_cons]
    refine List.pairwise_append.mpr ⟨h.spares, by simp, fun x _ y hy => ?_⟩
    obtain rfl := List.mem_singleton.mp hy
    exact fun a _ => ⟨by simp [Op.reads], by simp [Op.writes]⟩
  · intro op hop a ha
    rcases List.mem_cons.mp hop with rfl | hop
    · simp [Op.writes] at ha
    · exact h.written op hop a ha
  · intro e he
    have hne : Engine.debug ≠ e := fun heq => Engine.mem_issuing.mp he heq.symm
    simpa [Op.engine, hne] using h.count e he

theorem OpenRun.cons {run : List Op} {written : List Addr} (h : OpenRun widths run written)
    {op : Op} (hop : blocks widths run written op = false) :
    OpenRun widths (op :: run) (op.writes ++ written) := by
  simp only [blocks, Bool.or_eq_false_iff, decide_eq_false_iff_not, Nat.not_le] at hop
  refine ⟨?_, ?_, ?_⟩
  · rw [List.reverse_cons]
    refine List.pairwise_append.mpr ⟨h.spares, by simp, fun x hx y hy => ?_⟩
    obtain rfl := List.mem_singleton.mp hy
    exact spares_of_touches_eq_false hop.2 (h.written x (List.mem_reverse.mp hx))
  · intro x hx a ha
    rcases List.mem_cons.mp hx with rfl | hx
    · exact List.mem_append_left _ ha
    · exact List.mem_append_right _ (h.written x hx a ha)
  · intro e he
    rw [List.countP_cons]
    by_cases hengine : op.engine = e
    · subst hengine
      simpa using Nat.succ_le_of_lt hop.1
    · simpa [hengine] using h.count e he

/-- Every run that is closed spares its own writes and keeps the widths. -/
theorem runsFrom_spec (hwidths : ∀ e, e ≠ .debug → 1 ≤ widths.of e) (ops : List Op)
    {run : List Op} {written : List Addr} (h : OpenRun widths run written) :
    ∀ r ∈ runsFrom widths run written ops,
      r.Pairwise Op.Spares ∧ (Bundle.ofOps r).Within widths := by
  have hclosed {run : List Op} {written : List Addr} (h : OpenRun widths run written) :
      run.reverse.Pairwise Op.Spares ∧ (Bundle.ofOps run.reverse).Within widths := by
    refine ⟨h.spares, fun e he => ?_⟩
    rw [Bundle.count_ofOps, List.countP_reverse]
    exact h.count e he
  induction ops generalizing run written with
  | nil =>
    intro r hr
    simp only [runsFrom] at hr
    split at hr
    · simp at hr
    · obtain rfl := List.mem_singleton.mp hr
      exact hclosed h
  | cons op rest ih =>
    simp only [runsFrom]
    split
    · rename_i hnote
      cases op with
      | note text => exact ih (h.note text)
      | alu | valu | load | store | flow => simp [Op.isNote] at hnote
    · split
      · intro r hr
        rcases List.mem_cons.mp hr with rfl | hr
        · exact hclosed h
        · exact ih (OpenRun.single hwidths op) r hr
      · rename_i hblocks
        exact ih (h.cons (by simpa using hblocks))

/-- What the packer relies on: straight operations within the address space, with no memory load
behind a memory store. -/
structure Packable (ops : List Op) : Prop where
  straight : ∀ op ∈ ops, op.isStraight = true
  fits : ∀ op ∈ ops, op.Fits
  memory : ops.Pairwise fun x y => x.writesMemory = true → y.readsMemory = false

theorem isStraight_ofOps {ops : List Op} (h : ∀ op ∈ ops, op.isStraight = true) :
    (Bundle.ofOps ops).IsStraight := fun op hop =>
  h op (List.mem_filter.mp ((Bundle.issued_ofOps_perm ops).mem_iff.mp hop)).1

theorem executeBundles_ofOps {runs : List (List Op)}
    (hruns : ∀ r ∈ runs, HazardFree r ∧ (∀ op ∈ r, op.isStraight = true) ∧ ∀ op ∈ r, op.Fits)
    (s : Contents) : executeBundles (runs.map Bundle.ofOps) s = execute runs.flatten s := by
  induction runs generalizing s with
  | nil => rfl
  | cons r rest ih =>
    obtain ⟨hfree, hops, hfit⟩ := hruns r List.mem_cons_self
    rw [List.map_cons, executeBundles, executeTogether_issued_ofOps hfree hops hfit,
      List.flatten_cons, execute_append]
    exact Option.bind_congr fun t _ => ih (fun q hq => hruns q (List.mem_cons_of_mem r hq)) t

/-- The runs that become the bundles of a mode. -/
def cut (mode : Mode) (widths : Widths) (ops : List Op) : List (List Op) :=
  match mode with
  | .wide => runs widths ops
  | .unit => ops.map fun op => [op]

theorem pack_eq_map_cut (mode : Mode) (widths : Widths) (ops : List Op) :
    pack mode widths ops = (cut mode widths ops).map Bundle.ofOps := by
  cases mode with
  | wide => rfl
  | unit => simp [pack, cut, Bundle.ofOps, Bundle.single]

theorem flatten_cut (mode : Mode) (widths : Widths) (ops : List Op) :
    (cut mode widths ops).flatten = ops := by
  cases mode with
  | wide => exact flatten_runs widths ops
  | unit => rw [cut, ← List.flatMap_def, List.flatMap_singleton']

theorem sublist_of_mem_cut {mode : Mode} {ops r : List Op} (hr : r ∈ cut mode widths ops) :
    r.Sublist ops :=
  flatten_cut mode widths ops ▸ List.sublist_flatten_of_mem hr

theorem cut_spec (hwidths : ∀ e, e ≠ .debug → 1 ≤ widths.of e) (mode : Mode) (ops : List Op) :
    ∀ r ∈ cut mode widths ops, r.Pairwise Op.Spares ∧ (Bundle.ofOps r).Within widths := by
  cases mode with
  | wide => exact runsFrom_spec hwidths ops .nil
  | unit =>
    intro r hr
    obtain ⟨op, -, rfl⟩ := List.mem_map.mp hr
    exact ⟨List.pairwise_singleton .., Bundle.single_within hwidths op⟩

section Pack

variable {ops : List Op} (hops : Packable ops) (hwidths : ∀ e, e ≠ .debug → 1 ≤ widths.of e)

include hops hwidths in
theorem pack_spec (mode : Mode) :
    (∀ b ∈ pack mode widths ops, b.IsStraight ∧ b.Within widths) ∧
      ∀ s, executeBundles (pack mode widths ops) s = execute ops s := by
  have hstraight : ∀ r ∈ cut mode widths ops, ∀ op ∈ r, op.isStraight = true :=
    fun r hr op hop => hops.straight op ((sublist_of_mem_cut hr).mem hop)
  have hfits : ∀ r ∈ cut mode widths ops, ∀ op ∈ r, op.Fits :=
    fun r hr op hop => hops.fits op ((sublist_of_mem_cut hr).mem hop)
  have hfree : ∀ r ∈ cut mode widths ops, HazardFree r := fun r hr =>
    ⟨(cut_spec hwidths mode ops r hr).1, hops.memory.sublist (sublist_of_mem_cut hr)⟩
  rw [pack_eq_map_cut]
  constructor
  · intro b hb
    obtain ⟨r, hr, rfl⟩ := List.mem_map.mp hb
    exact ⟨isStraight_ofOps (hstraight r hr), (cut_spec hwidths mode ops r hr).2⟩
  · intro s
    rw [executeBundles_ofOps fun r hr => ⟨hfree r hr, hstraight r hr, hfits r hr⟩, flatten_cut]

include hops hwidths in
/-- A packed list that goes well brings the machine to what the list makes of its contents. -/
theorem ends_of_execute (mode : Mode) {scratch mem : Array Word} {t : Contents}
    (h : execute ops ⟨0, scratch, mem, #[]⟩ = some t) (regions : Regions) (honorPause : Bool) :
    ∃ m, (Machine.solo scratch mem (.ofList (pack mode widths ops)) widths regions
        honorPause).Ends .settled m ∧
      m.cores = [t.core (pack mode widths ops).length .stopped] ∧ m.mem = t.mem := by
  obtain ⟨hbundles, hexecute⟩ := pack_spec hops hwidths mode
  have hprogram : (Machine.solo scratch mem (.ofList (pack mode widths ops)) widths regions
      honorPause).HasBundles 0 (pack mode widths ops) :=
    Machine.hasBundles_of_program_eq [] [] (by simp [Machine.solo])
  have hends := Machine.ends_of_executeBundles hprogram
    (by simp [Machine.solo, Program.get?, Program.ofList]) (fun b hb => (hbundles b hb).1)
    (fun b hb => (hbundles b hb).2) ((hexecute _).trans h)
    (by decide : RunState.running ≠ .stopped) 0
  exact ⟨_, hends, by simp [Machine.holding], rfl⟩

include hops hwidths in
theorem runFor_of_execute (mode : Mode) {m : Machine} (hm : m.widths = widths) {pc : Nat}
    (hprogram : m.HasBundles pc (pack mode widths ops)) {s t : Contents}
    (h : execute ops s = some t) (cycle : Nat) :
    ∃ cycle', ∀ limit,
      (m.holding s pc .running cycle).runFor ((pack mode widths ops).length + limit) =
        (m.holding t (pc + (pack mode widths ops).length) .running cycle').runFor limit := by
  obtain ⟨hbundles, hexecute⟩ := pack_spec hops hwidths mode
  exact ⟨_, Machine.runFor_of_executeBundles hprogram (fun b hb => (hbundles b hb).1)
    (fun b hb => hm ▸ (hbundles b hb).2) ((hexecute s).trans h) cycle⟩

include hops hwidths in
theorem ends_of_execute_eq_none (mode : Mode) {scratch mem : Array Word}
    (h : execute ops ⟨0, scratch, mem, #[]⟩ = none) (regions : Regions) (honorPause : Bool) :
    ∃ fault m, (Machine.solo scratch mem (.ofList (pack mode widths ops)) widths regions
      honorPause).Ends (.faulted fault) m := by
  obtain ⟨hbundles, hexecute⟩ := pack_spec hops hwidths mode
  have hprogram : (Machine.solo scratch mem (.ofList (pack mode widths ops)) widths regions
      honorPause).HasBundles 0 (pack mode widths ops) :=
    Machine.hasBundles_of_program_eq [] [] (by simp [Machine.solo])
  exact Machine.ends_of_executeBundles_eq_none hprogram (fun b hb => (hbundles b hb).1)
    (fun b hb => (hbundles b hb).2) ((hexecute _).trans h)
    (by decide : RunState.running ≠ .stopped) 0

end Pack

/-- Packing keeps the meaning of a straight list: the packed and the unpacked program fault
together, and where they do not they leave the same scratch, trace and memory. -/
theorem pack_wide_refines_unit {ops : List Op} (hops : Packable ops)
    {widths : Widths} (hwidths : ∀ e, e ≠ .debug → 1 ≤ widths.of e)
    (scratch mem : Array Word) (regions : Regions) (honorPause : Bool) :
    let machine (mode : Mode) : Machine :=
      .solo scratch mem (.ofList (pack mode widths ops)) widths regions honorPause
    ((∃ fault n, (machine .wide).Ends (.faulted fault) n) ↔
      ∃ fault n, (machine .unit).Ends (.faulted fault) n) ∧
    ((¬ ∃ fault n, (machine .wide).Ends (.faulted fault) n) →
      ∃ m n, (machine .wide).Ends .settled m ∧ (machine .unit).Ends .settled n ∧
        m.cores.map (·.scratch) = n.cores.map (·.scratch) ∧
        m.cores.map (·.control.trace) = n.cores.map (·.control.trace) ∧ m.mem = n.mem) := by
  intro machine
  cases h : execute ops ⟨0, scratch, mem, #[]⟩ with
  | none =>
    have hfault (mode : Mode) : ∃ fault n, (machine mode).Ends (.faulted fault) n :=
      ends_of_execute_eq_none hops hwidths mode h regions honorPause
    exact ⟨iff_of_true (hfault .wide) (hfault .unit), fun hne => absurd (hfault .wide) hne⟩
  | some t =>
    have hends (mode : Mode) := ends_of_execute hops hwidths mode h regions honorPause
    have hgood (mode : Mode) : ¬ ∃ fault n, (machine mode).Ends (.faulted fault) n := by
      rintro ⟨fault, n, hfault⟩
      obtain ⟨m, hm, -⟩ := hends mode
      exact RunEnd.noConfusion (hm.unique hfault).1
    refine ⟨iff_of_false (hgood .wide) (hgood .unit), fun _ => ?_⟩
    obtain ⟨m, hm, hcores, hmem⟩ := hends .wide
    obtain ⟨n, hn, hcores', hmem'⟩ := hends .unit
    refine ⟨m, n, hm, hn, ?_, ?_, hmem.trans hmem'.symm⟩
    · rw [hcores, hcores']
      rfl
    · rw [hcores, hcores']
      rfl

/-- Six operations in three bundles: the product overwrites a factor of the sum beside it. -/
theorem pack_wide_refines_unit_sum :
    let ops : List Op := [.const ⟨0⟩ 5, .const ⟨1⟩ 7, .scalar .add ⟨2⟩ ⟨0⟩ ⟨1⟩,
      .scalar .mul ⟨0⟩ ⟨1⟩ ⟨1⟩, .storeWord ⟨1⟩ ⟨2⟩, .storeWord ⟨0⟩ ⟨2⟩]
    let scratch : Array Word := Array.replicate 4 0
    let mem : Array Word := Array.replicate 64 0
    Packable ops ∧ (pack .wide {} ops).length = 3 ∧
      ∃ m n, (Machine.solo scratch mem (.ofList (pack .wide {} ops)) {}).Ends .settled m ∧
        (Machine.solo scratch mem (.ofList (pack .unit {} ops)) {}).Ends .settled n ∧
        m.mem = n.mem ∧ m.mem[49]? = some 12 := by
  intro ops scratch mem
  have hops : Packable ops :=
    ⟨by decide, by simp [ops, Op.const, Op.scalar, Op.storeWord, Op.Fits, LoadOp.Fits,
      StoreOp.Fits], by decide⟩
  have hwidths : ∀ e, e ≠ Engine.debug → 1 ≤ ({} : Widths).of e := by
    intro e _
    cases e <;> decide
  have hends : (Machine.solo scratch mem (.ofList (pack .wide {} ops)) {}).Ends .settled
      ((Machine.solo scratch mem (.ofList (pack .wide {} ops)) {}).resume.runFor 4).2 :=
    ⟨by simp, 4, Prod.ext (by decide +kernel) rfl⟩
  have hword : ((Machine.solo scratch mem (.ofList (pack .wide {} ops)) {}).resume.runFor
      4).2.mem[49]? = some 12 := by decide +kernel
  obtain ⟨m, n, hm, hn, -, -, hmem⟩ :=
    (pack_wide_refines_unit hops hwidths scratch mem [] true).2 fun ⟨fault, n, hfault⟩ =>
      RunEnd.noConfusion (hends.unique hfault).1
  refine ⟨hops, by decide +kernel, m, n, hm, hn, hmem, ?_⟩
  rw [(hm.unique hends).2]
  exact hword

end Packing

end TreeWalk
