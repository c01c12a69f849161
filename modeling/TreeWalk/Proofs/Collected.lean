import TreeWalk.Proofs.Footprint

/-!
# Collecting the effects of a bundle

Where no engine is asked for too much, a bundle collects the effects of its operations one engine
after the other. For an operation that is alone in its bundle this says what issuing it depends on
and what it changes.
-/

namespace TreeWalk

variable {v w : View} {widths : Widths} {b : Bundle}

theorem Bundle.engine_of_mem_on {engine : Engine} {op : Op} (h : op ∈ b.on engine) :
    op.engine = engine := by
  cases engine <;> simp only [on, List.mem_map] at h <;> obtain ⟨_, -, rfl⟩ := h <;> rfl

theorem collect_append (v : View) (xs ys : List Op) (e : Effect) :
    collect v (xs ++ ys) e =
      match collect v xs e with
      | (next, none) => collect v ys next
      | faulted => faulted := by
  induction xs generalizing e with
  | nil => rfl
  | cons x xs ih =>
    simp only [List.cons_append, collect]
    cases x.effect v e.control with
    | error f => rfl
    | ok next => exact ih _

theorem collectEngines_eq_collect {engines : List Engine}
    (h : ∀ e ∈ engines, b.count e ≤ widths.of e) (e : Effect) :
    collectEngines v widths b engines e = collect v (engines.flatMap b.on) e := by
  induction engines generalizing e with
  | nil => rfl
  | cons engine rest ih =>
    have hcount : ¬ widths.of engine < b.count engine :=
      Nat.not_lt.mpr (h engine List.mem_cons_self)
    rw [collectEngines, if_neg hcount, List.flatMap_cons, collect_append]
    rcases collect v (b.on engine) e with ⟨next, fault⟩
    cases fault with
    | none => exact ih (fun f hf => h f (List.mem_cons_of_mem engine hf)) next
    | some f => rfl

theorem collect_congr {ops : List Op} (h : ∀ op ∈ ops, ∀ c, op.effect v c = op.effect w c)
    (e : Effect) : collect v ops e = collect w ops e := by
  induction ops generalizing e with
  | nil => rfl
  | cons op rest ih =>
    simp only [collect, h op List.mem_cons_self,
      ih fun other ho => h other (List.mem_cons_of_mem op ho)]

theorem collectEngines_congr {engines : List Engine} (hpc : v.pc = w.pc)
    (h : ∀ engine ∈ engines, ∀ op ∈ b.on engine, ∀ c, op.effect v c = op.effect w c)
    (e : Effect) :
    collectEngines v widths b engines e = collectEngines w widths b engines e := by
  induction engines generalizing e with
  | nil => rfl
  | cons engine rest ih =>
    simp only [collectEngines, hpc, collect_congr (h engine List.mem_cons_self),
      ih fun f hf => h f (List.mem_cons_of_mem engine hf)]

/-- Collected scratch writes go to the addresses of `writes`, operation by operation. -/
theorem map_fst_collect {ops : List Op} {e e' : Effect} (h : collect v ops e = (e', none)) :
    e'.scratch.map (·.1) = e.scratch.map (·.1) ++ ops.flatMap Op.writes := by
  induction ops generalizing e with
  | nil => cases h; simp
  | cons op rest ih =>
    simp only [collect] at h
    split at h
    · cases h
    · rename_i next hn
      rw [ih h]
      simp [Op.map_fst_effect hn]

theorem count_le_of_collectEngines {engines : List Engine} {e e' : Effect}
    (h : collectEngines v widths b engines e = (e', none)) :
    ∀ engine ∈ engines, b.count engine ≤ widths.of engine := by
  intro engine hengine
  induction engines generalizing e with
  | nil => simp at hengine
  | cons first rest ih =>
    simp only [collectEngines] at h
    split at h
    · cases h
    · rename_i hfirst
      rcases List.mem_cons.mp hengine with rfl | hengine
      · exact Nat.not_lt.mp hfirst
      · split at h
        · exact ih h hengine
        · rename_i hne
          exact absurd h (hne e')

theorem map_fst_collectEngines {engines : List Engine} {e e' : Effect}
    (h : collectEngines v widths b engines e = (e', none)) :
    e'.scratch.map (·.1) = e.scratch.map (·.1) ++ (engines.flatMap b.on).flatMap Op.writes := by
  rw [collectEngines_eq_collect (count_le_of_collectEngines h)] at h
  exact map_fst_collect h

/-! ## An operation alone in its bundle -/

namespace Bundle

theorem on_single (op : Op) (engine : Engine) :
    (single op).on engine = if op.engine = engine then [op] else [] := by
  rw [single, on_push, on_empty, List.nil_append]

theorem flatMap_on_single {op : Op} (h : op.isNote = false) :
    Engine.issuing.flatMap (single op).on = [op] := by
  cases op <;> first | rfl | cases h

theorem flatMap_writes_single (op : Op) :
    (Engine.issuing.flatMap (single op).on).flatMap Op.writes = op.writes := by
  cases op with
  | note text => rfl
  | alu | valu | load | store | flow => rw [flatMap_on_single rfl]; simp

end Bundle

namespace Core

def view (core : Core) (mem : Array Word) (honorPause : Bool) (pc : Nat) : View :=
  ⟨core.id, core.scratch, mem, pc, honorPause⟩

/-- What a bundle asks for when it is issued: scratch writes, memory writes and control. -/
def asked (core : Core) (mem : Array Word) (b : Bundle) (widths : Widths) (honorPause : Bool)
    (pc : Nat) : Effect :=
  (collectEngines (core.view mem honorPause pc) widths b Engine.issuing
    { control := core.control }).1

variable {core c d : Core} {mem : Array Word} {honorPause : Bool} {pc : Nat}

theorem issue_eq (core : Core) (mem : Array Word) (b : Bundle) (widths : Widths)
    (honorPause : Bool) (pc : Nat) :
    core.issue mem b widths honorPause pc =
      match collectEngines (core.view mem honorPause pc) widths b Engine.issuing
        { control := core.control } with
      | (e, none) => e.commit core.id core.scratch mem
      | (e, fault) => ⟨⟨core.id, core.scratch, e.control⟩, mem, fault⟩ := rfl

/-- A bundle that does not fault has collected all effects and applied all scratch writes. -/
theorem collected_of_fault_eq_none (h : (core.issue mem b widths honorPause pc).fault = none) :
    collectEngines (core.view mem honorPause pc) widths b Engine.issuing
        { control := core.control } = (core.asked mem b widths honorPause pc, none) ∧
      Scratch.write (core.asked mem b widths honorPause pc).scratch core.scratch =
        ((core.issue mem b widths honorPause pc).core.scratch, none) := by
  rw [issue_eq] at h ⊢
  unfold asked
  rcases hc : collectEngines (core.view mem honorPause pc) widths b Engine.issuing
    { control := core.control } with ⟨e, fault⟩
  rw [hc] at h
  cases fault with
  | some f => cases h
  | none =>
    refine ⟨rfl, ?_⟩
    simp only [Effect.commit] at h ⊢
    rcases hw : Scratch.write e.scratch core.scratch with ⟨scratch, fault⟩
    rw [hw] at h
    cases fault with
    | none => rfl
    | some f => cases h

/-- A commit depends on the old scratch only through its size and the words it leaves alone. -/
theorem commit_congr {e : Effect} {id : Nat} {s t : Array Word} (hsize : s.size = t.size) :
    (e.commit id s mem).fault = (e.commit id t mem).fault ∧
      (e.commit id s mem).mem = (e.commit id t mem).mem ∧
      (e.commit id s mem).core.control = (e.commit id t mem).core.control := by
  have hfault : (Scratch.write e.scratch s).2 = (Scratch.write e.scratch t).2 :=
    Scratch.write_snd_congr hsize
  unfold Effect.commit
  rcases hs : Scratch.write e.scratch s with ⟨s', fs⟩
  rcases ht : Scratch.write e.scratch t with ⟨t', ft⟩
  rw [hs, ht] at hfault
  subst hfault
  cases fs <;> exact ⟨rfl, rfl, rfl⟩

theorem collected_single_congr {op : Op} (hfit : op.Fits) (hid : c.id = d.id)
    (hcontrol : c.control = d.control) (hsize : c.scratch.size = d.scratch.size)
    (hword : ∀ a ∈ op.reads, c.scratch[a.toNat]? = d.scratch[a.toNat]?)
    (mem : Array Word) (widths : Widths) (honorPause : Bool) (pc : Nat) :
    collectEngines (c.view mem honorPause pc) widths (.single op) Engine.issuing
        { control := c.control } =
      collectEngines (d.view mem honorPause pc) widths (.single op) Engine.issuing
        { control := d.control } := by
  have hview : (c.view mem honorPause pc).Agrees (d.view mem honorPause pc) op.reads :=
    ⟨hid, rfl, rfl, hsize, hword⟩
  rw [hcontrol]
  apply collectEngines_congr (show (c.view mem honorPause pc).pc = pc from rfl)
  intro engine _ other hother control
  rw [Bundle.on_single] at hother
  split at hother
  · obtain rfl := List.mem_singleton.mp hother
    exact Op.effect_congr hfit hview rfl (fun _ => rfl) control
  · simp at hother

/-- An operation alone in its bundle: two cores that agree on the words it reads have the same
outcome, and when there is no fault exactly the words it writes are replaced, by the same words. -/
theorem issue_single_footprint {op : Op} (hfit : op.Fits) (hid : c.id = d.id)
    (hcontrol : c.control = d.control) (hsize : c.scratch.size = d.scratch.size)
    (hword : ∀ a ∈ op.reads, c.scratch[a.toNat]? = d.scratch[a.toNat]?)
    (mem : Array Word) (widths : Widths) (honorPause : Bool) (pc : Nat) :
    let r := c.issue mem (.single op) widths honorPause pc
    let t := d.issue mem (.single op) widths honorPause pc
    let asked := c.asked mem (.single op) widths honorPause pc
    (r.fault = t.fault ∧ r.mem = t.mem ∧ r.core.control = t.core.control ∧
      asked = d.asked mem (.single op) widths honorPause pc) ∧
    (r.fault = none →
      asked.scratch.map (·.1) = op.writes ∧
      (∀ a ∈ op.writes, ∃ w,
        r.core.scratch[a.toNat]? = some w ∧ t.core.scratch[a.toNat]? = some w) ∧
      ∀ i, (∀ a ∈ op.writes, a.toNat ≠ i) →
        r.core.scratch[i]? = c.scratch[i]? ∧ t.core.scratch[i]? = d.scratch[i]?) := by
  intro r t asked
  have hcollected :=
    collected_single_congr hfit hid hcontrol hsize hword mem widths honorPause pc
  have hasked : asked = d.asked mem (.single op) widths honorPause pc :=
    congrArg Prod.fst hcollected
  have houtcome : r.fault = t.fault ∧ r.mem = t.mem ∧ r.core.control = t.core.control := by
    simp only [r, t, issue_eq, hcollected]
    rcases collectEngines (d.view mem honorPause pc) widths (.single op) Engine.issuing
      { control := d.control } with ⟨e, fault⟩
    cases fault with
    | none => rw [hid]; exact commit_congr hsize
    | some f => exact ⟨rfl, rfl, rfl⟩
  refine ⟨⟨houtcome.1, houtcome.2.1, houtcome.2.2, hasked⟩, fun hfault => ?_⟩
  obtain ⟨hc, hwrite⟩ := collected_of_fault_eq_none hfault
  obtain ⟨-, hwrite'⟩ := collected_of_fault_eq_none (houtcome.1 ▸ hfault : t.fault = none)
  rw [← hasked] at hwrite'
  have hkeys : asked.scratch.map (·.1) = op.writes := by
    rw [map_fst_collectEngines hc, List.map_nil, List.nil_append,
      Bundle.flatMap_writes_single]
  have htouch (i : Nat) :
      Scratch.Touches asked.scratch i ↔ ∃ a ∈ op.writes, a.toNat = i := by
    rw [← hkeys]
    simp [Scratch.Touches]
  have hr : r.core.scratch = (Scratch.write asked.scratch c.scratch).1 := by rw [hwrite]
  have ht : t.core.scratch = (Scratch.write asked.scratch d.scratch).1 := by rw [hwrite']
  refine ⟨hkeys, fun a ha => ?_, fun i hi => ?_⟩
  · have hnone : (Scratch.write asked.scratch c.scratch).2 = none := by rw [hwrite]
    have hta : Scratch.Touches asked.scratch a.toNat := (htouch _).mpr ⟨a, ha, rfl⟩
    have hlt : a.toNat < r.core.scratch.size := by
      obtain ⟨x, hx, hxa⟩ := hta
      rw [hr, Scratch.size_write, ← hxa]
      exact Scratch.write_snd_eq_none_iff.mp hnone x hx
    refine ⟨r.core.scratch[a.toNat], Array.getElem?_eq_getElem hlt, ?_⟩
    rw [ht, ← Scratch.getElem?_write_congr hta hsize hnone, ← hr]
    exact Array.getElem?_eq_getElem hlt
  · have hti : ¬ Scratch.Touches asked.scratch i := by
      rw [htouch]
      rintro ⟨a, ha, hai⟩
      exact hi a ha hai
    rw [hr, ht]
    exact ⟨Scratch.getElem?_write_of_not_touches hti _,
      Scratch.getElem?_write_of_not_touches hti _⟩

/-- Loading a block through word 1, on cores that differ in the words 0 and 7 only. -/
theorem issue_single_footprint_loadBlock :
    let op := Op.loadBlock ⟨8⟩ ⟨1⟩
    let mem : Array Word := #[10, 11, 12, 13, 14, 15, 16, 17, 18, 19]
    let c : Core := ⟨0, #[1, 2, 0, 0, 0, 0, 0, 9] ++ Array.replicate 8 0, {}⟩
    let d : Core := ⟨0, #[5, 2, 0, 0, 0, 0, 0, 6] ++ Array.replicate 8 0, {}⟩
    op.Fits ∧ (∀ a ∈ op.reads, c.scratch[a.toNat]? = d.scratch[a.toNat]?) ∧
      (c.issue mem (.single op) {} true 0).fault = none ∧
      (c.issue mem (.single op) {} true 0).core.scratch[8]? = some 12 ∧
      (c.asked mem (.single op) {} true 0).scratch.map (·.1) = op.writes := by
  intro op mem c d
  have hfit : op.Fits := (by decide : Addr.FitsBlock ⟨8⟩)
  have hword : ∀ a ∈ op.reads, c.scratch[a.toNat]? = d.scratch[a.toNat]? := by decide +kernel
  have hsize : c.scratch.size = d.scratch.size := by decide +kernel
  have hfault : (c.issue mem (.single op) {} true 0).fault = none := by decide +kernel
  have h := issue_single_footprint (c := c) (d := d) hfit rfl rfl hsize hword mem {} true 0
  exact ⟨hfit, hword, hfault, by decide +kernel, (h.2 hfault).1⟩

end Core

end TreeWalk
