import Mathlib.Data.List.Nodup
import TreeWalk.Proofs.StraightLine

/-!
# Order of operations that see the same contents

Operations of one bundle write different addresses, so the order in which their writes are
collected matters only for the memory and the trace. Operations that touch neither commute.
-/

namespace TreeWalk

namespace Scratch

theorem write_perm {xs ys : List (Addr × Word)} (h : xs.Perm ys)
    (hnodup : (xs.map (·.1)).Nodup) {scratch : Array Word}
    (hx : ∀ x ∈ xs, x.1.toNat < scratch.size) :
    (write xs scratch).1 = (write ys scratch).1 := by
  induction h generalizing scratch with
  | nil => rfl
  | cons x _ ih =>
    have hlt : x.1.toNat < scratch.size := hx x List.mem_cons_self
    rw [write_cons_of_lt hlt, write_cons_of_lt hlt]
    refine ih (List.nodup_cons.mp hnodup).2 fun y hy => ?_
    rw [Array.size_set]
    exact hx y (List.mem_cons_of_mem x hy)
  | swap x y rest =>
    have hlx : x.1.toNat < scratch.size := hx x (by simp)
    have hly : y.1.toNat < scratch.size := hx y (by simp)
    have hne : x.1.toNat ≠ y.1.toNat := by
      intro heq
      have hxy := Addr.toNat_injective heq
      simp [hxy] at hnodup
    rw [write_cons_of_lt hly, write_cons_of_lt (by simpa using hlx), write_cons_of_lt hlx,
      write_cons_of_lt (by simpa using hly), Array.set_comm _ _ hne.symm]
  | trans h₁ _ ih₁ ih₂ =>
    rw [ih₁ hnodup hx]
    exact ih₂ ((h₁.map _).nodup_iff.mp hnodup) fun y hy => hx y (h₁.mem_iff.mpr hy)

end Scratch

theorem Addr.nodup_block (a : Addr) : a.block.Nodup := by
  have hoffset : ∀ i < laneCount, ∀ j < laneCount, a.offset i = a.offset j → i = j := by
    intro i hi j hj h
    simp only [Addr.offset, Addr.mk.injEq, UInt32.add_right_inj] at h
    have hlimit : laneCount < UInt32.size := by decide
    have hnat := congrArg UInt32.toNat h
    rwa [UInt32.toNat_ofNat_of_lt' (Nat.lt_trans hi hlimit),
      UInt32.toNat_ofNat_of_lt' (Nat.lt_trans hj hlimit)] at hnat
  refine List.Nodup.map_on (fun i hi j hj => ?_) List.nodup_range
  exact hoffset i (List.mem_range.mp hi) j (List.mem_range.mp hj)

theorem Op.nodup_writes (op : Op) : op.writes.Nodup := by
  cases op with
  | alu op | store op | note text => simp [Op.writes]
  | valu op => cases op <;> exact Addr.nodup_block _
  | load op =>
    cases op with
    | block dest addr => exact Addr.nodup_block dest
    | word | lane | const => simp [Op.writes, LoadOp.writes]
  | flow op =>
    cases op with
    | blockSelect dest cond a b => exact Addr.nodup_block dest
    | select | addImm | halt | pause | trace | jumpIf | jumpByIf | jump | jumpTo | coreId =>
      simp [Op.writes, FlowOp.writes]

theorem nodup_writes_of_spares {ops : List Op} (h : ops.Pairwise Op.Spares) :
    (ops.flatMap Op.writes).Nodup := by
  refine List.nodup_flatMap.mpr ⟨fun op _ => op.nodup_writes, h.imp fun hxy => ?_⟩
  exact fun a hx hy => (hxy a hx).2 hy

/-- The effect of a straight operation, empty where it faults. -/
def Op.wish (v : View) (op : Op) : Effect := (op.effect v {}).toOption.getD { control := {} }

/-- The operation does not fault. -/
def Op.Succeeds (v : View) (op : Op) : Prop := ∃ e, op.effect v {} = .ok e

section Wishes

variable {v : View} {ops xs ys : List Op}

theorem Op.effect_eq_wish {op : Op} (h : op.Succeeds v) : op.effect v {} = .ok (op.wish v) := by
  obtain ⟨e, he⟩ := h
  simp [Op.wish, he, Except.toOption]

theorem Op.mem_wish_eq_nil {op : Op} (h : op.engine ≠ .store) : (op.wish v).mem = [] := by
  have hop : op.writesMemory = false := by cases op <;> first | rfl | exact absurd rfl h
  unfold Op.wish
  cases he : op.effect v {} with
  | error fault => rfl
  | ok e => exact Op.mem_effect_eq_nil hop he

theorem Op.trace_wish_eq_empty {op : Op} (h : op.engine ≠ .flow) :
    (op.wish v).control.trace = #[] := by
  unfold Op.wish
  cases he : op.effect v {} with
  | error fault => rfl
  | ok e =>
    cases op with
    | flow op => exact absurd rfl h
    | note text =>
      simp only [Op.effect, pure_eq_ok_iff] at he
      subst he
      rfl
    | alu op | valu op | load op | store op =>
      simp only [Op.effect, bind_eq_ok_iff, pure_eq_ok_iff] at he
      obtain ⟨ws, -, rfl⟩ := he
      rfl

def wishes (v : View) (ops : List Op) : Effect where
  scratch := ops.flatMap fun op => (op.wish v).scratch
  mem := ops.flatMap fun op => (op.wish v).mem
  control := { trace := (ops.flatMap fun op => (op.wish v).control.trace.toList).toArray }

theorem collect_eq_wishes (hops : ∀ op ∈ ops, op.isStraight = true)
    (hok : ∀ op ∈ ops, op.Succeeds v) (e : Effect) :
    collect v ops e = (e.append (wishes v ops), none) := by
  induction ops generalizing e with
  | nil => simp [collect, wishes, Effect.append]
  | cons op rest ih =>
    rw [collect, op.effect_control (hops op List.mem_cons_self),
      Op.effect_eq_wish (hok op List.mem_cons_self)]
    have hrest := ih (fun x hx => hops x (List.mem_cons_of_mem op hx))
      (fun x hx => hok x (List.mem_cons_of_mem op hx))
    have htrace (xs : Array Word) (ys : List Word) :
        xs ++ ys.toArray = (xs.toList ++ ys).toArray := by
      rw [← List.append_toArray, Array.toArray_toList]
    simp only [Except.map, Effect.under, hrest, Effect.append, wishes, List.flatMap_cons,
      List.append_assoc, htrace]

theorem collect_snd_ne_none (hops : ∀ op ∈ ops, op.isStraight = true)
    (hbad : ¬ ∀ op ∈ ops, op.Succeeds v) (e : Effect) : (collect v ops e).2 ≠ none := by
  induction ops generalizing e with
  | nil => simp at hbad
  | cons op rest ih =>
    rw [collect, op.effect_control (hops op List.mem_cons_self)]
    cases he : op.effect v {} with
    | error fault => simp [Except.map]
    | ok f =>
      refine ih (fun x hx => hops x (List.mem_cons_of_mem op hx)) (fun hrest => hbad ?_) _
      intro x hx
      rcases List.mem_cons.mp hx with rfl | hx
      · exact ⟨f, he⟩
      · exact hrest x hx

theorem executeTogether_eq_some_iff {s t : Contents} (hops : ∀ op ∈ ops, op.isStraight = true) :
    executeTogether ops s = some t ↔
      (∀ op ∈ ops, op.Succeeds s.view) ∧ s.commit (wishes s.view ops) = some t := by
  by_cases hok : ∀ op ∈ ops, op.Succeeds s.view
  · have hcollect := collect_eq_wishes hops hok { control := {} }
    have happend : Effect.append { control := {} } (wishes s.view ops) = wishes s.view ops := by
      simp [Effect.append, wishes]
    simp only [executeTogether, hcollect, happend]
    exact (and_iff_right hok).symm
  · have hfault := collect_snd_ne_none hops hok { control := {} }
    unfold executeTogether
    rcases hc : collect s.view ops { control := {} } with ⟨e, fault⟩
    rw [hc] at hfault
    cases fault with
    | none => exact absurd rfl hfault
    | some f => simp [hok]

/-- Operations that see the same contents and write different addresses may change places where
that changes neither the memory writes nor the trace. -/
theorem executeTogether_perm (hperm : xs.Perm ys) (hops : ∀ op ∈ xs, op.isStraight = true)
    (hnodup : (xs.flatMap Op.writes).Nodup) {s : Contents}
    (hmem : (wishes s.view xs).mem = (wishes s.view ys).mem)
    (htrace : (wishes s.view xs).control.trace = (wishes s.view ys).control.trace) :
    executeTogether xs s = executeTogether ys s := by
  have hops' : ∀ op ∈ ys, op.isStraight = true := fun op hop => hops op (hperm.mem_iff.mpr hop)
  have hiff : (∀ op ∈ xs, op.Succeeds s.view) ↔ ∀ op ∈ ys, op.Succeeds s.view :=
    forall_congr' fun op => by rw [hperm.mem_iff]
  have hcommit (hok : ∀ op ∈ xs, op.Succeeds s.view) :
      s.commit (wishes s.view xs) = s.commit (wishes s.view ys) := by
    have hscratch : (wishes s.view xs).scratch.Perm (wishes s.view ys).scratch :=
      hperm.flatMap_right _
    have hkeys : (wishes s.view xs).scratch.map (·.1) = xs.flatMap Op.writes := by
      simpa [Effect.append] using map_fst_collect (collect_eq_wishes hops hok { control := {} })
    by_cases hin : ∀ x ∈ (wishes s.view xs).scratch, x.1.toNat < s.scratch.size
    · rw [Contents.commit_eq_some_iff.mpr ⟨hin, rfl⟩, eq_comm, Contents.commit_eq_some_iff]
      refine ⟨fun x hx => hin x (hscratch.mem_iff.mpr hx), ?_⟩
      rw [Scratch.write_perm hscratch (hkeys ▸ hnodup) hin, hmem, htrace]
    · rw [Contents.commit_eq_none_iff.mpr hin, eq_comm, Contents.commit_eq_none_iff]
      exact fun h => hin fun x hx => h x (hscratch.mem_iff.mp hx)
  apply Option.ext
  intro t
  rw [executeTogether_eq_some_iff hops, executeTogether_eq_some_iff hops', ← hiff]
  exact and_congr_right fun hok => by rw [hcommit hok]

/-- A part of every operation's wish that only one engine asks for keeps its order when each
engine's operations do. -/
theorem flatMap_eq_of_filter_eq {α : Type} {f : Op → List α} {engine : Engine}
    (hf : ∀ op, op.engine ≠ engine → f op = [])
    (h : xs.filter (fun op => op.engine = engine) = ys.filter (fun op => op.engine = engine)) :
    xs.flatMap f = ys.flatMap f := by
  have hfilter (zs : List Op) :
      (zs.filter fun op => op.engine = engine).flatMap f = zs.flatMap f := by
    induction zs with
    | nil => rfl
    | cons z zs ih =>
      by_cases hz : z.engine = engine
      · simp [hz, ih]
      · simp [hz, ih, hf z hz]
  rw [← hfilter xs, h, hfilter ys]

theorem executeTogether_regroup (hperm : xs.Perm ys) (hops : ∀ op ∈ xs, op.isStraight = true)
    (hnodup : (xs.flatMap Op.writes).Nodup)
    (horder : ∀ e, xs.filter (fun op => op.engine = e) = ys.filter fun op => op.engine = e)
    (s : Contents) : executeTogether xs s = executeTogether ys s := by
  refine executeTogether_perm hperm hops hnodup ?_ (congrArg List.toArray ?_)
  · exact flatMap_eq_of_filter_eq (fun op h => Op.mem_wish_eq_nil h) (horder .store)
  · exact flatMap_eq_of_filter_eq (fun op h => by rw [Op.trace_wish_eq_empty h]) (horder .flow)

theorem executeTogether_filter_isNote (ops : List Op) (s : Contents) :
    executeTogether (ops.filter fun op => !op.isNote) s = executeTogether ops s := by
  have hcollect (e : Effect) :
      collect s.view (ops.filter fun op => !op.isNote) e = collect s.view ops e := by
    induction ops generalizing e with
    | nil => rfl
    | cons op rest ih =>
      cases op with
      | note text => simpa [collect, Op.isNote, Op.effect, pure, Except.pure] using ih e
      | alu | valu | load | store | flow =>
        simp only [List.filter_cons, Op.isNote, Bool.not_false, if_true, collect]
        split <;> first | rfl | exact ih _
  unfold executeTogether
  rw [hcollect]

end Wishes

/-! ## Operations that commute -/

/-- Whether the operation only replaces scratch words. -/
def Op.isQuiet : Op → Bool
  | alu _ | valu _ | load _ => true
  | store _ | flow _ | note _ => false

theorem Op.isStraight_of_isQuiet {op : Op} (h : op.isQuiet = true) : op.isStraight = true := by
  cases op <;> first | rfl | cases h

theorem Op.writesMemory_of_isQuiet {op : Op} (h : op.isQuiet = true) : op.writesMemory = false := by
  cases op <;> first | rfl | cases h

def Commutes (x y : Op) : Prop := ∀ s, execute [x, y] s = execute [y, x] s

theorem Commutes.symm {x y : Op} (h : Commutes x y) : Commutes y x := fun s => (h s).symm

/-- Quiet operations commute if neither writes an address that the other one touches. -/
theorem Commutes.of_spares {x y : Op} (hx : x.isQuiet = true) (hy : y.isQuiet = true)
    (hfx : x.Fits) (hfy : y.Fits) (hxy : x.Spares y) (hyx : y.Spares x) : Commutes x y := by
  have hquiet {z : Op} (hz : z ∈ [x, y]) : z.isQuiet = true ∧ z.Fits := by
    rcases List.mem_pair.mp hz with rfl | rfl
    · exact ⟨hx, hfx⟩
    · exact ⟨hy, hfy⟩
  have hengine {z : Op} (hz : z.isQuiet = true) : z.engine ≠ .store ∧ z.engine ≠ .flow := by
    cases z <;> first | exact ⟨Engine.noConfusion, Engine.noConfusion⟩ | cases hz
  have htogether {a b : Op} (ha : a ∈ [x, y]) (hb : b ∈ [x, y]) (hab : a.Spares b)
      (s : Contents) : executeTogether [a, b] s = execute [a, b] s := by
    refine executeTogether_eq_execute (fun z hz => ?_) (fun z hz => ?_) ⟨?_, ?_⟩ s
    · rcases List.mem_pair.mp hz with rfl | rfl
      · exact Op.isStraight_of_isQuiet (hquiet ha).1
      · exact Op.isStraight_of_isQuiet (hquiet hb).1
    · rcases List.mem_pair.mp hz with rfl | rfl
      · exact (hquiet ha).2
      · exact (hquiet hb).2
    · simpa using hab
    · simp [Op.writesMemory_of_isQuiet (hquiet ha).1]
  intro s
  rw [← htogether (by simp) (by simp) hxy, ← htogether (by simp) (by simp) hyx]
  refine executeTogether_perm (List.Perm.swap y x []) (fun z hz => ?_) ?_ ?_ ?_
  · exact Op.isStraight_of_isQuiet (hquiet hz).1
  · exact nodup_writes_of_spares (by simpa using hxy)
  · simp [wishes, Op.mem_wish_eq_nil (hengine hx).1, Op.mem_wish_eq_nil (hengine hy).1]
  · simp [wishes, Op.trace_wish_eq_empty (hengine hx).2, Op.trace_wish_eq_empty (hengine hy).2]

end TreeWalk
