import Mathlib.Data.List.Induction
import TreeWalk.Proofs.Collected

/-!
# Straight-line code

Operations that neither halt, pause nor jump only change a core's scratch and trace and the
memory. `execute` carries them out one after the other; `executeTogether` lets all of them see the
contents as they are at the start, as the operations of one bundle do.
-/

namespace TreeWalk

/-- What straight-line code works on: a core's scratch and trace, and the memory. -/
structure Contents where
  id : Nat
  scratch : Array Word
  mem : Array Word
  trace : Array Word := #[]
  deriving DecidableEq, Repr

def FlowOp.isStraight : FlowOp → Bool
  | .halt | .pause | .jumpIf .. | .jumpByIf .. | .jump _ | .jumpTo _ => false
  | .select .. | .addImm .. | .blockSelect .. | .trace _ | .coreId _ => true

namespace Op

def isStraight : Op → Bool
  | flow op => op.isStraight
  | _ => true

/-- Whether the operation changes a memory word. -/
def writesMemory : Op → Bool
  | store _ => true
  | _ => false

end Op

namespace Contents

/-- What operations see of the contents. The number of the bundle shows in faults only. -/
def view (s : Contents) : View := ⟨s.id, s.scratch, s.mem, 0, true⟩

def commit (s : Contents) (e : Effect) : Option Contents :=
  match Scratch.write e.scratch s.scratch with
  | (scratch, none) => some ⟨s.id, scratch, Memory.write e.mem s.mem, s.trace ++ e.control.trace⟩
  | (_, some _) => none

end Contents

def Op.execute (op : Op) (s : Contents) : Option Contents :=
  match op.effect s.view {} with
  | .ok e => s.commit e
  | .error _ => none

def execute : List Op → Contents → Option Contents
  | [], s => some s
  | op :: rest, s => (op.execute s).bind (execute rest)

/-- Carry out operations that all see the same contents, unless one faults. -/
def executeTogether (ops : List Op) (s : Contents) : Option Contents :=
  match collect s.view ops { control := {} } with
  | (e, none) => s.commit e
  | (_, some _) => none

theorem execute_append (xs ys : List Op) (s : Contents) :
    execute (xs ++ ys) s = (execute xs s).bind (execute ys) := by
  induction xs generalizing s with
  | nil => rfl
  | cons x xs ih =>
    simp only [List.cons_append, execute, Option.bind_assoc]
    exact Option.bind_congr fun t _ => ih t

theorem execute_singleton (op : Op) (s : Contents) : execute [op] s = op.execute s := by
  simp [execute]

/-! ## Effects of straight operations -/

theorem toOption_bind {ε α β : Type} (x : Except ε α) (f : α → Except ε β) :
    (x >>= f).toOption = x.toOption.bind fun a => (f a).toOption := by
  cases x <;> rfl

section Effects

variable {v w : View}

theorem toOption_compute (code : Opcode) (x y : Word) :
    (v.compute code x y).toOption = code.apply x y := by
  unfold View.compute
  cases code.apply x y <;> rfl

theorem toOption_computeLanes (v w : View) (code : Opcode) (xs ys : List Word) :
    (computeLanes v code xs ys).toOption = (computeLanes w code xs ys).toOption := by
  induction xs generalizing ys with
  | nil => rfl
  | cons x xs ih =>
    cases ys with
    | nil => rfl
    | cons y ys => simp only [computeLanes, toOption_bind, toOption_compute, ih]

/-- The number of the bundle and the treatment of `pause` show in the faults of straight
operations only. -/
theorem Op.toOption_effect_congr {op : Op} (hop : op.isStraight = true)
    (hid : v.coreId = w.coreId) (hscratch : v.scratch = w.scratch) (hmem : v.mem = w.mem)
    (c : Control) : (op.effect v c).toOption = (op.effect w c).toOption := by
  have hread (a : Addr) : v.read a = w.read a := by simp only [View.read, hscratch]
  have hblock (a : Addr) : v.readBlock a = w.readBlock a := by
    simp only [View.readBlock, hscratch]
  cases op with
  | note text => rfl
  | alu op =>
    simp only [Op.effect, ScalarOp.writesIn, toOption_bind, hread, toOption_compute]
  | valu op =>
    cases op with
    | broadcast | multiplyAdd => simp only [Op.effect, VectorOp.writesIn, hread, hblock]
    | binary code dest a b =>
      simp only [Op.effect, VectorOp.writesIn, toOption_bind, hblock,
        toOption_computeLanes v w code]
  | load op => cases op <;> simp only [Op.effect, LoadOp.writesIn, hread, hmem]
  | store op => cases op <;> simp only [Op.effect, StoreOp.writesIn, hread, hblock, hmem]
  | flow op =>
    cases op with
    | halt | pause | jumpIf | jumpByIf | jump | jumpTo => cases hop
    | select | addImm | blockSelect | trace | coreId =>
      simp only [Op.effect, FlowOp.effect, hread, hblock, hid]

theorem map_bind {ε α β γ : Type} (x : Except ε α) (f : α → Except ε β) (g : β → γ) :
    (x >>= f).map g = x >>= fun a => (f a).map g := by
  cases x <;> rfl

/-- The effect on top of a control state, of which it keeps all but the trace. -/
def Effect.under (e : Effect) (c : Control) : Effect :=
  { e with control := { c with trace := c.trace ++ e.control.trace } }

theorem Op.effect_control {op : Op} (hop : op.isStraight = true) (v : View) (c : Control) :
    op.effect v c = (op.effect v {}).map (·.under c) := by
  cases op with
  | note text => rfl
  | alu op | valu op | load op | store op =>
    simp only [Op.effect, map_bind]
    rfl
  | flow op =>
    cases op with
    | halt | pause | jumpIf | jumpByIf | jump | jumpTo => cases hop
    | coreId => rfl
    | select | addImm | blockSelect | trace =>
      simp only [Op.effect, FlowOp.effect, map_bind]
      rfl

theorem collect_under {ops : List Op} (hops : ∀ op ∈ ops, op.isStraight = true)
    (hid : v.coreId = w.coreId) (hscratch : v.scratch = w.scratch) (hmem : v.mem = w.mem)
    (c : Control) (e : Effect) :
    (∀ e', collect w ops e = (e', none) → collect v ops (e.under c) = (e'.under c, none)) ∧
      ((collect w ops e).2 ≠ none → (collect v ops (e.under c)).2 ≠ none) := by
  induction ops generalizing e with
  | nil => exact ⟨fun e' h => by cases h; rfl, id⟩
  | cons op rest ih =>
    have hop := hops op List.mem_cons_self
    have hsame := op.toOption_effect_congr hop hid hscratch hmem {}
    simp only [collect, op.effect_control hop v (e.under c).control,
      op.effect_control hop w e.control]
    cases hv : op.effect v {} with
    | error f =>
      cases hw : op.effect w {} with
      | error f' => exact ⟨fun e' h => by simp [Except.map] at h, fun _ => by simp [Except.map]⟩
      | ok f' => simp [hv, hw, Except.toOption] at hsame
    | ok f =>
      cases hw : op.effect w {} with
      | error f' => simp [hv, hw, Except.toOption] at hsame
      | ok f' =>
        obtain rfl : f = f' := by simpa [hv, hw, Except.toOption] using hsame
        have hnext := ih (fun x hx => hops x (List.mem_cons_of_mem op hx))
          { scratch := e.scratch ++ f.scratch, mem := e.mem ++ f.mem,
            control := (f.under e.control).control }
        simpa [Except.map, Effect.under, Array.append_assoc] using hnext

end Effects

/-! ## Committing effects -/

def Effect.append (e f : Effect) : Effect where
  scratch := e.scratch ++ f.scratch
  mem := e.mem ++ f.mem
  control := { e.control with trace := e.control.trace ++ f.control.trace }

theorem Memory.write_append (xs ys : List (Nat × Word)) (mem : Array Word) :
    Memory.write (xs ++ ys) mem = Memory.write ys (Memory.write xs mem) := by
  simp [Memory.write, List.foldl_append]

namespace Contents

variable {s t : Contents} {e f : Effect}

theorem commit_eq_some_iff :
    s.commit e = some t ↔
      (∀ x ∈ e.scratch, x.1.toNat < s.scratch.size) ∧
        t = ⟨s.id, (Scratch.write e.scratch s.scratch).1, Memory.write e.mem s.mem,
          s.trace ++ e.control.trace⟩ := by
  rw [← Scratch.write_snd_eq_none_iff]
  unfold commit
  rcases Scratch.write e.scratch s.scratch with ⟨scratch, fault⟩
  cases fault <;> simp [eq_comm]

theorem commit_eq_none_iff :
    s.commit e = none ↔ ¬ ∀ x ∈ e.scratch, x.1.toNat < s.scratch.size := by
  rw [← Scratch.write_snd_eq_none_iff]
  unfold commit
  rcases Scratch.write e.scratch s.scratch with ⟨scratch, fault⟩
  cases fault <;> simp

theorem commit_append (s : Contents) (e f : Effect) :
    s.commit (e.append f) = (s.commit e).bind (·.commit f) := by
  by_cases he : ∀ x ∈ e.scratch, x.1.toNat < s.scratch.size
  · rw [commit_eq_some_iff.mpr ⟨he, rfl⟩, Option.bind_some]
    unfold commit
    simp only [Effect.append, Scratch.write_append _ _ _ he, Memory.write_append,
      Array.append_assoc]
  · rw [commit_eq_none_iff.mpr he, Option.bind_none, commit_eq_none_iff]
    intro h
    exact he fun x hx => h x (List.mem_append_left _ hx)

theorem commit_frame (h : s.commit e = some t) :
    t.id = s.id ∧ t.scratch.size = s.scratch.size ∧ t.mem.size = s.mem.size ∧
      ∀ i, ¬ Scratch.Touches e.scratch i → t.scratch[i]? = s.scratch[i]? := by
  obtain ⟨-, rfl⟩ := commit_eq_some_iff.mp h
  exact ⟨rfl, Scratch.size_write _ _, Memory.size_write _ _,
    fun i hi => Scratch.getElem?_write_of_not_touches hi _⟩

end Contents

/-! ## Operations of a run see the contents at its start -/

/-- The operation writes no address that the other one touches. -/
def Op.Spares (x y : Op) : Prop := ∀ a ∈ x.writes, a ∉ y.reads ∧ a ∉ y.writes

theorem Op.mem_effect_eq_nil {op : Op} (hop : op.writesMemory = false) {v : View} {c : Control}
    {e : Effect} (h : op.effect v c = .ok e) : e.mem = [] := by
  cases op with
  | store op => cases hop
  | note text =>
    simp only [Op.effect, pure_eq_ok_iff] at h
    subst h
    rfl
  | alu op | valu op | load op =>
    simp only [Op.effect, bind_eq_ok_iff, pure_eq_ok_iff] at h
    obtain ⟨ws, -, rfl⟩ := h
    rfl
  | flow op =>
    cases op with
    | jumpIf | jumpByIf =>
      simp only [Op.effect, FlowOp.effect, bind_eq_ok_iff] at h
      obtain ⟨choice, -, h⟩ := h
      split at h
      all_goals
        simp only [bind_eq_ok_iff, pure_eq_ok_iff] at h
        obtain ⟨control, -, rfl⟩ := h
        rfl
    | select | addImm | blockSelect | trace | jumpTo | halt | pause | jump | coreId =>
      simp only [Op.effect, FlowOp.effect, bind_eq_ok_iff, pure_eq_ok_iff] at h
      grind

theorem mem_collect_eq_nil {ops : List Op} (hops : ∀ op ∈ ops, op.writesMemory = false)
    {v : View} {e e' : Effect} (h : collect v ops e = (e', none)) : e'.mem = e.mem := by
  induction ops generalizing e with
  | nil => cases h; rfl
  | cons op rest ih =>
    simp only [collect] at h
    split at h
    · cases h
    · rename_i next hn
      rw [ih (fun x hx => hops x (List.mem_cons_of_mem op hx)) h,
        Op.mem_effect_eq_nil (hops op List.mem_cons_self) hn, List.append_nil]

theorem collect_snoc {ops : List Op} {op : Op} (hop : op.isStraight = true) (v : View)
    (e : Effect) :
    collect v (ops ++ [op]) e =
      match collect v ops e with
      | (next, none) =>
        match op.effect v {} with
        | .ok f => (next.append f, none)
        | .error fault => (next, some fault)
      | faulted => faulted := by
  rw [collect_append]
  rcases collect v ops e with ⟨next, fault⟩
  cases fault with
  | some f => rfl
  | none =>
    simp only [collect, op.effect_control hop v next.control]
    cases op.effect v {} <;> rfl

/-- An operation whose effect is the same behind the earlier ones may as well see the contents that
those started from. -/
theorem executeTogether_snoc_of_effect_eq {ops : List Op} {op : Op} (hop : op.isStraight = true)
    {s : Contents} (heffect : ∀ e t, collect s.view ops { control := {} } = (e, none) →
      s.commit e = some t → op.effect t.view {} = op.effect s.view {}) :
    executeTogether (ops ++ [op]) s = (executeTogether ops s).bind op.execute := by
  unfold executeTogether
  rw [collect_snoc hop]
  rcases hc : collect s.view ops { control := {} } with ⟨e, fault⟩
  cases fault with
  | some f => rfl
  | none =>
    cases hs : s.commit e with
    | none =>
      simp only [hs, Option.bind_none]
      cases op.effect s.view {} with
      | error fault => rfl
      | ok f => simp only [Contents.commit_append, hs, Option.bind_none]
    | some t =>
      simp only [hs, Option.bind_some, Op.execute, heffect e t hc hs]
      cases op.effect s.view {} with
      | error fault => rfl
      | ok f => simp only [Contents.commit_append, hs, Option.bind_some]

theorem View.agrees_of_collect {ops : List Op} {op : Op} (hspare : ∀ x ∈ ops, x.Spares op)
    {s t : Contents} {e : Effect} (hc : collect s.view ops { control := {} } = (e, none))
    (ht : s.commit e = some t) : t.view.Agrees s.view op.reads := by
  obtain ⟨hid, hsize, -, hword⟩ := Contents.commit_frame ht
  have hkeys : e.scratch.map (·.1) = ops.flatMap Op.writes := by
    simpa using map_fst_collect hc
  refine ⟨hid, rfl, rfl, hsize, fun a ha => hword _ ?_⟩
  rintro ⟨x, hx, hxa⟩
  have hxw : x.1 ∈ ops.flatMap Op.writes := hkeys ▸ List.mem_map_of_mem hx
  obtain ⟨y, hy, hyw⟩ := List.mem_flatMap.mp hxw
  have hax : x.1 = a := Addr.toNat_injective hxa
  exact (hspare y hy x.1 hyw).1 (hax ▸ ha)

/-- An operation that reads nothing the earlier ones write may as well see the contents that
those started from. -/
theorem executeTogether_snoc {ops : List Op} {op : Op} (hop : op.isStraight = true)
    (hfit : op.Fits) (hspare : ∀ x ∈ ops, x.Spares op)
    (hmem : op.readsMemory = true → ∀ x ∈ ops, x.writesMemory = false) (s : Contents) :
    executeTogether (ops ++ [op]) s = (executeTogether ops s).bind op.execute := by
  refine executeTogether_snoc_of_effect_eq hop fun e t hc ht => ?_
  obtain ⟨-, -, hmemsize, -⟩ := Contents.commit_frame ht
  refine Op.effect_congr hfit (View.agrees_of_collect hspare hc ht) hmemsize (fun hr => ?_) {}
  obtain ⟨-, rfl⟩ := Contents.commit_eq_some_iff.mp ht
  have hnil : e.mem = [] := mem_collect_eq_nil (hmem hr) hc
  simp [Contents.view, hnil, Memory.write]

/-- No operation touches an address that an earlier one writes, and no memory word is read behind
a write to memory. -/
structure HazardFree (ops : List Op) : Prop where
  spares : ops.Pairwise Op.Spares
  memory : ops.Pairwise fun x y => x.writesMemory = true → y.readsMemory = false

/-- A list without hazards may be carried out together or one operation after the other. -/
theorem executeTogether_eq_execute {ops : List Op} (hops : ∀ op ∈ ops, op.isStraight = true)
    (hfit : ∀ op ∈ ops, op.Fits) (h : HazardFree ops) (s : Contents) :
    executeTogether ops s = execute ops s := by
  induction ops using List.reverseRecOn with
  | nil => simp [executeTogether, collect, Contents.commit, Scratch.write, Memory.write, execute]
  | append_singleton ops op ih =>
    obtain ⟨hspares, -, hspare⟩ := List.pairwise_append.mp h.spares
    obtain ⟨hmemory, -, hmem⟩ := List.pairwise_append.mp h.memory
    have hop : op ∈ ops ++ [op] := by simp
    have hsub : ∀ x ∈ ops, x ∈ ops ++ [op] := fun x hx => List.mem_append_left _ hx
    rw [executeTogether_snoc (hops op hop) (hfit op hop) (fun x hx => hspare x hx op (by simp)),
      ih (fun x hx => hops x (hsub x hx)) (fun x hx => hfit x (hsub x hx)) ⟨hspares, hmemory⟩,
      execute_append]
    · exact Option.bind_congr fun t _ => (execute_singleton op t).symm
    · intro hr x hx
      by_contra hw
      have := hmem x hx op (by simp) (by simpa using hw)
      simp [hr] at this

end TreeWalk
