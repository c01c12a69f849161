import Mathlib.Data.List.Pairwise
import TreeWalk.Proofs.DraftSteps

/-!
# The code of a constant pool

The pool remembers which constants are materialised and where. The operations that materialise
them are read back from it: one that sets a scalar for each pooled scalar, and one broadcast for
each pooled block, from the scalar of the same value.
-/

namespace TreeWalk

def Op.SetsTo (op : Op) (value : Word) : Prop := ∃ a, op = .const a value

/-- The operation broadcasts a scalar that one of `ops` sets to `value`. -/
def Op.Spreads (ops : List Op) (op : Op) (value : Word) : Prop :=
  ∃ a source, op = .broadcast a source ∧ .const source value ∈ ops

theorem Op.const_inj {a b : Addr} {v w : Word} : Op.const a v = .const b w ↔ a = b ∧ v = w := by
  simp [Op.const]

theorem Op.broadcast_inj {a b source source' : Addr} :
    Op.broadcast a source = .broadcast b source' ↔ a = b ∧ source = source' := by
  simp [Op.broadcast]

theorem Op.const_ne_broadcast {a b source : Addr} {v : Word} :
    Op.const a v ≠ .broadcast b source := by
  simp [Op.const, Op.broadcast]

theorem mem_of_lookup {l : List (Word × Addr)} {value : Word} {a : Addr}
    (h : l.lookup value = some a) : (value, a) ∈ l := by
  obtain ⟨l₁, l₂, heq, -⟩ := List.lookup_eq_some_iff.mp h
  simp [heq]

theorem ne_of_lookup {l : List (Word × Addr)} {value : Word} (h : l.lookup value = none)
    {x : Word × Addr} (hx : x ∈ l) : x.1 ≠ value := by
  have hne := List.lookup_eq_none_iff.mp h x hx
  rintro rfl
  simp at hne

/-- The operations materialise the constants of the pool, each when it enters the pool. -/
inductive PoolCode : ConstPool → List Op → Prop where
  | empty : PoolCode {} []
  | const {pool : ConstPool} {ops : List Op} {value : Word} {a : Addr} :
    PoolCode pool ops → (∀ x ∈ pool.scalars, x.1 ≠ value ∧ x.2 ≠ a) →
      PoolCode { pool with scalars := (value, a) :: pool.scalars } (ops ++ [.const a value])
  | broadcast {pool : ConstPool} {ops : List Op} {value : Word} {a source : Addr} :
    PoolCode pool ops → (∀ x ∈ pool.vectors, x.1 ≠ value) → (value, source) ∈ pool.scalars →
      PoolCode { pool with vectors := (value, a) :: pool.vectors } (ops ++ [.broadcast a source])

namespace PoolCode

variable {pool : ConstPool} {ops : List Op} {v w : Word} {a b source : Addr}

theorem lookup_scalar (h : PoolCode pool ops) (ha : (v, a) ∈ pool.scalars) :
    pool.scalars.lookup v = some a := by
  induction h with
  | empty => cases ha
  | @const pool ops value b _ hnew ih =>
    rcases List.mem_cons.mp ha with heq | ha
    · obtain ⟨rfl, rfl⟩ := Prod.mk.inj heq
      simp
    · have hne : v ≠ value := (hnew _ ha).1
      rw [List.lookup_cons, beq_false_of_ne hne]
      exact ih ha
  | broadcast _ _ _ ih => exact ih ha

theorem lookup_vector (h : PoolCode pool ops) (ha : (v, a) ∈ pool.vectors) :
    pool.vectors.lookup v = some a := by
  induction h with
  | empty => cases ha
  | const _ _ ih => exact ih ha
  | @broadcast pool ops value b _ _ hnew _ ih =>
    rcases List.mem_cons.mp ha with heq | ha
    · obtain ⟨rfl, rfl⟩ := Prod.mk.inj heq
      simp
    · have hne : v ≠ value := hnew _ ha
      rw [List.lookup_cons, beq_false_of_ne hne]
      exact ih ha

theorem value_unique (h : PoolCode pool ops) (hv : (v, a) ∈ pool.scalars)
    (hw : (w, a) ∈ pool.scalars) : v = w := by
  induction h with
  | empty => cases hv
  | @const pool ops value b _ hnew ih =>
    rcases List.mem_cons.mp hv with hveq | hv <;> rcases List.mem_cons.mp hw with hweq | hw
    · exact (Prod.mk.inj hveq).1.trans (Prod.mk.inj hweq).1.symm
    · exact absurd (Prod.mk.inj hveq).2 (hnew _ hw).2
    · exact absurd (Prod.mk.inj hweq).2 (hnew _ hv).2
    · exact ih hv hw
  | broadcast _ _ _ ih => exact ih hv hw

theorem const_mem_iff (h : PoolCode pool ops) : .const a v ∈ ops ↔ (v, a) ∈ pool.scalars := by
  induction h with
  | empty => simp
  | const _ _ ih =>
    rw [List.mem_append, List.mem_singleton, List.mem_cons, ih, Op.const_inj, Prod.mk.injEq,
      or_comm, and_comm]
  | broadcast _ _ _ ih =>
    rw [List.mem_append, List.mem_singleton, ih]
    simp [Op.const_ne_broadcast]

theorem exists_of_broadcast_mem (h : PoolCode pool ops) (hop : .broadcast a source ∈ ops) :
    ∃ v, (v, a) ∈ pool.vectors ∧ (v, source) ∈ pool.scalars := by
  induction h with
  | empty => cases hop
  | const _ _ ih =>
    rcases List.mem_append.mp hop with hop | hlast
    · obtain ⟨v, hvector, hscalar⟩ := ih hop
      exact ⟨v, hvector, List.mem_cons_of_mem _ hscalar⟩
    · exact absurd (List.mem_singleton.mp hlast).symm Op.const_ne_broadcast
  | broadcast _ _ hsource ih =>
    rcases List.mem_append.mp hop with hop | hlast
    · obtain ⟨v, hvector, hscalar⟩ := ih hop
      exact ⟨v, List.mem_cons_of_mem _ hvector, hscalar⟩
    · obtain ⟨rfl, rfl⟩ := Op.broadcast_inj.mp (List.mem_singleton.mp hlast)
      exact ⟨_, List.mem_cons_self, hsource⟩

theorem set_once (h : PoolCode pool ops) :
    ops.Pairwise fun x y => ∀ v, x.SetsTo v → ¬ y.SetsTo v := by
  induction h with
  | empty => exact .nil
  | const h hnew ih =>
    apply pairwise_snoc ih
    rintro x hx v ⟨b, rfl⟩ ⟨c, hc⟩
    obtain ⟨-, rfl⟩ := Op.const_inj.mp hc
    exact (hnew _ (h.const_mem_iff.mp hx)).1 rfl
  | broadcast _ _ _ ih =>
    apply pairwise_snoc ih
    rintro x - v - ⟨c, hc⟩
    exact Op.const_ne_broadcast hc.symm

theorem source_once (h : PoolCode pool ops) :
    ops.Pairwise fun x y => ∀ a b source, x = .broadcast a source → y ≠ .broadcast b source := by
  induction h with
  | empty => exact .nil
  | const _ _ ih =>
    apply pairwise_snoc ih
    intro x _ b c source _
    exact Op.const_ne_broadcast
  | broadcast h hnew hsource ih =>
    apply pairwise_snoc ih
    rintro x hx b c source rfl heq
    obtain ⟨-, rfl⟩ := Op.broadcast_inj.mp heq
    obtain ⟨v, hvector, hscalar⟩ := h.exists_of_broadcast_mem hx
    exact hnew _ hvector (h.value_unique hscalar hsource)

theorem spread_once (h : PoolCode pool ops) :
    ops.Pairwise fun x y => ∀ v, x.Spreads ops v → ¬ y.Spreads ops v := by
  apply h.source_once.imp
  rintro x y hsource v ⟨a, s, hx, hs⟩ ⟨b, s', hy, hs'⟩
  have hfirst := h.lookup_scalar (h.const_mem_iff.mp hs)
  have hsecond := h.lookup_scalar (h.const_mem_iff.mp hs')
  obtain rfl : s = s' := Option.some.inj (hfirst.symm.trans hsecond)
  exact hsource a b s hx hy

theorem set_before_spread (h : PoolCode pool ops) {before : List Op}
    (hbefore : before ++ [.broadcast a source] <+: ops) : ∃ v, .const source v ∈ before := by
  induction h with
  | empty => simp at hbefore
  | const _ _ ih =>
    rcases List.prefix_concat_iff.mp hbefore with heq | hbefore
    · have hlast := (List.append_inj' heq rfl).2
      exact absurd (List.head_eq_of_cons_eq hlast).symm Op.const_ne_broadcast
    · exact ih hbefore
  | broadcast h _ hsource ih =>
    rcases List.prefix_concat_iff.mp hbefore with heq | hbefore
    · obtain ⟨rfl, hlast⟩ := List.append_inj' heq rfl
      obtain ⟨-, rfl⟩ := Op.broadcast_inj.mp (List.head_eq_of_cons_eq hlast)
      exact ⟨_, h.const_mem_iff.mpr hsource⟩
    · exact ih hbefore

end PoolCode

end TreeWalk
