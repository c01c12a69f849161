import Mathlib.Algebra.GroupWithZero.Nat
import Mathlib.Logic.Basic
import TreeWalk.Machine.Core

/-!
# Applying scratch writes

What is left of a list of writes at one address is the last write to it, or the old word where
there is none. Lists of writes to different addresses may therefore be applied in either order.
-/

namespace TreeWalk

namespace Scratch

def Touches (writes : List (Addr × Word)) (i : Nat) : Prop := ∃ x ∈ writes, x.1.toNat = i

theorem write_cons_of_lt {a : Addr} {w : Word} {rest : List (Addr × Word)}
    {scratch : Array Word} (h : a.toNat < scratch.size) :
    write ((a, w) :: rest) scratch = write rest (scratch.set a.toNat w h) := by
  simp [write, h]

theorem write_snd_eq_none_iff {writes : List (Addr × Word)} {scratch : Array Word} :
    (write writes scratch).2 = none ↔ ∀ x ∈ writes, x.1.toNat < scratch.size := by
  induction writes generalizing scratch with
  | nil => simp [write]
  | cons x rest ih =>
    by_cases h : x.1.toNat < scratch.size
    · rw [write_cons_of_lt h, ih]
      simp [h]
    · simp [write, h]

theorem write_snd_congr {writes : List (Addr × Word)} {s t : Array Word}
    (h : s.size = t.size) : (write writes s).2 = (write writes t).2 := by
  induction writes generalizing s t with
  | nil => rfl
  | cons x rest ih =>
    by_cases hx : x.1.toNat < s.size
    · rw [write_cons_of_lt hx, write_cons_of_lt (h ▸ hx)]
      exact ih (by simp [h])
    · simp [write, ← h, hx]

theorem write_append (xs ys : List (Addr × Word)) (scratch : Array Word)
    (h : ∀ x ∈ xs, x.1.toNat < scratch.size) :
    write (xs ++ ys) scratch = write ys (write xs scratch).1 := by
  induction xs generalizing scratch with
  | nil => rfl
  | cons x rest ih =>
    have hx : x.1.toNat < scratch.size := h x List.mem_cons_self
    rw [List.cons_append, write_cons_of_lt hx, write_cons_of_lt hx, ih]
    intro y hy
    simpa using h y (List.mem_cons_of_mem x hy)

theorem getElem?_write_of_not_touches {writes : List (Addr × Word)} {i : Nat}
    (h : ¬ Touches writes i) (scratch : Array Word) :
    (write writes scratch).1[i]? = scratch[i]? := by
  induction writes generalizing scratch with
  | nil => rfl
  | cons x rest ih =>
    have hx : x.1.toNat ≠ i := fun hx => h ⟨x, List.mem_cons_self, hx⟩
    have hrest : ¬ Touches rest i := fun ⟨y, hy, hi⟩ => h ⟨y, List.mem_cons_of_mem x hy, hi⟩
    simp only [write]
    split
    · rw [ih hrest, Array.getElem?_set_ne _ hx]
    · rfl

/-- At a touched address the old words do not matter. -/
theorem getElem?_write_congr {writes : List (Addr × Word)} {i : Nat} (h : Touches writes i)
    {s t : Array Word} (hsize : s.size = t.size) (hs : (write writes s).2 = none) :
    (write writes s).1[i]? = (write writes t).1[i]? := by
  induction writes generalizing s t with
  | nil => obtain ⟨x, hx, -⟩ := h; simp at hx
  | cons x rest ih =>
    have hx : x.1.toNat < s.size := write_snd_eq_none_iff.mp hs x List.mem_cons_self
    rw [write_cons_of_lt hx] at hs ⊢
    rw [write_cons_of_lt (hsize ▸ hx)]
    by_cases hrest : Touches rest i
    · exact ih hrest (by simp [hsize]) hs
    · have hi : x.1.toNat = i := by
        obtain ⟨y, hy, hi⟩ := h
        rcases List.mem_cons.mp hy with rfl | hy
        · exact hi
        · exact absurd ⟨y, hy, hi⟩ hrest
      subst hi
      rw [getElem?_write_of_not_touches hrest, getElem?_write_of_not_touches hrest]
      simp [hx, hsize ▸ hx]

/-- Writes that break off have been made up to the first that is out of bounds. -/
theorem exists_made_of_write_fault {writes : List (Addr × Word)} {scratch : Array Word}
    {fault : Fault} (h : (write writes scratch).2 = some fault) :
    ∃ made a w rest, writes = made ++ (a, w) :: rest ∧
      (∀ x ∈ made, x.1.toNat < scratch.size) ∧ scratch.size ≤ a.toNat ∧
      fault = .scratchOutOfBounds a.toNat scratch.size ∧
      (write writes scratch).1 = (write made scratch).1 := by
  induction writes generalizing scratch with
  | nil => cases h
  | cons x rest ih =>
    obtain ⟨a, w⟩ := x
    by_cases hx : a.toNat < scratch.size
    · rw [write_cons_of_lt hx] at h
      obtain ⟨made, b, v, rest', rfl, hmade, hb, hfault, hwrite⟩ := ih h
      rw [Array.size_set] at hmade hb hfault
      refine ⟨(a, w) :: made, b, v, rest', rfl, List.forall_mem_cons.mpr ⟨hx, hmade⟩, hb, hfault,
        ?_⟩
      rw [write_cons_of_lt hx, write_cons_of_lt hx, hwrite]
    · simp only [write, hx, dif_neg, not_false_eq_true, Option.some.injEq] at h ⊢
      exact ⟨[], a, w, rest, rfl, by simp, Nat.le_of_not_lt hx, h.symm, rfl⟩

theorem getElem?_write_singleton {a : Addr} {w : Word} {scratch : Array Word}
    (h : a.toNat < scratch.size) (i : Nat) :
    (write [(a, w)] scratch).1[i]? = if a.toNat = i then some w else scratch[i]? := by
  rw [write_cons_of_lt h]
  simp only [write, Array.getElem?_set]

theorem getElem?_write_of_mem {writes : List (Addr × Word)} {scratch : Array Word}
    (hnodup : (writes.map (·.1)).Nodup) (h : ∀ x ∈ writes, x.1.toNat < scratch.size) {a : Addr}
    {w : Word} (hx : (a, w) ∈ writes) : (write writes scratch).1[a.toNat]? = some w := by
  induction writes generalizing scratch with
  | nil => simp at hx
  | cons x rest ih =>
    obtain ⟨hhead, htail⟩ := List.nodup_cons.mp hnodup
    have hlt : x.1.toNat < scratch.size := h x List.mem_cons_self
    rw [write_cons_of_lt hlt]
    rcases List.mem_cons.mp hx with rfl | hrest
    · have hnot : ¬ Touches rest a.toNat := by
        rintro ⟨y, hy, hya⟩
        exact hhead (List.mem_map.mpr ⟨y, hy, Addr.toNat_injective hya⟩)
      rw [getElem?_write_of_not_touches hnot]
      simp [hlt]
    · exact ih htail (fun y hy => by simpa using h y (List.mem_cons_of_mem x hy)) hrest

end Scratch

end TreeWalk
