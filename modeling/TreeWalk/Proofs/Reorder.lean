import TreeWalk.Proofs.DefinedUse
import TreeWalk.Proofs.IssueOrder

/-!
# Reordering code

Two lists of operations run the same if they lead from every contents to the same contents or
fault together. For this relation, and for every other one that carries over to code put together
from its pieces, parts that may be exchanged may be gathered: the parts of several threads that are
carried out in turn come thread by thread.
-/

namespace TreeWalk

/-- The lists lead from every contents to the same contents, or both fault. -/
def SameRun (xs ys : List Op) : Prop := ∀ s, execute xs s = execute ys s

theorem SameRun.append {xs ys xs' ys' : List Op} (h : SameRun xs ys) (h' : SameRun xs' ys') :
    SameRun (xs ++ xs') (ys ++ ys') := by
  intro s
  rw [execute_append, execute_append, h s]
  exact Option.bind_congr fun t _ => h' t

/-! ## Relations between pieces of code -/

/-- A relation between pieces of code that carries over to code put together from them. -/
structure Composes (R : List Op → List Op → Prop) : Prop where
  refl : ∀ xs, R xs xs
  trans : ∀ {xs ys zs}, R xs ys → R ys zs → R xs zs
  append : ∀ {xs ys xs' ys'}, R xs ys → R xs' ys' → R (xs ++ xs') (ys ++ ys')

namespace Composes

variable {R : List Op → List Op → Prop} {α β : Type} {xs ys zs : List Op} {ms : List α}

theorem sameRun : Composes SameRun :=
  ⟨fun _ _ => rfl, fun h h' s => (h s).trans (h' s), SameRun.append⟩

theorem perm : Composes List.Perm := ⟨List.Perm.refl, List.Perm.trans, List.Perm.append⟩

theorem filter (c : Op → Bool) : Composes fun xs ys => xs.filter c = ys.filter c := by
  refine ⟨fun _ => rfl, Eq.trans, fun h h' => ?_⟩
  rw [List.filter_append, List.filter_append, h, h']

theorem of_eq (hR : Composes R) (h : xs = ys) : R xs ys := h ▸ hR.refl xs

theorem append_left (hR : Composes R) (xs : List Op) (h : R ys zs) : R (xs ++ ys) (xs ++ zs) :=
  hR.append (hR.refl xs) h

theorem append_right (hR : Composes R) (zs : List Op) (h : R xs ys) : R (xs ++ zs) (ys ++ zs) :=
  hR.append h (hR.refl zs)

theorem flatMap (hR : Composes R) {f g : α → List Op} (h : ∀ m ∈ ms, R (f m) (g m)) :
    R (ms.flatMap f) (ms.flatMap g) := by
  induction ms with
  | nil => exact hR.refl []
  | cons m rest ih =>
    rw [List.flatMap_cons, List.flatMap_cons]
    exact hR.append (h m List.mem_cons_self) (ih fun n hn => h n (List.mem_cons_of_mem m hn))

theorem wait (hR : Composes R) {y : Op} (h : ∀ x ∈ xs, R [y, x] [x, y]) :
    R (y :: xs) (xs ++ [y]) := by
  induction xs with
  | nil => exact hR.refl [y]
  | cons x rest ih =>
    have hxy : R ([y, x] ++ rest) ([x, y] ++ rest) :=
      hR.append_right rest (h x List.mem_cons_self)
    have hrest : R (y :: rest) (rest ++ [y]) := ih fun z hz => h z (List.mem_cons_of_mem x hz)
    exact hR.trans hxy (hR.append_left [x] hrest)

theorem swap (hR : Composes R) (h : ∀ x ∈ xs, ∀ y ∈ ys, R [y, x] [x, y]) :
    R (ys ++ xs) (xs ++ ys) := by
  induction ys with
  | nil => exact hR.of_eq (by simp)
  | cons y rest ih =>
    have hrest : R (rest ++ xs) (xs ++ rest) :=
      ih fun x hx z hz => h x hx z (List.mem_cons_of_mem y hz)
    have hwait : R (y :: xs ++ rest) (xs ++ [y] ++ rest) :=
      hR.append_right rest (hR.wait fun x hx => h x hx y List.mem_cons_self)
    refine hR.trans (hR.append_left [y] hrest) (hR.trans hwait (hR.of_eq ?_))
    simp

/-- Two parts of each of several threads, first all first parts and then all second parts, are
gathered thread by thread. -/
theorem merge (hR : Composes R) {f g : α → List Op}
    (h : ms.Pairwise fun m n => ∀ x ∈ g m, ∀ y ∈ f n, R [y, x] [x, y]) :
    R (ms.flatMap f ++ ms.flatMap g) (ms.flatMap fun m => f m ++ g m) := by
  induction ms with
  | nil => exact hR.refl []
  | cons m rest ih =>
    obtain ⟨hm, hrest⟩ := List.pairwise_cons.mp h
    have hswap : R (rest.flatMap f ++ g m) (g m ++ rest.flatMap f) := by
      apply hR.swap
      intro x hx y hy
      obtain ⟨n, hn, hy⟩ := List.mem_flatMap.mp hy
      exact hm n hn x hx y hy
    have hfirst : R (f m ++ rest.flatMap f ++ (g m ++ rest.flatMap g))
        (f m ++ ((g m ++ rest.flatMap f) ++ rest.flatMap g)) := by
      rw [List.append_assoc, ← List.append_assoc (rest.flatMap f)]
      exact hR.append_left _ (hR.append_right _ hswap)
    have hothers : R (f m ++ ((g m ++ rest.flatMap f) ++ rest.flatMap g))
        (f m ++ g m ++ rest.flatMap fun n => f n ++ g n) := by
      rw [List.append_assoc, ← List.append_assoc]
      exact hR.append_left _ (ih hrest)
    exact hR.trans hfirst hothers

theorem exchange (hR : Composes R) {phases : List β} {f : β → α → List Op}
    (h : ms.Pairwise fun m n =>
      ∀ x ∈ phases.flatMap (f · m), ∀ y ∈ phases.flatMap (f · n), R [y, x] [x, y]) :
    R (phases.flatMap fun i => ms.flatMap (f i)) (ms.flatMap fun m => phases.flatMap (f · m)) := by
  induction phases with
  | nil => exact hR.of_eq (by simp)
  | cons i rest ih =>
    simp only [List.flatMap_cons] at h ⊢
    have hrest := ih (h.imp fun hmn x hx y hy =>
      hmn x (List.mem_append_right _ hx) y (List.mem_append_right _ hy))
    refine hR.trans (hR.append_left _ hrest) (hR.merge (h.imp fun hmn x hx y hy => ?_))
    exact hmn x (List.mem_append_right _ hx) y (List.mem_append_left _ hy)

/-- What two threads carry out in turn is the first thread and then the second. -/
theorem woven (hR : Composes R) (hwoven : Woven xs ys zs)
    (h : ∀ x ∈ xs, ∀ y ∈ ys, R [y, x] [x, y]) : R zs (xs ++ ys) := by
  induction hwoven with
  | nil => exact hR.refl []
  | left op _ ih =>
    exact hR.append_left [op] (ih fun x hx => h x (List.mem_cons_of_mem op hx))
  | @right xs ys zs op _ ih =>
    have hzs : R zs (xs ++ ys) := ih fun x hx y hy => h x hx y (List.mem_cons_of_mem op hy)
    have hwait : R (op :: xs ++ ys) (xs ++ [op] ++ ys) :=
      hR.append_right ys (hR.wait fun x hx => h x hx op List.mem_cons_self)
    refine hR.trans (hR.append_left [op] hzs) (hR.trans hwait (hR.of_eq ?_))
    simp

end Composes

end TreeWalk
