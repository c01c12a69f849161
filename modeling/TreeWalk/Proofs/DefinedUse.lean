import TreeWalk.Op.Access

/-!
# Definition before use

Code is in order if it reads only words that were set before. A word that is set stays set, so code
that carries out several threads in turn is in order as soon as each thread is by itself, whatever
the turns and however the threads overlap.
-/

namespace TreeWalk

def written (ops : List Op) : List Addr := ops.flatMap Op.writes

theorem mem_written {ops : List Op} {a : Addr} : a ∈ written ops ↔ ∃ op ∈ ops, a ∈ op.writes :=
  List.mem_flatMap

@[simp] theorem written_append (xs ys : List Op) : written (xs ++ ys) = written xs ++ written ys :=
  List.flatMap_append

theorem mem_written_of_sublist {xs ys : List Op} (h : xs.Sublist ys) {a : Addr}
    (ha : a ∈ written xs) : a ∈ written ys := by
  obtain ⟨op, hop, ha⟩ := mem_written.mp ha
  exact mem_written.mpr ⟨op, h.subset hop, ha⟩

theorem mem_written_flatMap {α : Type} {f : α → List Op} {xs : List α} {x : α} (hx : x ∈ xs)
    {a : Addr} (ha : a ∈ written (f x)) : a ∈ written (xs.flatMap f) := by
  obtain ⟨op, hop, ha⟩ := mem_written.mp ha
  exact mem_written.mpr ⟨op, List.mem_flatMap.mpr ⟨x, hx, hop⟩, ha⟩

/-- Every operation reads only words that earlier ones have replaced. -/
def DefinesBeforeUse (ops : List Op) : Prop :=
  ∀ before op after, ops = before ++ op :: after → ∀ a ∈ op.reads, a ∈ written before

/-- Every operation reads only `known` words and words that earlier ones have replaced. -/
def UsesDefined (known : Addr → Prop) : List Op → Prop
  | [] => True
  | op :: ops =>
    (∀ a ∈ op.reads, known a) ∧ UsesDefined (fun a => known a ∨ a ∈ op.writes) ops

namespace UsesDefined

variable {known known' : Addr → Prop} {xs ys ops : List Op}

theorem mono (h : UsesDefined known ops) (hsub : ∀ a, known a → known' a) :
    UsesDefined known' ops := by
  induction ops generalizing known known' with
  | nil => trivial
  | cons op ops ih => exact ⟨fun a ha => hsub a (h.1 a ha), ih h.2 fun a => Or.imp_left (hsub a)⟩

theorem append_iff : UsesDefined known (xs ++ ys) ↔
    UsesDefined known xs ∧ UsesDefined (fun a => known a ∨ a ∈ written xs) ys := by
  induction xs generalizing known with
  | nil => simp [UsesDefined, written]
  | cons op xs ih =>
    have hwritten (a : Addr) : (known a ∨ a ∈ op.writes) ∨ a ∈ written xs ↔
        known a ∨ a ∈ written (op :: xs) := by
      rw [or_assoc, written, written, List.flatMap_cons, List.mem_append]
    simp only [List.cons_append, UsesDefined, ih, hwritten, and_assoc]

theorem singleton_iff {op : Op} : UsesDefined known [op] ↔ ∀ a ∈ op.reads, known a :=
  and_iff_left trivial

theorem append (hx : UsesDefined known xs) (hy : UsesDefined known' ys)
    (hsub : ∀ a, known' a → known a ∨ a ∈ written xs) : UsesDefined known (xs ++ ys) :=
  append_iff.mpr ⟨hx, hy.mono hsub⟩

theorem flatMap {α : Type} {f : α → List Op} {ms : List α}
    (h : ∀ m ∈ ms, UsesDefined known (f m)) : UsesDefined known (ms.flatMap f) := by
  induction ms generalizing known with
  | nil => trivial
  | cons m ms ih =>
    rw [List.flatMap_cons, append_iff]
    exact ⟨h m List.mem_cons_self,
      ih fun m' hm' => (h m' (List.mem_cons_of_mem m hm')).mono fun _ => Or.inl⟩

theorem of_reads_known (h : ∀ op ∈ ops, ∀ a ∈ op.reads, known a) : UsesDefined known ops := by
  rw [← List.flatMap_singleton' ops]
  exact flatMap fun op hop => singleton_iff.mpr (h op hop)

/-- Threads that take turns phase by phase. -/
theorem exchange {α β : Type} {f : β → α → List Op} {phases : List β} {ms : List α}
    (h : ∀ m ∈ ms, UsesDefined known (phases.flatMap (f · m))) :
    UsesDefined known (phases.flatMap fun i => ms.flatMap (f i)) := by
  induction phases generalizing known with
  | nil => trivial
  | cons i phases ih =>
    rw [List.flatMap_cons, append_iff]
    refine ⟨flatMap fun m hm => (append_iff.mp (h m hm)).1, ih fun m hm => ?_⟩
    exact (append_iff.mp (h m hm)).2.mono fun a =>
      Or.imp_right (mem_written_flatMap hm)

theorem flatMap_range {step : Nat → List Op} (carried : Nat → Addr → Prop) {n : Nat}
    (hstep : ∀ k < n, UsesDefined (fun a => known a ∨ carried k a) (step k))
    (hfirst : ∀ a, carried 0 a → known a)
    (hnext : ∀ k < n, ∀ a, carried (k + 1) a → a ∈ written (step k)) :
    UsesDefined known ((List.range n).flatMap step) := by
  induction n with
  | zero => trivial
  | succ n ih =>
    rw [List.range_succ, List.flatMap_append, List.flatMap_singleton]
    refine (ih (fun k hk => hstep k (by omega)) fun k hk => hnext k (by omega)).append
      (hstep n (Nat.lt_succ_self n)) fun a ha => ?_
    rcases ha with hknown | hcarried
    · exact .inl hknown
    · cases n with
      | zero => exact .inl (hfirst a hcarried)
      | succ k =>
        have hlast := hnext k (by omega) a hcarried
        exact .inr (mem_written_flatMap (List.mem_range.mpr (Nat.lt_succ_self k)) hlast)

theorem iff_forall_split : UsesDefined known ops ↔
    ∀ before op after, ops = before ++ op :: after →
      ∀ a ∈ op.reads, known a ∨ a ∈ written before := by
  constructor
  · rintro h before op after rfl
    exact (append_iff.mp h).2.1
  · intro h
    induction ops generalizing known with
    | nil => trivial
    | cons op ops ih =>
      refine ⟨fun a ha => ?_, ih fun before x after hsplit a ha => ?_⟩
      · simpa [written] using h [] op ops rfl a ha
      · have hlater := h (op :: before) x after (by rw [hsplit, List.cons_append]) a ha
        rwa [written, List.flatMap_cons, List.mem_append, ← or_assoc] at hlater

end UsesDefined

/-- Code that needs nothing from before defines every word before its use. -/
theorem definesBeforeUse_iff {ops : List Op} :
    DefinesBeforeUse ops ↔ UsesDefined (fun _ => False) ops := by
  simp only [UsesDefined.iff_forall_split, false_or, DefinesBeforeUse]

theorem DefinesBeforeUse.mem_written {ops : List Op} (h : DefinesBeforeUse ops) {op : Op}
    (hop : op ∈ ops) {a : Addr} (ha : a ∈ op.reads) : a ∈ written ops := by
  obtain ⟨before, after, rfl⟩ := List.append_of_mem hop
  exact mem_written_of_sublist (List.sublist_append_left before _) (h before op after rfl a ha)

/-! ## Two threads in turn -/

/-- The third list carries out the first two in turn, each in its own order. -/
inductive Woven : List Op → List Op → List Op → Prop where
  | nil : Woven [] [] []
  | left {xs ys zs : List Op} (op : Op) : Woven xs ys zs → Woven (op :: xs) ys (op :: zs)
  | right {xs ys zs : List Op} (op : Op) : Woven xs ys zs → Woven xs (op :: ys) (op :: zs)

namespace Woven

variable {xs xs' ys ys' zs zs' : List Op}

theorem all_left (xs : List Op) : Woven xs [] xs := by
  induction xs with
  | nil => exact .nil
  | cons op xs ih => exact .left op ih

theorem all_right (ys : List Op) : Woven [] ys ys := by
  induction ys with
  | nil => exact .nil
  | cons op ys ih => exact .right op ih

theorem append (h : Woven xs ys zs) (h' : Woven xs' ys' zs') :
    Woven (xs ++ xs') (ys ++ ys') (zs ++ zs') := by
  induction h with
  | nil => exact h'
  | left op _ ih => exact .left op ih
  | right op _ ih => exact .right op ih

theorem flatMap {α : Type} {f g h : α → List Op} {ms : List α}
    (hms : ∀ m ∈ ms, Woven (f m) (g m) (h m)) :
    Woven (ms.flatMap f) (ms.flatMap g) (ms.flatMap h) := by
  induction ms with
  | nil => exact .nil
  | cons m ms ih =>
    simp only [List.flatMap_cons]
    exact (hms m List.mem_cons_self).append
      (ih fun m' hm' => hms m' (List.mem_cons_of_mem m hm'))

theorem sublist_right (h : Woven xs ys zs) : ys.Sublist zs := by
  induction h with
  | nil => exact .slnil
  | left op _ ih => exact ih.cons op
  | right op _ ih => exact ih.cons_cons op

theorem usesDefined {known : Addr → Prop} (h : Woven xs ys zs) (hx : UsesDefined known xs)
    (hy : UsesDefined known ys) : UsesDefined known zs := by
  induction h generalizing known with
  | nil => trivial
  | left op _ ih => exact ⟨hx.1, ih hx.2 (hy.mono fun _ => Or.inl)⟩
  | right op _ ih => exact ⟨hy.1, ih (hx.mono fun _ => Or.inl) hy.2⟩

end Woven

/-! ## Lane-wise code -/

def UsesBlocks : List Addr → List Op → Prop
  | _, [] => True
  | blocks, .valu (.binary _ dest a b) :: ops =>
    a ∈ blocks ∧ b ∈ blocks ∧ UsesBlocks (dest :: blocks) ops
  | blocks, .valu (.multiplyAdd dest a b c) :: ops =>
    a ∈ blocks ∧ b ∈ blocks ∧ c ∈ blocks ∧ UsesBlocks (dest :: blocks) ops
  | _, _ => False

@[simp] theorem usesBlocks_nil (blocks : List Addr) : UsesBlocks blocks [] := trivial

@[simp] theorem usesBlocks_vector {blocks : List Addr} {code : Opcode} {dest a b : Addr}
    {ops : List Op} : UsesBlocks blocks (.vector code dest a b :: ops) ↔
      a ∈ blocks ∧ b ∈ blocks ∧ UsesBlocks (dest :: blocks) ops := Iff.rfl

@[simp] theorem usesBlocks_multiplyAdd {blocks : List Addr} {dest a b c : Addr} {ops : List Op} :
    UsesBlocks blocks (.multiplyAdd dest a b c :: ops) ↔
      a ∈ blocks ∧ b ∈ blocks ∧ c ∈ blocks ∧ UsesBlocks (dest :: blocks) ops := Iff.rfl

theorem UsesBlocks.usesDefined {known : Addr → Prop} {blocks : List Addr} {ops : List Op}
    (h : UsesBlocks blocks ops) (hknown : ∀ b ∈ blocks, ∀ a ∈ b.block, known a) :
    UsesDefined known ops := by
  have hset {blocks : List Addr} {known : Addr → Prop} {dest : Addr}
      (hknown : ∀ b ∈ blocks, ∀ a ∈ b.block, known a) :
      ∀ b ∈ dest :: blocks, ∀ a ∈ b.block, known a ∨ a ∈ dest.block := by
    intro b hb a ha
    rcases List.mem_cons.mp hb with rfl | hb
    · exact .inr ha
    · exact .inl (hknown b hb a ha)
  induction ops generalizing known blocks with
  | nil => trivial
  | cons op ops ih =>
    match op, h with
    | .valu (.binary code dest a b), ⟨ha, hb, hrest⟩ =>
      refine ⟨fun x hx => ?_, ih hrest (hset hknown)⟩
      rcases List.mem_append.mp hx with hx | hx
      · exact hknown a ha x hx
      · exact hknown b hb x hx
    | .valu (.multiplyAdd dest a b c), ⟨ha, hb, hc, hrest⟩ =>
      refine ⟨fun x hx => ?_, ih hrest (hset hknown)⟩
      rcases List.mem_append.mp hx with hx | hx
      · rcases List.mem_append.mp hx with hx | hx
        · exact hknown a ha x hx
        · exact hknown b hb x hx
      · exact hknown c hc x hx

/-! ## Words that are set once -/

/-- Exactly one operation replaces words of the register, and it replaces all of them. -/
def SetsOnce (ops : List Op) (register : List Addr) : Prop :=
  ∃ before op after, ops = before ++ op :: after ∧ (∀ a ∈ register, a ∈ op.writes) ∧
    ∀ x ∈ before ++ after, ∀ a ∈ register, a ∉ x.writes

def Op.WritesApart (x y : Op) : Prop := ∀ a ∈ x.writes, a ∉ y.writes

theorem Op.WritesApart.symm {x y : Op} (h : x.WritesApart y) : y.WritesApart x :=
  fun a hy hx => h a hx hy

namespace SetsOnce

variable {ops xs : List Op} {register : List Addr}

/-- In code that never replaces a word twice every operation is the only one of its words. -/
theorem of_pairwise (h : ops.Pairwise Op.WritesApart) {op : Op} (hop : op ∈ ops)
    (hregister : ∀ a ∈ register, a ∈ op.writes) : SetsOnce ops register := by
  obtain ⟨before, after, rfl⟩ := List.append_of_mem hop
  refine ⟨before, op, after, rfl, hregister, fun x hx a ha => ?_⟩
  obtain ⟨-, hafter, hbefore⟩ := List.pairwise_append.mp h
  rcases List.mem_append.mp hx with hx | hx
  · exact (hbefore x hx op List.mem_cons_self).symm a (hregister a ha)
  · exact (List.pairwise_cons.mp hafter).1 x hx a (hregister a ha)

theorem mem_written (h : SetsOnce ops register) {a : Addr} (ha : a ∈ register) :
    a ∈ written ops := by
  obtain ⟨before, op, after, rfl, hop, -⟩ := h
  exact TreeWalk.mem_written.mpr ⟨op, by simp, hop a ha⟩

theorem append_left (h : SetsOnce ops register) (hxs : ∀ a ∈ register, a ∉ written xs) :
    SetsOnce (xs ++ ops) register := by
  obtain ⟨before, op, after, rfl, hop, hothers⟩ := h
  refine ⟨xs ++ before, op, after, by simp, hop, fun x hx a ha => ?_⟩
  rw [List.append_assoc] at hx
  rcases List.mem_append.mp hx with hx | hx
  · exact fun hw => hxs a ha (TreeWalk.mem_written.mpr ⟨x, hx, hw⟩)
  · exact hothers x hx a ha

theorem append_right (h : SetsOnce ops register) (hxs : ∀ a ∈ register, a ∉ written xs) :
    SetsOnce (ops ++ xs) register := by
  obtain ⟨before, op, after, rfl, hop, hothers⟩ := h
  refine ⟨before, op, after ++ xs, by simp, hop, fun x hx a ha => ?_⟩
  rw [← List.append_assoc] at hx
  rcases List.mem_append.mp hx with hx | hx
  · exact hothers x hx a ha
  · exact fun hw => hxs a ha (TreeWalk.mem_written.mpr ⟨x, hx, hw⟩)

end SetsOnce

end TreeWalk
