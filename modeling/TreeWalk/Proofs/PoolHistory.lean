import TreeWalk.Proofs.BuildSteps
import TreeWalk.Proofs.ConstantPool
import TreeWalk.Proofs.PoolCode
import TreeWalk.Proofs.ScratchRequests

/-!
# Histories of the constant pool

Scratch and constants are asked for in any order, and the pending operations are taken out from
time to time, while the pool keeps its entries. A vector constant that runs out of scratch may
leave its scalar in the pool.
-/

namespace TreeWalk

def ConstPool.extents (pool : ConstPool) : List Extent :=
  pool.scalars.map (fun x => ⟨x.2, 1⟩) ++ pool.vectors.map fun x => ⟨x.2, laneCount⟩

structure Placed (xs : List Extent) (n : Nat) : Prop where
  apart : xs.Pairwise Extent.Apart
  end_le : ∀ x ∈ xs, x.start.toNat + x.length ≤ n

namespace Placed

variable {xs ys : List Extent} {x : Extent} {pool : ConstPool} {v : Word} {a : Addr} {n : Nat}

theorem nil (n : Nat) : Placed [] n := ⟨.nil, by simp⟩

theorem insert (h : Placed (xs ++ ys) n) (hstart : x.start.toNat = n) :
    Placed (xs ++ x :: ys) (n + x.length) := by
  constructor
  · rw [List.pairwise_middle Extent.Apart.symm, List.pairwise_cons]
    constructor
    · intro y hy
      exact (Extent.apart_of_end_le (hstart ▸ h.end_le y hy)).symm
    · exact h.apart
  · intro y hy
    rcases List.mem_cons.mp (List.perm_middle.mem_iff.mp hy) with rfl | hy
    · omega
    · have hend := h.end_le y hy
      omega

theorem scalar (h : Placed (pool.extents ++ xs) n) (ha : a.toNat = n) :
    Placed (({ pool with scalars := (v, a) :: pool.scalars } : ConstPool).extents ++ xs)
      (n + 1) := by
  have hplaced : Placed ([] ++ (pool.extents ++ xs)) n := h
  exact hplaced.insert (x := ⟨a, 1⟩) ha

theorem vector (h : Placed (pool.extents ++ xs) n) (ha : a.toNat = n) :
    Placed (({ pool with vectors := (v, a) :: pool.vectors } : ConstPool).extents ++ xs)
      (n + laneCount) := by
  unfold ConstPool.extents at h ⊢
  rw [List.append_assoc] at h ⊢
  exact h.insert (x := ⟨a, laneCount⟩) ha

end Placed

structure ConstPool.Within (pool pool' : ConstPool) : Prop where
  scalars : pool.scalars ⊆ pool'.scalars
  vectors : pool.vectors ⊆ pool'.vectors

theorem ConstPool.Within.refl (pool : ConstPool) : pool.Within pool :=
  ⟨List.Subset.refl _, List.Subset.refl _⟩

namespace Draft

variable {capacity : Nat} {named : List Extent} {d d' : Draft} {value : Word} {a : Addr}

/-! ## Asking for a constant again -/

theorem gives_constant_of_lookup (h : d.pool.scalars.lookup value = some a) :
    Gives (constant value) d a d := by
  rw [constant, gives_get_bind_iff, h]
  exact gives_pure_iff.mpr ⟨rfl, rfl⟩

theorem gives_vectorConstant_of_lookup (h : d.pool.vectors.lookup value = some a) :
    Gives (vectorConstant value) d a d := by
  rw [vectorConstant, gives_get_bind_iff, h]
  exact gives_pure_iff.mpr ⟨rfl, rfl⟩

/-! ## Drafts with all their operations pending -/

/-- The pending operations are the code of the pool, and its constants and the named regions lie
apart in the words handed out. -/
structure Laid (capacity : Nat) (named : List Extent) (d : Draft) : Prop where
  assembled : Assembled capacity d
  code : PoolCode d.pool d.pending.toList
  placed : Placed (d.pool.extents ++ named) d.used

namespace Laid

theorem fresh (capacity : Nat) : Laid capacity [] (ofCapacity capacity) :=
  ⟨.fresh, .empty, .nil 0⟩

theorem bounded (h : Laid capacity named d) (hcapacity : capacity < 2 ^ 32) : Bounded d :=
  (h.assembled.kept hcapacity 0).bounded

theorem code_of_reserved (h : Laid capacity named d) {n : Nat} (hreserved : Reserved d n a d') :
    PoolCode d'.pool d'.pending.toList := by
  rw [hreserved.pool, hreserved.pending]
  exact h.code

theorem reserve (h : Laid capacity named d) (hcapacity : capacity < 2 ^ 32)
    {name : Option String} {n : Nat} (hgives : Gives (Draft.reserve name n) d a d') :
    Laid capacity (named ++ [⟨a, n⟩]) d' := by
  have hreserved := Gives.reserve (h.bounded hcapacity) hgives
  constructor
  · have hnext := h.assembled.reserve name n
    rwa [show perform (Draft.reserve name n) d = _ from hgives] at hnext
  · exact h.code_of_reserved hreserved
  · have hplaced : Placed ((d.pool.extents ++ named) ++ []) d.used := by
      rw [List.append_nil]
      exact h.placed
    rw [hreserved.pool, hreserved.used, ← List.append_assoc]
    exact hplaced.insert (x := ⟨a, n⟩) hreserved.toNat

theorem constant (h : Laid capacity named d) (hcapacity : capacity < 2 ^ 32)
    (hgives : Gives (Draft.constant value) d a d') :
    Laid capacity named d' ∧ (value, a) ∈ d'.pool.scalars ∧
      d.pool.scalars ⊆ d'.pool.scalars ∧ d'.pool.vectors = d.pool.vectors := by
  have hbounded := h.bounded hcapacity
  have hassembled : Assembled capacity d' := by
    have hnext := h.assembled.constant value
    rwa [show perform (Draft.constant value) d = _ from hgives] at hnext
  cases hlookup : d.pool.scalars.lookup value with
  | some b =>
    have hagain : Gives (Draft.constant value) d b d := gives_constant_of_lookup hlookup
    obtain ⟨rfl, rfl⟩ : a = b ∧ d' = d := by simpa using hgives.symm.trans hagain
    exact ⟨h, mem_of_lookup hlookup, List.Subset.refl _, rfl⟩
  | none =>
    obtain ⟨d₁, hreserved, rfl⟩ := (Gives.constant hbounded hgives).resolve_left (by simp [hlookup])
    have hpool : d₁.pool = d.pool := hreserved.pool
    have hnew : ∀ x ∈ d₁.pool.scalars, x.1 ≠ value ∧ x.2 ≠ a := by
      rw [hpool]
      intro x hx
      constructor
      · exact ne_of_lookup hlookup hx
      · rintro rfl
        exact absurd hreserved.toNat (Nat.ne_of_lt (hbounded.scalars x hx))
    have hlaid : Laid capacity named { d₁ with
        pool.scalars := (value, a) :: d₁.pool.scalars
        pending := d₁.pending.push (.const a value) } := by
      constructor
      · exact hassembled
      · rw [Array.toList_push]
        exact (h.code_of_reserved hreserved).const hnew
      · have hplaced : Placed (d₁.pool.extents ++ named) d.used := hpool ▸ h.placed
        have hnext := hplaced.scalar (v := value) hreserved.toNat
        rwa [← hreserved.used] at hnext
    simp only [hpool] at hlaid ⊢
    exact ⟨hlaid, List.mem_cons_self, List.subset_cons_self _ _, trivial⟩

theorem vectorConstant (h : Laid capacity named d) (hcapacity : capacity < 2 ^ 32)
    (hgives : Gives (Draft.vectorConstant value) d a d') :
    Laid capacity named d' ∧ (value, a) ∈ d'.pool.vectors ∧ d.pool.Within d'.pool := by
  have hassembled : Assembled capacity d' := h.assembled.of_vectorConstant hgives
  cases hlookup : d.pool.vectors.lookup value with
  | some b =>
    have hagain : Gives (Draft.vectorConstant value) d b d := gives_vectorConstant_of_lookup hlookup
    obtain ⟨rfl, rfl⟩ : a = b ∧ d' = d := by simpa using hgives.symm.trans hagain
    exact ⟨h, mem_of_lookup hlookup, .refl _⟩
  | none =>
    obtain ⟨source, d₁, d₂, hsource, hvector, rfl⟩ :=
      (Gives.vectorConstant hgives).resolve_left (by simp [hlookup])
    obtain ⟨h₁, hscalar, hscalars, hvectors⟩ := h.constant hcapacity hsource
    have hreserved := hvector (h₁.bounded hcapacity)
    have hpool : d₂.pool = d₁.pool := hreserved.pool
    have hnew : ∀ x ∈ d₂.pool.vectors, x.1 ≠ value := by
      rw [hpool, hvectors]
      exact fun x hx => ne_of_lookup hlookup hx
    have hlaid : Laid capacity named { d₂ with
        pool.vectors := (value, a) :: d₂.pool.vectors
        pending := d₂.pending.push (.broadcast a source) } := by
      constructor
      · exact hassembled
      · rw [Array.toList_push]
        exact (h₁.code_of_reserved hreserved).broadcast hnew (hpool ▸ hscalar)
      · have hplaced : Placed (d₂.pool.extents ++ named) d₁.used := hpool ▸ h₁.placed
        have hnext := hplaced.vector (v := value) hreserved.toNat
        rwa [← hreserved.used] at hnext
    simp only [hpool, hvectors] at hlaid ⊢
    exact ⟨hlaid, List.mem_cons_self, hscalars, List.subset_cons_self _ _⟩

end Laid

/-! ## Steps that do not look at the pending operations -/

def behind (ops : List Op) (d : Draft) : Draft := { d with pending := ops.toArray ++ d.pending }

/-- Operations in front of the pending ones make no difference to the step. -/
def Appends {α : Type} (step : Drafting α) : Prop :=
  ∀ ops d, perform step (d.behind ops) = ((perform step d).1, (perform step d).2.behind ops)

theorem Appends.gives {α : Type} {step : Drafting α} (h : Appends step) {a : α}
    (hgives : Gives step d a d') (ops : List Op) : Gives step (d.behind ops) a (d'.behind ops) := by
  rw [Gives, h ops d, show perform step d = _ from hgives]

theorem Appends.fails {α : Type} {step : Drafting α} (h : Appends step) {e : OutOfScratch}
    (hfails : Fails step d e d') (ops : List Op) :
    Fails step (d.behind ops) e (d'.behind ops) := by
  rw [Fails, h ops d, show perform step d = _ from hfails]

theorem Appends.compositional : Compositional fun _ step => Appends step := by
  constructor
  · exact fun _ _ _ => rfl
  · intro op ops d
    have hpush : ops.toArray ++ d.pending.push op = (ops.toArray ++ d.pending).push op :=
      Array.push_append.symm
    show (_, { d.behind ops with pending := (ops.toArray ++ d.pending).push op }) = _
    rw [← hpush]
    rfl
  · intro name n ops d
    have harena : (d.behind ops).arena = d.arena := rfl
    rw [perform_reserve, perform_reserve, harena]
    cases d.arena.reserve name n <;> rfl
  · exact fun _ _ _ => rfl
  · intro α f hf h ops d
    have hget : ∀ d, perform (do f (← get)) d = perform (f d) d := fun d => perform_bind _ _ d
    rw [hget, hget, hf (d.behind ops) d rfl]
    exact h d ops d
  · intro α β step f h hf ops d
    rw [perform_bind, perform_bind, h]
    rcases perform step d with ⟨r, d'⟩
    cases r with
    | ok a => exact hf a ops d'
    | error e => rfl

end Draft

/-! ## Calls one after the other -/

inductive Demand where
  | scalar (name : String)
  | vector (name : String)
  | region (name : String) (length : Nat)
  | constant (value : Word)
  | vectorConstant (value : Word)
  deriving DecidableEq, Repr

namespace Demand

def step : Demand → Drafting Addr
  | scalar name => Draft.scalar name
  | vector name => Draft.vector name
  | region name length => Draft.region name length
  | constant value => Draft.constant value
  | vectorConstant value => Draft.vectorConstant value

/-- The words at `a` that belong to a named region from then on. -/
def region? (a : Addr) : Demand → Option Extent
  | scalar _ => some ⟨a, 1⟩
  | vector _ => some ⟨a, laneCount⟩
  | region _ length => some ⟨a, length⟩
  | constant _ => none
  | vectorConstant _ => none

def PooledAt (x : Demand) (pool : ConstPool) (a : Addr) : Prop :=
  (∀ value, x = constant value → (value, a) ∈ pool.scalars) ∧
    ∀ value, x = vectorConstant value → (value, a) ∈ pool.vectors

theorem PooledAt.within {x : Demand} {pool pool' : ConstPool} {a : Addr} (h : x.PooledAt pool a)
    (hpool : pool.Within pool') : x.PooledAt pool' a :=
  ⟨fun value hx => hpool.scalars (h.1 value hx), fun value hx => hpool.vectors (h.2 value hx)⟩

end Demand

namespace Draft

theorem appends_demand (x : Demand) : Appends x.step := by
  cases x with
  | scalar name => exact Appends.compositional.reserve _ _
  | vector name => exact Appends.compositional.reserve _ _
  | region name length => exact Appends.compositional.reserve _ _
  | constant value => exact Appends.compositional.constant value
  | vectorConstant value => exact Appends.compositional.vectorConstant value

namespace Laid

variable {capacity : Nat} {named : List Extent} {d d' : Draft} {x : Demand}

theorem granted (h : Laid capacity named d) (hcapacity : capacity < 2 ^ 32) {a : Addr}
    (hgives : Gives x.step d a d') :
    Laid capacity (named ++ (x.region? a).toList) d' ∧ d.pool.Within d'.pool ∧
      x.PooledAt d'.pool a := by
  have hreserve {name : String} {n : Nat} (hgives : Gives (Draft.reserve (some name) n) d a d') :
      Laid capacity (named ++ [⟨a, n⟩]) d' ∧ d.pool.Within d'.pool := by
    have hpool := (Gives.reserve (h.bounded hcapacity) hgives).pool
    exact ⟨h.reserve hcapacity hgives, hpool ▸ .refl _⟩
  cases x with
  | scalar name => exact ⟨(hreserve hgives).1, (hreserve hgives).2, by simp [Demand.PooledAt]⟩
  | vector name => exact ⟨(hreserve hgives).1, (hreserve hgives).2, by simp [Demand.PooledAt]⟩
  | region name length =>
    exact ⟨(hreserve hgives).1, (hreserve hgives).2, by simp [Demand.PooledAt]⟩
  | constant value =>
    obtain ⟨hlaid, hmem, hscalars, hvectors⟩ := h.constant hcapacity hgives
    have hpool : d.pool.Within d'.pool := ⟨hscalars, hvectors ▸ List.Subset.refl _⟩
    exact ⟨by simpa [Demand.region?] using hlaid, hpool, by simpa [Demand.PooledAt] using hmem⟩
  | vectorConstant value =>
    obtain ⟨hlaid, hmem, hpool⟩ := h.vectorConstant hcapacity hgives
    exact ⟨by simpa [Demand.region?] using hlaid, hpool, by simpa [Demand.PooledAt] using hmem⟩

/-- A demand that runs out of scratch leaves the draft as it was, or with one more scalar. -/
theorem refused (h : Laid capacity named d) (hcapacity : capacity < 2 ^ 32) {e : OutOfScratch}
    (hfails : Fails x.step d e d') : Laid capacity named d' ∧ d.pool.Within d'.pool := by
  have hsame (heq : d' = d) : Laid capacity named d' ∧ d.pool.Within d'.pool := by
    rw [heq]
    exact ⟨h, .refl _⟩
  cases x with
  | scalar name => exact hsame (fails_reserve hfails)
  | vector name => exact hsame (fails_reserve hfails)
  | region name length => exact hsame (fails_reserve hfails)
  | constant value => exact hsame (fails_constant hfails)
  | vectorConstant value =>
    rcases fails_vectorConstant hfails with heq | ⟨source, hsource⟩
    · exact hsame heq
    · obtain ⟨hlaid, -, hscalars, hvectors⟩ := h.constant hcapacity hsource
      exact ⟨hlaid, hscalars, hvectors ▸ List.Subset.refl _⟩

end Laid

end Draft

/-- Something is asked for, or the pending operations are taken out. -/
inductive Call where
  | demand (x : Demand)
  | take
  deriving DecidableEq, Repr

/-- What calls have come to: the draft that is left, the operations taken out of it, and the
demands that were met, with their answers. -/
structure History where
  draft : Draft
  taken : List Op := []
  granted : List (Demand × Addr) := []
  deriving DecidableEq

namespace History

open Draft

def call (h : History) : Call → History
  | .demand x =>
    match perform x.step h.draft with
    | (.ok a, draft) => { h with draft, granted := h.granted ++ [(x, a)] }
    | (.error _, draft) => { h with draft }
  | .take => { h with draft := h.draft.take.2, taken := h.taken ++ h.draft.take.1 }

/-- What a sequence of calls comes to, on `capacity` words. -/
def after (capacity : Nat) (calls : List Call) : History :=
  calls.foldl call { draft := .ofCapacity capacity }

/-- All operations emitted so far, the taken ones first. -/
def emitted (h : History) : List Op := h.taken ++ h.draft.pending.toList

def regions (h : History) : List Extent := h.granted.filterMap fun x => x.1.region? x.2

def extents (h : History) : List Extent := h.draft.pool.extents ++ h.regions

theorem call_cases (h : History) (x : Demand) :
    (∃ a draft, Gives x.step h.draft a draft ∧
      h.call (.demand x) = { h with draft, granted := h.granted ++ [(x, a)] }) ∨
    ∃ e draft, Fails x.step h.draft e draft ∧ h.call (.demand x) = { h with draft } := by
  unfold call
  rcases hr : perform x.step h.draft with ⟨r, draft⟩
  cases r with
  | ok a => exact .inl ⟨a, draft, hr, by simp only [hr]⟩
  | error e => exact .inr ⟨e, draft, hr, by simp only [hr]⟩

/-- What every call keeps. With the taken operations back in front, the draft is laid. -/
structure Kept (capacity : Nat) (h : History) : Prop where
  laid : Laid capacity h.regions (h.draft.behind h.taken)
  pooledAt : ∀ x a, (x, a) ∈ h.granted → x.PooledAt h.draft.pool a

variable {capacity : Nat} {h : History}

theorem Kept.call (hh : h.Kept capacity) (hcapacity : capacity < 2 ^ 32) (c : Call) :
    (h.call c).Kept capacity := by
  cases c with
  | take =>
    have hwhole : h.draft.take.2.behind (h.taken ++ h.draft.take.1) = h.draft.behind h.taken := by
      simp [behind, take]
    constructor
    · show Laid capacity h.regions (h.draft.take.2.behind (h.taken ++ h.draft.take.1))
      rw [hwhole]
      exact hh.laid
    · exact hh.pooledAt
  | demand x =>
    rcases h.call_cases x with ⟨a, draft, hgives, heq⟩ | ⟨e, draft, hfails, heq⟩
    · obtain ⟨hlaid, hpool, hpooled⟩ :=
        hh.laid.granted hcapacity ((appends_demand x).gives hgives h.taken)
      have hregions : h.regions ++ (x.region? a).toList = (h.call (.demand x)).regions := by
        rw [heq, regions, regions, List.filterMap_append]
        cases hregion : x.region? a <;> simp [hregion]
      rw [hregions] at hlaid
      rw [heq] at hlaid ⊢
      constructor
      · exact hlaid
      · intro y b hy
        rcases List.mem_append.mp hy with hy | hlast
        · exact (hh.pooledAt y b hy).within hpool
        · obtain ⟨rfl, rfl⟩ := Prod.mk.inj (List.mem_singleton.mp hlast)
          exact hpooled
    · obtain ⟨hlaid, hpool⟩ := hh.laid.refused hcapacity ((appends_demand x).fails hfails h.taken)
      rw [heq]
      exact ⟨hlaid, fun y b hy => (hh.pooledAt y b hy).within hpool⟩

theorem kept_after (hcapacity : capacity < 2 ^ 32) (calls : List Call) :
    (after capacity calls).Kept capacity := by
  induction calls using List.reverseRecOn with
  | nil => exact ⟨.fresh capacity, by simp [after]⟩
  | append_singleton calls c ih =>
    have hstep : after capacity (calls ++ [c]) = (after capacity calls).call c :=
      List.foldl_concat ..
    rw [hstep]
    exact ih.call hcapacity c

/-- What holds on `capacity` words whatever was called. -/
structure Sound (capacity : Nat) (h : History) : Prop where
  /-- No two operations set a scalar to the same value. -/
  set_once : h.emitted.Pairwise fun x y => ∀ v, x.SetsTo v → ¬ y.SetsTo v
  /-- No two operations broadcast the same value. -/
  spread_once : h.emitted.Pairwise fun x y => ∀ v, x.Spreads h.emitted v → ¬ y.Spreads h.emitted v
  /-- Each broadcast comes behind the operation that sets its scalar. -/
  set_before_spread : ∀ before a source, before ++ [.broadcast a source] <+: h.emitted →
    ∃ v, .const source v ∈ before
  /-- A constant that was asked for is pooled at the address that was the answer. -/
  pooled : ∀ x a, (x, a) ∈ h.granted → x.PooledAt h.draft.pool a
  /-- Who asks for a pooled constant is given its address, and nothing changes. -/
  constant_again : ∀ v a, (v, a) ∈ h.draft.pool.scalars →
    perform (constant v) h.draft = (.ok a, h.draft)
  vectorConstant_again : ∀ v a, (v, a) ∈ h.draft.pool.vectors →
    perform (vectorConstant v) h.draft = (.ok a, h.draft)
  /-- Pooled constants and named regions share no word. -/
  apart : h.extents.Pairwise Extent.Apart
  within : ∀ x ∈ h.extents, x.start.toNat + x.length ≤ capacity
  /-- The operations emitted so far set all pooled constants. -/
  holds : ∀ s : Contents, h.draft.used ≤ s.scratch.size → ∃ t, execute h.emitted s = some t ∧
    (∀ v a, (v, a) ∈ h.draft.pool.scalars → t.word a = v) ∧
    ∀ v a, (v, a) ∈ h.draft.pool.vectors → ∀ l < laneCount, t.lane l a = v

/-- Scratch and constants may be asked for in any order, with failures, repetitions and the pending
operations taken out in between. -/
theorem sound_after (hcapacity : capacity < 2 ^ 32) (calls : List Call) :
    (after capacity calls).Sound capacity := by
  have hkept := kept_after hcapacity calls
  set h := after capacity calls
  have hlaid := hkept.laid
  have hpending : (h.draft.behind h.taken).pending.toList = h.emitted := by
    simp [behind, emitted]
  have hcode : PoolCode h.draft.pool h.emitted := hpending ▸ hlaid.code
  constructor
  · exact hcode.set_once
  · exact hcode.spread_once
  · exact fun before a source hbefore => hcode.set_before_spread hbefore
  · exact hkept.pooledAt
  · exact fun v a ha => gives_constant_of_lookup (hcode.lookup_scalar ha)
  · exact fun v a ha => gives_vectorConstant_of_lookup (hcode.lookup_vector ha)
  · exact hlaid.placed.apart
  · intro x hx
    have hused : h.draft.used ≤ h.draft.arena.capacity := (hlaid.bounded hcapacity).used_le
    have hcapacity_eq : h.draft.arena.capacity = capacity := hlaid.assembled.capacity_eq hcapacity
    exact Nat.le_trans (hlaid.placed.end_le x hx) (hcapacity_eq ▸ hused)
  · intro s hs
    obtain ⟨t, ht, -, hdone⟩ := hlaid.assembled.execute_pending hcapacity hs
    have htracked := (hlaid.assembled.kept hcapacity 0).tracked trivial
    have hscalars : ∀ v a, (v, a) ∈ h.draft.pool.scalars → t.word a = v :=
      fun v a ha => (htracked.scalars (v, a) ha).word_eq hdone
    have hvectors : ∀ v a, (v, a) ∈ h.draft.pool.vectors → ∀ l < laneCount, t.lane l a = v :=
      fun v a ha => (htracked.vectors (v, a) ha).lane_eq hdone
    exact ⟨t, hpending ▸ ht, hscalars, hvectors⟩

/-- The block of nine does not fit into 19 words, and its scalar is found again. -/
theorem sound_after_refusal :
    let h := after 19 [.demand (.region "data" 2), .demand (.vectorConstant 7), .take,
      .demand (.vectorConstant 9), .take, .demand (.vectorConstant 9), .demand (.constant 9)]
    h.emitted = [.const (.ofNat 2) 7, .broadcast (.ofNat 3) (.ofNat 2), .const (.ofNat 11) 9] ∧
      h.granted = [(.region "data" 2, .ofNat 0), (.vectorConstant 7, .ofNat 3),
        (.constant 9, .ofNat 11)] ∧
      h.Sound 19 :=
  ⟨by decide +kernel, by decide +kernel, sound_after (by decide) _⟩

end History

end TreeWalk
