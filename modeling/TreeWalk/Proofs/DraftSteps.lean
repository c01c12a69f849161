import TreeWalk.Scratch.Draft
import TreeWalk.Proofs.Footprint

/-!
# Steps of a build

A step of a build that succeeds hands out scratch upwards and appends to the pending operations.
What the pool knows of stays in the scratch that is handed out.
-/

namespace TreeWalk

theorem pairwise_snoc {α : Type} {R : α → α → Prop} {xs : List α} {x : α} (h : xs.Pairwise R)
    (hx : ∀ y ∈ xs, R y x) : (xs ++ [x]).Pairwise R := by
  apply List.pairwise_append.mpr
  refine ⟨h, List.pairwise_singleton _ _, ?_⟩
  intro y hy z hz
  rw [List.mem_singleton.mp hz]
  exact hx y hy

namespace Draft

variable {α β : Type} {d d' d'' : Draft}

/-- The step succeeds on `d` with the result `a` and leaves `d'`. -/
def Gives (step : Drafting α) (d : Draft) (a : α) (d' : Draft) : Prop :=
  perform step d = (.ok a, d')

theorem exists_gives {step : Drafting α} {p : α → Draft → Prop} [∀ a d, Decidable (p a d)]
    (h : (perform step d).1.toOption.any (fun a => decide (p a (perform step d).2)) = true) :
    ∃ a d', Gives step d a d' ∧ p a d' := by
  obtain ⟨a, ha, hp⟩ := exists_eq_ok h
  exact ⟨a, (perform step d).2, Prod.ext ha rfl, hp⟩

theorem gives_pure_iff {a b : α} : Gives (pure a) d b d' ↔ b = a ∧ d' = d := by
  have hrun : perform (pure a) d = (.ok a, d) := rfl
  rw [Gives, hrun]
  simp [eq_comm]

theorem perform_bind (step : Drafting α) (f : α → Drafting β) (d : Draft) :
    perform (step >>= f) d =
      match perform step d with
      | (.ok a, d') => perform (f a) d'
      | (.error e, d') => (.error e, d') := by
  have hbind : perform (step >>= f) d =
      (ExceptT.bindCont f (perform step d).1 : StateM Draft (Except OutOfScratch β))
        (perform step d).2 := rfl
  rw [hbind]
  rcases perform step d with ⟨r, d'⟩
  cases r <;> rfl

theorem gives_bind_iff {step : Drafting α} {f : α → Drafting β} {b : β} :
    Gives (step >>= f) d b d'' ↔ ∃ a d', Gives step d a d' ∧ Gives (f a) d' b d'' := by
  simp only [Gives, perform_bind]
  rcases perform step d with ⟨r, d₁⟩
  cases r with
  | ok a =>
    constructor
    · exact fun h => ⟨a, d₁, rfl, h⟩
    · rintro ⟨a', d', heq, h⟩
      cases heq
      exact h
  | error e => simp

theorem gives_emit_iff {op : Op} {u : Unit} :
    Gives (emit op) d u d' ↔ d' = { d with pending := d.pending.push op } := by
  have hrun : perform (emit op) d = (.ok (), { d with pending := d.pending.push op }) := rfl
  rw [Gives, hrun]
  simp [eq_comm]

theorem gives_get_bind_iff {f : Draft → Drafting β} {b : β} :
    Gives (do f (← get)) d b d' ↔ Gives (f d) d b d' := by
  rw [gives_bind_iff]
  have hget : perform (get : Drafting Draft) d = (.ok d, d) := rfl
  constructor
  · rintro ⟨a, d₁, ha, h⟩
    rw [Gives, hget] at ha
    cases ha
    exact h
  · exact fun h => ⟨d, d, hget, h⟩

theorem gives_modify_iff {f : Draft → Draft} {u : PUnit} :
    Gives (modify f) d u d' ↔ d' = f d := by
  have hrun : perform (modify f) d = (.ok PUnit.unit, f d) := rfl
  rw [Gives, hrun]
  simp [eq_comm]

theorem gives_set_iff {new : Draft} {u : PUnit} : Gives (set new) d u d' ↔ d' = new := by
  have hrun : perform (set new) d = (.ok PUnit.unit, new) := rfl
  rw [Gives, hrun]
  simp [eq_comm]

theorem not_gives_throw {e : OutOfScratch} {a : α} : ¬ Gives (throw e) d a d' := by
  have hrun : perform (throw e : Drafting α) d = (.error e, d) := rfl
  rw [Gives, hrun]
  simp

theorem perform_reserve (name : Option String) (n : Nat) (d : Draft) :
    perform (Draft.reserve name n) d =
      match d.arena.reserve name n with
      | .ok (start, arena) => (.ok start, { d with arena })
      | .error e => (.error e, d) := by
  have hget : perform (Draft.reserve name n) d =
      perform (match d.arena.reserve name n with
        | .ok (start, arena) => do
          set { d with arena }
          pure start
        | .error e => throw e) d := rfl
  rw [hget]
  cases d.arena.reserve name n with
  | ok granted => rfl
  | error e => rfl

structure Grows (d d' : Draft) : Prop where
  used : d.used ≤ d'.used
  capacity : d'.arena.capacity = d.arena.capacity
  pending : d.pending.toList <+: d'.pending.toList

namespace Grows

theorem refl (d : Draft) : Grows d d := ⟨Nat.le_refl _, rfl, List.prefix_rfl⟩

theorem trans (h : Grows d d') (h' : Grows d' d'') : Grows d d'' :=
  ⟨Nat.le_trans h.used h'.used, h'.capacity.trans h.capacity, h.pending.trans h'.pending⟩

theorem mem (h : Grows d d') {op : Op} (hop : op ∈ d.pending.toList) : op ∈ d'.pending.toList :=
  h.pending.subset hop

theorem emit (d : Draft) (op : Op) : Grows d { d with pending := d.pending.push op } :=
  ⟨Nat.le_refl _, rfl, by simp⟩

end Grows

/-- What is handed out can be addressed, and what is pooled is handed out. -/
structure Bounded (d : Draft) : Prop where
  used_le : d.used ≤ d.arena.capacity
  capacity_lt : d.arena.capacity < 2 ^ 32
  scalars : ∀ x ∈ d.pool.scalars, x.2.toNat < d.used
  vectors : ∀ x ∈ d.pool.vectors, x.2.toNat + laneCount ≤ d.used

theorem bounded_ofCapacity {capacity : Nat} (h : capacity < 2 ^ 32) :
    Bounded (ofCapacity capacity) :=
  ⟨Nat.zero_le _, h, by simp [ofCapacity], by simp [ofCapacity]⟩

theorem Bounded.emit (h : Bounded d) (op : Op) :
    Bounded { d with pending := d.pending.push op } :=
  ⟨h.used_le, h.capacity_lt, h.scalars, h.vectors⟩

theorem Bounded.take (h : Bounded d) : Bounded d.take.2 :=
  ⟨h.used_le, h.capacity_lt, h.scalars, h.vectors⟩

structure Reserved (d : Draft) (n : Nat) (a : Addr) (d' : Draft) : Prop where
  toNat : a.toNat = d.used
  used : d'.used = d.used + n
  capacity : d'.arena.capacity = d.arena.capacity
  used_le : d'.used ≤ d'.arena.capacity
  pool : d'.pool = d.pool
  pending : d'.pending = d.pending

theorem Gives.reserve (hd : Bounded d) {name : Option String} {n : Nat} {a : Addr}
    (h : Gives (Draft.reserve name n) d a d') : Reserved d n a d' := by
  rw [Draft.reserve, gives_get_bind_iff] at h
  split at h
  · rename_i start arena hreserve
    simp only [gives_bind_iff, gives_set_iff, gives_pure_iff] at h
    obtain ⟨_, _, rfl, rfl, rfl⟩ := h
    obtain ⟨hfits, rfl, hused, hcapacity⟩ := Arena.reserve_ok hreserve
    refine ⟨Addr.toNat_ofNat (Nat.lt_of_le_of_lt hd.used_le hd.capacity_lt), hused, hcapacity, ?_,
      rfl, rfl⟩
    show arena.used ≤ arena.capacity
    rw [hused, hcapacity]
    exact hfits
  · exact absurd h not_gives_throw

namespace Reserved

variable {n : Nat} {a : Addr}

theorem grows (h : Reserved d n a d') : Grows d d' :=
  ⟨by rw [h.used]; exact Nat.le_add_right _ _, h.capacity, h.pending ▸ List.prefix_rfl⟩

theorem bounded (h : Reserved d n a d') (hd : Bounded d) : Bounded d' := by
  refine ⟨h.used_le, h.capacity ▸ hd.capacity_lt, fun x hx => ?_, fun x hx => ?_⟩
  · exact Nat.lt_of_lt_of_le (hd.scalars x (h.pool ▸ hx)) h.grows.used
  · exact Nat.le_trans (hd.vectors x (h.pool ▸ hx)) h.grows.used

end Reserved

theorem Gives.region (hd : Bounded d) {name : String} {n : Nat} {a : Addr}
    (h : Gives (Draft.region name n) d a d') : Reserved d n a d' := Gives.reserve hd h

theorem Gives.vector (hd : Bounded d) {name : String} {a : Addr}
    (h : Gives (Draft.vector name) d a d') : Reserved d laneCount a d' := Gives.reserve hd h

theorem Gives.scalar (hd : Bounded d) {name : String} {a : Addr}
    (h : Gives (Draft.scalar name) d a d') : Reserved d 1 a d' := Gives.reserve hd h

theorem Gives.constant (hd : Bounded d) {value : Word} {a : Addr}
    (h : Gives (Draft.constant value) d a d') :
    (d.pool.scalars.lookup value = some a ∧ d' = d) ∨
      ∃ d₁, Reserved d 1 a d₁ ∧
        d' = { d₁ with
          pool.scalars := (value, a) :: d₁.pool.scalars
          pending := d₁.pending.push (.const a value) } := by
  rw [Draft.constant, gives_get_bind_iff] at h
  split at h
  · rename_i addr hlookup
    obtain ⟨rfl, rfl⟩ := gives_pure_iff.mp h
    exact .inl ⟨hlookup, rfl⟩
  · simp only [gives_bind_iff, gives_emit_iff, gives_modify_iff, gives_pure_iff] at h
    obtain ⟨addr, d₁, hscalar, _, _, rfl, _, _, rfl, rfl, rfl⟩ := h
    exact .inr ⟨d₁, Gives.scalar hd hscalar, rfl⟩

/-- A vector constant is either pooled already or becomes a fresh block that is broadcast at once
from the scalar constant. -/
theorem Gives.vectorConstant {value : Word} {a : Addr}
    (h : Gives (Draft.vectorConstant value) d a d') :
    (d.pool.vectors.lookup value = some a ∧ d' = d) ∨
      ∃ source d₁ d₂, Gives (Draft.constant value) d source d₁ ∧
        (Bounded d₁ → Reserved d₁ laneCount a d₂) ∧
        d' = { d₂ with
          pool.vectors := (value, a) :: d₂.pool.vectors
          pending := d₂.pending.push (.broadcast a source) } := by
  rw [Draft.vectorConstant, gives_get_bind_iff] at h
  split at h
  · rename_i addr hlookup
    obtain ⟨rfl, rfl⟩ := gives_pure_iff.mp h
    exact .inl ⟨hlookup, rfl⟩
  · simp only [gives_bind_iff, gives_emit_iff, gives_modify_iff, gives_pure_iff] at h
    obtain ⟨source, d₁, hsource, addr, d₂, hvector, _, _, rfl, _, _, rfl, rfl, rfl⟩ := h
    exact .inr ⟨source, d₁, d₂, hsource, fun hd => Gives.vector hd hvector, rfl⟩

end Draft

/-! ## Code that sets up scratch -/

def Op.Avoids (op : Op) (addrs : List Addr) : Prop := ∀ a ∈ addrs, a ∉ op.reads ∧ a ∉ op.writes

/-- Code in which every operation sets words that no earlier one touches, to a constant, to copies
of a word, or to one of the first `bound` memory words. -/
inductive SetupCode (bound : Nat) : List Op → Prop where
  | nil : SetupCode bound []
  | const {ops : List Op} {dest : Addr} {value : Word} :
    SetupCode bound ops → (∀ op ∈ ops, op.Avoids [dest]) →
      SetupCode bound (ops ++ [.const dest value])
  | broadcast {ops : List Op} {dest source : Addr} :
    SetupCode bound ops → (∀ op ∈ ops, op.Avoids dest.block) → dest.FitsBlock →
      source ∉ dest.block → SetupCode bound (ops ++ [.broadcast dest source])
  | load {ops : List Op} {dest addr : Addr} {value : Word} :
    SetupCode bound ops → (∀ op ∈ ops, op.Avoids [dest]) → addr ≠ dest →
      .const addr value ∈ ops → value.toNat < bound →
      SetupCode bound (ops ++ [.loadWord dest addr])

namespace Draft

variable {d d' : Draft}

def Untouched (d : Draft) (a : Addr) : Prop := ∀ op ∈ d.pending.toList, op.Avoids [a]

def HasScalar (d : Draft) (value : Word) (a : Addr) : Prop := Op.const a value ∈ d.pending.toList

/-- A pending operation broadcasts a scalar that is set to `value` to the block `a`. -/
def HasVector (d : Draft) (value : Word) (a : Addr) : Prop :=
  ∃ source, d.HasScalar value source ∧ Op.broadcast a source ∈ d.pending.toList

theorem Grows.hasScalar (h : Grows d d') {value : Word} {a : Addr} (ha : d.HasScalar value a) :
    d'.HasScalar value a := h.mem ha

theorem Grows.hasVector (h : Grows d d') {value : Word} {a : Addr} (ha : d.HasVector value a) :
    d'.HasVector value a := by
  obtain ⟨source, hsource, hbroadcast⟩ := ha
  exact ⟨source, h.hasScalar hsource, h.mem hbroadcast⟩

/-- The pending operations set up scratch that is handed out, and set all pooled constants. -/
structure Tracked (bound : Nat) (d : Draft) : Prop where
  code : SetupCode bound d.pending.toList
  touched : ∀ op ∈ d.pending.toList, ∀ a, d.used ≤ a.toNat → op.Avoids [a]
  scalars : ∀ x ∈ d.pool.scalars, d.HasScalar x.1 x.2
  vectors : ∀ x ∈ d.pool.vectors, d.HasVector x.1 x.2

variable {bound : Nat}

theorem tracked_ofCapacity (bound capacity : Nat) : Tracked bound (ofCapacity capacity) :=
  ⟨.nil, by simp [ofCapacity], by simp [ofCapacity], by simp [ofCapacity]⟩

theorem Reserved.tracked {n : Nat} {a : Addr} (h : Reserved d n a d') (hd : Tracked bound d) :
    Tracked bound d' := by
  refine ⟨h.pending ▸ hd.code, ?_, ?_, ?_⟩
  · intro op hop b hb
    exact hd.touched op (h.pending ▸ hop) b (Nat.le_trans h.grows.used hb)
  · exact fun x hx => h.grows.hasScalar (hd.scalars x (h.pool ▸ hx))
  · exact fun x hx => h.grows.hasVector (hd.vectors x (h.pool ▸ hx))

theorem Reserved.untouched {n : Nat} {a b : Addr} (h : Reserved d n a d') :
    d'.Untouched b ↔ d.Untouched b := by
  rw [Untouched, Untouched, h.pending]

theorem avoids_singleton_of_not_mem {op : Op} {a : Addr} (hr : a ∉ op.reads)
    (hw : a ∉ op.writes) : op.Avoids [a] := by
  intro b hb
  rw [List.mem_singleton.mp hb]
  exact ⟨hr, hw⟩

/-- Behind the pending operations comes one more that touches only what is handed out. -/
theorem Tracked.push (hd : Tracked bound d) {op : Op}
    (hcode : SetupCode bound (d.pending.toList ++ [op]))
    (hop : ∀ a ∈ op.reads ++ op.writes, a.toNat < d.used) :
    Tracked bound { d with pending := d.pending.push op } := by
  have hgrows := Grows.emit d op
  refine ⟨by simpa using hcode, ?_, ?_, ?_⟩
  · intro other hother a ha
    rcases List.mem_append.mp (Array.toList_push ▸ hother) with hother | hother
    · exact hd.touched other hother a ha
    · rw [List.mem_singleton.mp hother]
      have hout : a ∉ op.reads ++ op.writes := fun h => Nat.not_lt.mpr ha (hop a h)
      exact avoids_singleton_of_not_mem (fun h => hout (List.mem_append_left _ h))
        fun h => hout (List.mem_append_right _ h)
  · exact fun x hx => hgrows.hasScalar (hd.scalars x hx)
  · exact fun x hx => hgrows.hasVector (hd.vectors x hx)

theorem Untouched.push {op : Op} {a : Addr} (h : d.Untouched a) (hop : op.Avoids [a]) :
    ({ d with pending := d.pending.push op } : Draft).Untouched a := by
  intro other hother
  rcases List.mem_append.mp (Array.toList_push ▸ hother) with hother | hother
  · exact h other hother
  · rw [List.mem_singleton.mp hother]
    exact hop

theorem HasScalar.ne_of_untouched {value : Word} {a b : Addr} (h : d.HasScalar value a)
    (hb : d.Untouched b) : a ≠ b := by
  rintro rfl
  exact (hb _ h a (List.mem_singleton.mpr rfl)).2 (by simp [Op.const, Op.writes, LoadOp.writes])

theorem Tracked.push_loadWord (hd : Tracked bound d) {value : Word} {dest addr : Addr}
    (haddr : d.HasScalar value addr) (hvalue : value.toNat < bound) (hfree : d.Untouched dest)
    (haddr_lt : addr.toNat < d.used) (hdest_lt : dest.toNat < d.used) :
    Tracked bound { d with pending := d.pending.push (.loadWord dest addr) } ∧
      ∀ b, b ≠ dest → d.Untouched b →
        ({ d with pending := d.pending.push (.loadWord dest addr) } : Draft).Untouched b := by
  have hcode := hd.code.load hfree (haddr.ne_of_untouched hfree) haddr hvalue
  refine ⟨hd.push hcode ?_, fun b hb hbfree => hbfree.push (avoids_singleton_of_not_mem ?_ ?_)⟩
  · simpa [Op.loadWord, Op.reads, LoadOp.reads, Op.writes, LoadOp.writes] using
      ⟨haddr_lt, hdest_lt⟩
  · simpa [Op.loadWord, Op.reads, LoadOp.reads] using (haddr.ne_of_untouched hbfree).symm
  · simpa [Op.loadWord, Op.writes, LoadOp.writes] using hb

theorem Gives.constant_spec (bound : Nat) (hd : Bounded d) {value : Word} {a : Addr}
    (h : Gives (Draft.constant value) d a d') :
    Grows d d' ∧ Bounded d' ∧ a.toNat < d'.used ∧
      (Tracked bound d → Tracked bound d' ∧ d'.HasScalar value a ∧
        ∀ b, b.toNat < d.used → d.Untouched b → d'.Untouched b) := by
  rcases Gives.constant hd h with ⟨hlookup, rfl⟩ | ⟨d₁, hreserved, rfl⟩
  · have hmem : (value, a) ∈ d'.pool.scalars := by
      obtain ⟨l₁, l₂, heq, -⟩ := List.lookup_eq_some_iff.mp hlookup
      simp [heq]
    exact ⟨Grows.refl d', hd, hd.scalars _ hmem,
      fun ht => ⟨ht, ht.scalars _ hmem, fun b _ hb => hb⟩⟩
  · have hd₁ := hreserved.bounded hd
    have hlt : a.toNat < d₁.used := by
      rw [hreserved.toNat, hreserved.used]
      exact Nat.lt_succ_self _
    have hgrows : Grows d₁ _ := Grows.emit d₁ (.const a value)
    refine ⟨hreserved.grows.trans ⟨hgrows.used, hgrows.capacity, hgrows.pending⟩,
      ⟨hd₁.used_le, hd₁.capacity_lt, ?_, hd₁.vectors⟩, hlt, fun ht => ?_⟩
    · intro x hx
      rcases List.mem_cons.mp hx with rfl | hx
      · exact hlt
      · exact hd₁.scalars x hx
    · have hcode : SetupCode bound (d₁.pending.toList ++ [.const a value]) := by
        refine (hreserved.tracked ht).code.const fun op hop => ?_
        exact ht.touched op (hreserved.pending ▸ hop) a (Nat.le_of_eq hreserved.toNat.symm)
      have hpush := (hreserved.tracked ht).push hcode (by
        simpa [Op.const, Op.reads, LoadOp.reads, Op.writes, LoadOp.writes] using hlt)
      have hscalar : HasScalar { d₁ with pending := d₁.pending.push (.const a value) } value a := by
        simp [HasScalar]
      refine ⟨⟨hpush.code, hpush.touched, ?_, hpush.vectors⟩, hscalar, fun b hb hfree => ?_⟩
      · intro x hx
        rcases List.mem_cons.mp hx with rfl | hx
        · exact hscalar
        · exact hpush.scalars x hx
      · refine Untouched.push (d := d₁) (hreserved.untouched.mpr hfree) ?_
        refine avoids_singleton_of_not_mem (by simp [Op.const, Op.reads, LoadOp.reads]) ?_
        simp only [Op.const, Op.writes, LoadOp.writes, List.mem_singleton]
        rintro rfl
        exact absurd hb (by rw [hreserved.toNat]; exact Nat.lt_irrefl _)

theorem Reserved.tracked_broadcast {a source : Addr} (h : Reserved d laneCount a d')
    (hd : Bounded d) (ht : Tracked bound d) (hsource : source.toNat < d.used) :
    Tracked bound { d' with pending := d'.pending.push (.broadcast a source) } := by
  have hd' := h.bounded hd
  have hlt : a.toNat + laneCount ≤ d'.used := Nat.le_of_eq (by rw [h.toNat, h.used])
  have hfit : a.FitsBlock :=
    Nat.le_trans hlt (Nat.le_trans hd'.used_le (Nat.le_of_lt hd'.capacity_lt))
  have hblock : ∀ b ∈ a.block, d.used ≤ b.toNat ∧ b.toNat < d'.used := by
    intro b hb
    obtain ⟨lane, hlane, rfl⟩ := Addr.mem_block.mp hb
    rw [hfit.toNat_offset hlane, h.toNat, h.used]
    omega
  have hcode : SetupCode bound (d'.pending.toList ++ [.broadcast a source]) := by
    refine (h.tracked ht).code.broadcast (fun op hop b hb => ?_) hfit fun hmem => ?_
    · exact ht.touched op (h.pending ▸ hop) b (hblock b hb).1 b (by simp)
    · exact absurd hsource (Nat.not_lt.mpr (hblock source hmem).1)
  refine (h.tracked ht).push hcode fun b hb => ?_
  rcases List.mem_append.mp hb with hb | hb
  · rw [List.mem_singleton.mp hb]
    exact Nat.lt_of_lt_of_le hsource h.grows.used
  · exact (hblock b hb).2

/-- A vector constant holds its value in every lane. -/
theorem Gives.vectorConstant_spec (bound : Nat) (hd : Bounded d) {value : Word} {a : Addr}
    (h : Gives (Draft.vectorConstant value) d a d') :
    Grows d d' ∧ Bounded d' ∧ a.toNat + laneCount ≤ d'.used ∧
      (Tracked bound d → Tracked bound d' ∧ d'.HasVector value a) := by
  rcases Gives.vectorConstant h with ⟨hlookup, rfl⟩ | ⟨source, d₁, d₂, hsource, hvector, rfl⟩
  · have hmem : (value, a) ∈ d'.pool.vectors := by
      obtain ⟨l₁, l₂, heq, -⟩ := List.lookup_eq_some_iff.mp hlookup
      simp [heq]
    exact ⟨Grows.refl d', hd, hd.vectors _ hmem, fun ht => ⟨ht, ht.vectors _ hmem⟩⟩
  · obtain ⟨hgrows₁, hd₁, hsource_lt, htracked⟩ := Gives.constant_spec bound hd hsource
    have hreserved := hvector hd₁
    have hd₂ := hreserved.bounded hd₁
    have hlt : a.toNat + laneCount ≤ d₂.used :=
      Nat.le_of_eq (by rw [hreserved.toNat, hreserved.used])
    have hgrows : Grows d₂ _ := Grows.emit d₂ (.broadcast a source)
    refine ⟨(hgrows₁.trans hreserved.grows).trans ⟨hgrows.used, hgrows.capacity, hgrows.pending⟩,
      ⟨hd₂.used_le, hd₂.capacity_lt, hd₂.scalars, ?_⟩, hlt, fun ht => ?_⟩
    · intro x hx
      rcases List.mem_cons.mp hx with rfl | hx
      · exact hlt
      · exact hd₂.vectors x hx
    · obtain ⟨ht₁, hscalar, -⟩ := htracked ht
      have hpush := hreserved.tracked_broadcast hd₁ ht₁ hsource_lt
      have hvec : HasVector { d₂ with pending := d₂.pending.push (.broadcast a source) } value a :=
        ⟨source, hgrows.hasScalar (hreserved.grows.hasScalar hscalar), by simp⟩
      refine ⟨⟨hpush.code, hpush.touched, hpush.scalars, fun x hx => ?_⟩, hvec⟩
      rcases List.mem_cons.mp hx with rfl | hx
      · exact hvec
      · exact hpush.vectors x hx

/-! ## Steps that keep both properties -/

structure Kept (wanted : Prop) (bound : Nat) (d : Draft) : Prop where
  bounded : Bounded d
  tracked : wanted → Tracked bound d

variable {wanted : Prop} {α : Type}

theorem Reserved.kept {n : Nat} {a : Addr} (h : Reserved d n a d') (hd : Kept wanted bound d) :
    Kept wanted bound d' :=
  ⟨h.bounded hd.bounded, fun hw => h.tracked (hd.tracked hw)⟩

inductive ReservedEach (n : Nat) : Draft → List Addr → Draft → Prop where
  | nil {d : Draft} : ReservedEach n d [] d
  | cons {d d₁ d' : Draft} {a : Addr} {rest : List Addr} :
    Reserved d n a d₁ → ReservedEach n d₁ rest d' → ReservedEach n d (a :: rest) d'

namespace ReservedEach

variable {n : Nat} {addrs : List Addr}

theorem reserve {d₁ : Draft} {name : Option String} {a : Addr} {rest : List Addr} (hd : Bounded d)
    (h : Gives (Draft.reserve name n) d a d₁) (hrest : Bounded d₁ → ReservedEach n d₁ rest d') :
    ReservedEach n d (a :: rest) d' :=
  have hreserved := Gives.reserve hd h
  .cons hreserved (hrest (hreserved.bounded hd))

theorem grows (h : ReservedEach n d addrs d') : Grows d d' := by
  induction h with
  | nil => exact .refl _
  | cons hfirst _ ih => exact hfirst.grows.trans ih

theorem kept (h : ReservedEach n d addrs d') (hd : Kept wanted bound d) : Kept wanted bound d' := by
  induction h with
  | nil => exact hd
  | cons hfirst _ ih => exact ih (hfirst.kept hd)

theorem pending (h : ReservedEach n d addrs d') : d'.pending = d.pending := by
  induction h with
  | nil => rfl
  | cons hfirst _ ih => exact ih.trans hfirst.pending

theorem used (h : ReservedEach n d addrs d') : d'.used = d.used + addrs.length * n := by
  induction h with
  | nil => simp
  | cons hfirst _ ih =>
    rw [ih, hfirst.used, List.length_cons, Nat.succ_mul]
    omega

theorem toNat (h : ReservedEach n d addrs d') {i : Nat} {a : Addr} (ha : addrs[i]? = some a) :
    a.toNat = d.used + i * n := by
  induction h generalizing i with
  | nil => simp at ha
  | cons hfirst _ ih =>
    cases i with
    | zero =>
      obtain rfl := Option.some.inj ha
      simpa using hfirst.toNat
    | succ i =>
      rw [ih ha, hfirst.used, Nat.succ_mul]
      omega

theorem bounds_of_mem (h : ReservedEach n d addrs d') {a : Addr} (ha : a ∈ addrs) :
    d.used ≤ a.toNat ∧ a.toNat + n ≤ d'.used := by
  induction h with
  | nil => simp at ha
  | cons hfirst hrest ih =>
    have hle := hrest.grows.used
    rw [hfirst.used] at hle
    rcases List.mem_cons.mp ha with rfl | ha
    · rw [hfirst.toNat]
      omega
    · obtain ⟨hlow, hhigh⟩ := ih ha
      rw [hfirst.used] at hlow
      omega

theorem nodup (h : ReservedEach n d addrs d') (hn : 0 < n) : addrs.Nodup := by
  induction h with
  | nil => exact List.nodup_nil
  | cons hfirst hrest ih =>
    refine List.nodup_cons.mpr ⟨fun hmem => ?_, ih⟩
    have hlow := (hrest.bounds_of_mem hmem).1
    rw [hfirst.used, hfirst.toNat] at hlow
    omega

end ReservedEach

/-- The scalar is handed out and, where the draft is tracked, set to the value. -/
def ScalarFor (wanted : Prop) (d : Draft) (value : Word) (a : Addr) : Prop :=
  a.toNat < d.used ∧ (wanted → d.HasScalar value a)

def VectorFor (wanted : Prop) (d : Draft) (value : Word) (a : Addr) : Prop :=
  a.toNat + laneCount ≤ d.used ∧ (wanted → d.HasVector value a)

theorem Grows.scalarFor (h : Grows d d') {value : Word} {a : Addr}
    (ha : ScalarFor wanted d value a) : ScalarFor wanted d' value a :=
  ⟨Nat.lt_of_lt_of_le ha.1 h.used, fun hw => h.hasScalar (ha.2 hw)⟩

theorem Grows.vectorFor (h : Grows d d') {value : Word} {a : Addr}
    (ha : VectorFor wanted d value a) : VectorFor wanted d' value a :=
  ⟨Nat.le_trans ha.1 h.used, fun hw => h.hasVector (ha.2 hw)⟩

theorem Kept.constant (hd : Kept wanted bound d) {value : Word} {a : Addr}
    (h : Gives (Draft.constant value) d a d') :
    Grows d d' ∧ Kept wanted bound d' ∧ ScalarFor wanted d' value a := by
  obtain ⟨hgrows, hbounded, hlt, ht⟩ := Gives.constant_spec bound hd.bounded h
  exact ⟨hgrows, ⟨hbounded, fun hw => (ht (hd.tracked hw)).1⟩, hlt,
    fun hw => (ht (hd.tracked hw)).2.1⟩

theorem Kept.vectorConstant (hd : Kept wanted bound d) {value : Word} {a : Addr}
    (h : Gives (Draft.vectorConstant value) d a d') :
    Grows d d' ∧ Kept wanted bound d' ∧ VectorFor wanted d' value a := by
  obtain ⟨hgrows, hbounded, hlt, ht⟩ := Gives.vectorConstant_spec bound hd.bounded h
  exact ⟨hgrows, ⟨hbounded, fun hw => (ht (hd.tracked hw)).1⟩, hlt,
    fun hw => (ht (hd.tracked hw)).2⟩

/-- What every step of a range keeps, the range keeps; what a step says of its result is still
true at the end if it stays true while the draft grows. -/
theorem Gives.forRange {step : Nat → Drafting α} {P : Nat → Draft → Prop}
    {Q : Nat → α → Draft → Prop}
    (hstep : ∀ i d a d', P i d → Gives (step i) d a d' → Grows d d' ∧ P (i + 1) d' ∧ Q i a d')
    (hstable : ∀ i a d d', Grows d d' → Q i a d → Q i a d') {start count : Nat} {xs : List α}
    (hd : P start d) (h : Gives (Draft.forRange step start count) d xs d') :
    Grows d d' ∧ P (start + count) d' ∧ xs.length = count ∧
      ∀ i x, xs[i]? = some x → Q (start + i) x d' := by
  induction count generalizing start d xs with
  | zero =>
    obtain ⟨rfl, rfl⟩ := gives_pure_iff.mp h
    exact ⟨Grows.refl d', hd, rfl, by simp⟩
  | succ count ih =>
    simp only [Draft.forRange, gives_bind_iff, gives_pure_iff] at h
    obtain ⟨x, d₁, hx, rest, _, hrest, rfl, rfl⟩ := h
    obtain ⟨hgrows, hd₁, hq⟩ := hstep start d x d₁ hd hx
    obtain ⟨hgrows', hd', hlength, hqs⟩ := ih hd₁ hrest
    refine ⟨hgrows.trans hgrows', ?_, by simp [hlength], ?_⟩
    · rwa [show start + 1 + count = start + (count + 1) by omega] at hd'
    · intro i y hy
      cases i with
      | zero =>
        obtain rfl : x = y := by simpa using hy
        exact hstable start x d₁ d' hgrows' hq
      | succ i =>
        rw [show start + (i + 1) = start + 1 + i by omega]
        exact hqs i y (by simpa using hy)

/-! ## Drafts that a build can come to -/

def Fails (step : Drafting α) (d : Draft) (e : OutOfScratch) (d' : Draft) : Prop :=
  perform step d = (.error e, d')

theorem fails_bind {β : Type} {step : Drafting α} {f : α → Drafting β} {e : OutOfScratch}
    (h : Fails (step >>= f) d e d') :
    Fails step d e d' ∨ ∃ a d₁, Gives step d a d₁ ∧ Fails (f a) d₁ e d' := by
  have hrun : perform (step >>= f) d =
      match perform step d with
      | (.ok a, d₁) => perform (f a) d₁
      | (.error e, d₁) => (.error e, d₁) := perform_bind step f d
  rw [Fails, hrun] at h
  rcases hstep : perform step d with ⟨r, d₁⟩
  rw [hstep] at h
  cases r with
  | ok a => exact .inr ⟨a, d₁, hstep, h⟩
  | error e' =>
    simp only [Prod.mk.injEq, Except.error.injEq] at h
    obtain ⟨rfl, rfl⟩ := h
    exact .inl hstep

theorem fails_get_bind {β : Type} {f : Draft → Drafting β} {e : OutOfScratch}
    (h : Fails (do f (← get)) d e d') : Fails (f d) d e d' := by
  rcases fails_bind h with hget | ⟨a, d₁, hget, hf⟩
  · cases hget
  · cases hget
    exact hf

theorem fails_reserve {name : Option String} {n : Nat} {e : OutOfScratch}
    (h : Fails (Draft.reserve name n) d e d') : d' = d := by
  rw [Draft.reserve] at h
  have hmatch := fails_get_bind h
  split at hmatch
  · rcases fails_bind hmatch with hset | ⟨_, _, _, hpure⟩
    · cases hset
    · cases hpure
  · cases hmatch
    rfl

theorem fails_constant {value : Word} {e : OutOfScratch}
    (h : Fails (Draft.constant value) d e d') : d' = d := by
  rw [Draft.constant] at h
  have hmatch := fails_get_bind h
  split at hmatch
  · cases hmatch
  · rcases fails_bind hmatch with hscalar | ⟨addr, d₁, -, hrest⟩
    · exact fails_reserve hscalar
    · cases hrest

/-- A vector constant that does not fit may leave its scalar behind. -/
theorem fails_vectorConstant {value : Word} {e : OutOfScratch}
    (h : Fails (Draft.vectorConstant value) d e d') :
    d' = d ∨ ∃ source, Gives (Draft.constant value) d source d' := by
  rw [Draft.vectorConstant] at h
  have hmatch := fails_get_bind h
  split at hmatch
  · cases hmatch
  · rcases fails_bind hmatch with hscalar | ⟨source, d₁, hsource, hrest⟩
    · exact .inl (fails_constant hscalar)
    · rcases fails_bind hrest with hvector | ⟨_, _, -, hlast⟩
      · obtain rfl := fails_reserve hvector
        exact .inr ⟨source, hsource⟩
      · cases hlast

/-- The drafts of a build on `capacity` words: each step may have succeeded or run out of
scratch. -/
inductive Built (capacity : Nat) : Draft → Prop where
  | fresh : Built capacity (ofCapacity capacity)
  | reserve {d : Draft} (name : Option String) (n : Nat) :
    Built capacity d → Built capacity (perform (Draft.reserve name n) d).2
  | constant {d : Draft} (value : Word) :
    Built capacity d → Built capacity (perform (Draft.constant value) d).2
  | vectorConstant {d : Draft} (value : Word) :
    Built capacity d → Built capacity (perform (Draft.vectorConstant value) d).2
  | emit {d : Draft} (op : Op) : Built capacity d → Built capacity (perform (Draft.emit op) d).2
  | take {d : Draft} : Built capacity d → Built capacity d.take.2

theorem Built.bounded {capacity : Nat} (hcapacity : capacity < 2 ^ 32) (h : Built capacity d) :
    Bounded d := by
  induction h with
  | fresh => exact bounded_ofCapacity hcapacity
  | @reserve d name n _ ih =>
    rcases hr : perform (Draft.reserve name n) d with ⟨r, d'⟩
    cases r with
    | ok a => exact (Gives.reserve ih hr).bounded ih
    | error e => exact fails_reserve hr ▸ ih
  | @constant d value _ ih =>
    rcases hr : perform (Draft.constant value) d with ⟨r, d'⟩
    cases r with
    | ok a => exact (Gives.constant_spec 0 ih hr).2.1
    | error e => exact fails_constant hr ▸ ih
  | @vectorConstant d value _ ih =>
    rcases hr : perform (Draft.vectorConstant value) d with ⟨r, d'⟩
    cases r with
    | ok a => exact (Gives.vectorConstant_spec 0 ih hr).2.1
    | error e =>
      rcases fails_vectorConstant hr with hsame | ⟨source, hsource⟩
      · exact hsame ▸ ih
      · exact (Gives.constant_spec 0 ih hsource).2.1
  | emit op _ ih => exact ih.emit op
  | take _ ih => exact ih.take

end Draft

end TreeWalk
