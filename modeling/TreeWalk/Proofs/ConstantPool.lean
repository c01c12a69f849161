import TreeWalk.Proofs.SetupRun

/-!
# Builds of constants

A build that has only reserved scratch and asked for constants has emitted setup code that writes
the pooled constants and nothing else.
-/

namespace TreeWalk

namespace Draft

variable {d d' : Draft} {capacity : Nat} {value : Word} {a : Addr}

/-- The drafts of a build on `capacity` words that reserves scratch and asks for constants: each
step may have succeeded or run out of scratch. -/
inductive Assembled (capacity : Nat) : Draft → Prop where
  | fresh : Assembled capacity (ofCapacity capacity)
  | reserve {d : Draft} (name : Option String) (n : Nat) :
    Assembled capacity d → Assembled capacity (perform (Draft.reserve name n) d).2
  | constant {d : Draft} (value : Word) :
    Assembled capacity d → Assembled capacity (perform (Draft.constant value) d).2
  | vectorConstant {d : Draft} (value : Word) :
    Assembled capacity d → Assembled capacity (perform (Draft.vectorConstant value) d).2

def Pooled (d : Draft) (i : Nat) : Prop :=
  (∃ x ∈ d.pool.scalars, x.2.toNat = i) ∨
    ∃ x ∈ d.pool.vectors, x.2.toNat ≤ i ∧ i < x.2.toNat + laneCount

instance (d : Draft) (i : Nat) : Decidable (d.Pooled i) :=
  inferInstanceAs (Decidable ((∃ x ∈ d.pool.scalars, x.2.toNat = i) ∨
    ∃ x ∈ d.pool.vectors, x.2.toNat ≤ i ∧ i < x.2.toNat + laneCount))

def WritesPooled (d : Draft) : Prop := ∀ a ∈ written d.pending.toList, d.Pooled a.toNat

namespace Assembled

/-- What a fresh draft has and every step that succeeds keeps, all these drafts have: a step that
runs out of scratch leaves what a successful one leaves, or nothing. -/
theorem of_steps {P : Draft → Prop} (hfresh : P (ofCapacity capacity))
    (hreserve : ∀ {d d' name n a}, P d → Gives (Draft.reserve name n) d a d' → P d')
    (hconstant : ∀ {d d' value a}, P d → Gives (Draft.constant value) d a d' → P d')
    (hvector : ∀ {d d' value a}, P d → Gives (Draft.vectorConstant value) d a d' → P d')
    (h : Assembled capacity d) : P d := by
  induction h with
  | fresh => exact hfresh
  | @reserve d name n _ ih =>
    rcases hr : perform (Draft.reserve name n) d with ⟨r, d'⟩
    cases r with
    | ok a => exact hreserve ih hr
    | error e => exact fails_reserve hr ▸ ih
  | @constant d value _ ih =>
    rcases hr : perform (Draft.constant value) d with ⟨r, d'⟩
    cases r with
    | ok a => exact hconstant ih hr
    | error e => exact fails_constant hr ▸ ih
  | @vectorConstant d value _ ih =>
    rcases hr : perform (Draft.vectorConstant value) d with ⟨r, d'⟩
    cases r with
    | ok a => exact hvector ih hr
    | error e =>
      rcases fails_vectorConstant hr with hsame | ⟨source, hsource⟩
      · exact hsame ▸ ih
      · exact hconstant ih hsource

theorem of_vectorConstant (h : Assembled capacity d)
    (hgives : Gives (Draft.vectorConstant value) d a d') : Assembled capacity d' := by
  have hnext := h.vectorConstant value
  rwa [show perform (Draft.vectorConstant value) d = _ from hgives] at hnext

theorem of_lower {form : Mix.Form} {low : Mix.Lowered} (h : Assembled capacity d)
    (hgives : Gives form.lower d low d') : Assembled capacity d' := by
  cases form with
  | fused multiplier addend =>
    simp only [Mix.Form.lower, gives_bind_iff, gives_pure_iff] at hgives
    obtain ⟨a, d₁, ha, m, _, hm, -, rfl⟩ := hgives
    exact (h.of_vectorConstant ha).of_vectorConstant hm
  | split left leftValue combine right rightValue =>
    simp only [Mix.Form.lower, gives_bind_iff, gives_pure_iff] at hgives
    obtain ⟨l, d₁, hl, r, _, hr, -, rfl⟩ := hgives
    exact (h.of_vectorConstant hl).of_vectorConstant hr

theorem kept (h : Assembled capacity d) (hcapacity : capacity < 2 ^ 32) (bound : Nat) :
    Kept True bound d := by
  refine of_steps ⟨bounded_ofCapacity hcapacity, fun _ => tracked_ofCapacity bound capacity⟩
    (fun hd hgives => ?_) (fun hd hgives => ?_) (fun hd hgives => ?_) h
  · exact (Gives.reserve hd.bounded hgives).kept hd
  · exact (hd.constant hgives).2.1
  · exact (hd.vectorConstant hgives).2.1

theorem capacity_eq (h : Assembled capacity d) (hcapacity : capacity < 2 ^ 32) :
    d.arena.capacity = capacity := by
  have hboth : Bounded d ∧ d.arena.capacity = capacity := by
    refine of_steps (P := fun d => Bounded d ∧ d.arena.capacity = capacity)
      ⟨bounded_ofCapacity hcapacity, rfl⟩ (fun hd hgives => ?_) (fun hd hgives => ?_)
      (fun hd hgives => ?_) h
    · have hreserved := Gives.reserve hd.1 hgives
      exact ⟨hreserved.bounded hd.1, hreserved.capacity.trans hd.2⟩
    · obtain ⟨hgrows, hbounded, -⟩ := Gives.constant_spec 0 hd.1 hgives
      exact ⟨hbounded, hgrows.capacity.trans hd.2⟩
    · obtain ⟨hgrows, hbounded, -⟩ := Gives.vectorConstant_spec 0 hd.1 hgives
      exact ⟨hbounded, hgrows.capacity.trans hd.2⟩
  exact hboth.2

end Assembled

/-! ## Only pooled constants are written -/

theorem Pooled.imp {d d' : Draft} (hscalars : ∀ x ∈ d.pool.scalars, x ∈ d'.pool.scalars)
    (hvectors : ∀ x ∈ d.pool.vectors, x ∈ d'.pool.vectors) {i : Nat} (h : d.Pooled i) :
    d'.Pooled i := by
  rcases h with ⟨x, hx, hi⟩ | ⟨x, hx, hi⟩
  · exact .inl ⟨x, hscalars x hx, hi⟩
  · exact .inr ⟨x, hvectors x hx, hi⟩

theorem WritesPooled.reserve {n : Nat} (hd : d.WritesPooled) (h : Reserved d n a d') :
    d'.WritesPooled := by
  intro b hb
  rw [h.pending] at hb
  exact (hd b hb).imp (fun x hx => h.pool ▸ hx) fun x hx => h.pool ▸ hx

theorem WritesPooled.push {op : Op} {pool : ConstPool} (hd : d.WritesPooled)
    (hscalars : ∀ x ∈ d.pool.scalars, x ∈ pool.scalars)
    (hvectors : ∀ x ∈ d.pool.vectors, x ∈ pool.vectors)
    (hop : ∀ b ∈ op.writes, ({ d with pool } : Draft).Pooled b.toNat) :
    ({ d with pool, pending := d.pending.push op } : Draft).WritesPooled := by
  intro b hb
  rw [Array.toList_push, written_append, List.mem_append] at hb
  rcases hb with hb | hb
  · exact (hd b hb).imp hscalars hvectors
  · exact hop b (by simpa [written] using hb)

theorem WritesPooled.constant (hd : d.WritesPooled) (hbounded : Bounded d)
    (h : Gives (Draft.constant value) d a d') : d'.WritesPooled := by
  rcases Gives.constant hbounded h with ⟨-, rfl⟩ | ⟨d₁, hreserved, rfl⟩
  · exact hd
  · refine (hd.reserve hreserved).push (fun x hx => List.mem_cons_of_mem _ hx) (fun x hx => hx) ?_
    intro b hb
    obtain rfl : b = a := List.mem_singleton.mp hb
    exact .inl ⟨_, List.mem_cons_self, rfl⟩

theorem WritesPooled.vectorConstant (hd : d.WritesPooled) (hbounded : Bounded d)
    (h : Gives (Draft.vectorConstant value) d a d') : d'.WritesPooled := by
  rcases Gives.vectorConstant h with ⟨-, rfl⟩ | ⟨source, d₁, d₂, hsource, hvector, rfl⟩
  · exact hd
  · obtain ⟨-, hbounded₁, -⟩ := Gives.constant_spec 0 hbounded hsource
    have hreserved := hvector hbounded₁
    have hbounded₂ := hreserved.bounded hbounded₁
    have hfit : a.FitsBlock := by
      have hle := hbounded₂.used_le
      have hlt := hbounded₂.capacity_lt
      have hused := hreserved.used
      have hat := hreserved.toNat
      unfold Addr.FitsBlock
      omega
    refine ((hd.constant hbounded hsource).reserve hreserved).push (fun x hx => hx)
      (fun x hx => List.mem_cons_of_mem _ hx) ?_
    intro b hb
    obtain ⟨l, hl, rfl⟩ := Addr.mem_block.mp hb
    refine .inr ⟨_, List.mem_cons_self, ?_⟩
    rw [hfit.toNat_offset hl]
    exact ⟨Nat.le_add_right _ _, Nat.add_lt_add_left hl _⟩

theorem Assembled.writesPooled (h : Assembled capacity d) (hcapacity : capacity < 2 ^ 32) :
    d.WritesPooled := by
  have hboth : Bounded d ∧ d.WritesPooled := by
    refine of_steps (P := fun d => Bounded d ∧ d.WritesPooled) ⟨bounded_ofCapacity hcapacity, ?_⟩
      (fun hd hgives => ?_) (fun hd hgives => ?_) (fun hd hgives => ?_) h
    · simp [WritesPooled, ofCapacity, written]
    · have hreserved := Gives.reserve hd.1 hgives
      exact ⟨hreserved.bounded hd.1, hd.2.reserve hreserved⟩
    · exact ⟨(Gives.constant_spec 0 hd.1 hgives).2.1, hd.2.constant hd.1 hgives⟩
    · exact ⟨(Gives.vectorConstant_spec 0 hd.1 hgives).2.1, hd.2.vectorConstant hd.1 hgives⟩
  exact hboth.2

theorem HasVector.pooled (h : d.HasVector value a) (hd : d.WritesPooled) (hfit : a.FitsBlock)
    {l : Nat} (hl : l < laneCount) : d.Pooled (a.toNat + l) := by
  obtain ⟨source, -, hbroadcast⟩ := h
  have hwritten : a.offset l ∈ written d.pending.toList :=
    mem_written.mpr ⟨_, hbroadcast, Addr.mem_block.mpr ⟨l, hl, rfl⟩⟩
  rw [← hfit.toNat_offset hl]
  exact hd _ hwritten

/-- The emitted code of a build of constants, run on scratch that holds all that is handed out,
sets the pooled constants and changes no other word. -/
theorem Assembled.execute_pending {s : Contents} (h : Assembled capacity d)
    (hcapacity : capacity < 2 ^ 32) (hs : d.used ≤ s.scratch.size) :
    ∃ t, execute d.pending.toList s = some t ∧ Contents.DiffersIn d.Pooled s t ∧
      ∀ op ∈ d.pending.toList, op.IsDone t := by
  obtain ⟨t, ht, hdiffers, hdone⟩ :=
    ((h.kept hcapacity 0).tracked trivial).execute_pending hs (Nat.zero_le _)
  refine ⟨t, ht, hdiffers.mono ?_, hdone⟩
  rintro i ⟨a, ha, rfl⟩
  exact h.writesPooled hcapacity a ha

end Draft

end TreeWalk
