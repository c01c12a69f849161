import TreeWalk.Proofs.DefinedUse
import TreeWalk.Proofs.FrameLayout

/-!
# The setup in order

Setup code reads no scalar before it has set it, and sets none twice. All of it is emitted before
the data of the frame is laid out, so that it stays below the data.
-/

namespace TreeWalk

theorem SetupCode.pairwise_writesApart {bound : Nat} {ops : List Op} (h : SetupCode bound ops) :
    ops.Pairwise Op.WritesApart := by
  have hsnoc {ops : List Op} {op : Op} (hops : ops.Pairwise Op.WritesApart)
      (havoid : ∀ x ∈ ops, x.Avoids op.writes) : (ops ++ [op]).Pairwise Op.WritesApart := by
    apply pairwise_snoc hops
    intro x hx a hxa ha
    exact (havoid x hx a ha).2 hxa
  induction h with
  | nil => exact .nil
  | const _ havoid ih => exact hsnoc ih havoid
  | broadcast _ havoid _ _ ih => exact hsnoc ih havoid
  | load _ havoid _ _ _ ih => exact hsnoc ih havoid

namespace Draft

variable {α β : Type} {d d' d'' : Draft}

/-! ## What every step of a build does -/

/-- The step leads from a draft only to drafts that are related to it. -/
def Leads (R : Draft → Draft → Prop) (step : Drafting α) : Prop :=
  ∀ d a d', Gives step d a d' → R d d'

namespace Leads

variable {R : Draft → Draft → Prop} [IsPreorder Draft R] {step : Drafting α}

theorem pure (a : α) : Leads R (Pure.pure a : Drafting α) := by
  rintro d b d' h
  obtain ⟨-, rfl⟩ := gives_pure_iff.mp h
  exact refl_of R d'

theorem bind {f : α → Drafting β} (h : Leads R step) (hf : ∀ a, Leads R (f a)) :
    Leads R (step >>= f) := by
  intro d b d'' hgives
  obtain ⟨a, d', ha, hb⟩ := gives_bind_iff.mp hgives
  exact trans_of R (h d a d' ha) (hf a d' b d'' hb)

theorem forRange {step : Nat → Drafting α} (h : ∀ i, Leads R (step i)) (start count : Nat) :
    Leads R (Draft.forRange step start count) := by
  induction count generalizing start with
  | zero => exact pure []
  | succ count ih => exact (h start).bind fun x => (ih (start + 1)).bind fun rest => pure _

end Leads

/-! ## Steps that emit nothing -/

def Silent (d d' : Draft) : Prop := d'.pool = d.pool ∧ d'.pending = d.pending

instance : IsPreorder Draft Silent where
  refl _ := ⟨rfl, rfl⟩
  trans _ _ _ h h' := ⟨h'.1.trans h.1, h'.2.trans h.2⟩

theorem leads_reserve (name : Option String) (n : Nat) : Leads Silent (reserve name n) := by
  intro d a d' h
  rw [reserve, gives_get_bind_iff] at h
  split at h
  · simp only [gives_bind_iff, gives_set_iff, gives_pure_iff] at h
    obtain ⟨_, _, rfl, rfl, rfl⟩ := h
    exact ⟨rfl, rfl⟩
  · exact absurd h not_gives_throw

theorem leads_workSet (i : Nat) : Leads Silent (WorkSet.reserve i) :=
  (leads_reserve _ _).bind fun _ => (leads_reserve _ _).bind fun _ =>
    (leads_reserve _ _).bind fun _ => (leads_reserve _ _).bind fun _ =>
      (leads_reserve _ _).bind fun _ => .pure _

theorem leads_reserveIf {condition : Bool} {step : Drafting α} (h : Leads Silent step) :
    Leads Silent (TopNodes.reserveIf condition step) := by
  unfold TopNodes.reserveIf
  split
  · exact h.bind fun _ => .pure _
  · exact .pure _

theorem leads_topNodes (height : Nat) : Leads Silent (TopNodes.reserve height) := by
  have hlevel1 : Leads Silent TopNodes.reserveLevel1 :=
    (leads_reserve _ _).bind fun _ => (leads_reserve _ _).bind fun _ => .pure _
  have hlevel2 : Leads Silent TopNodes.reserveLevel2 :=
    (leads_reserve _ _).bind fun _ => (leads_reserve _ _).bind fun _ =>
      (leads_reserve _ _).bind fun _ => (leads_reserve _ _).bind fun _ => .pure _
  exact (leads_reserve _ _).bind fun _ => (leads_reserve _ _).bind fun _ =>
    (leads_reserveIf hlevel1).bind fun _ => (leads_reserveIf hlevel2).bind fun _ => .pure _

/-! ## Steps that keep the code in order -/

/-- The pending operations define every word before its use, and set all pooled scalars. -/
structure InOrder (d : Draft) : Prop where
  code : DefinesBeforeUse d.pending.toList
  scalars : ∀ x ∈ d.pool.scalars, x.2 ∈ written d.pending.toList

theorem Grows.mem_written (h : Grows d d') {a : Addr} (ha : a ∈ written d.pending.toList) :
    a ∈ written d'.pending.toList := mem_written_of_sublist h.pending.sublist ha

namespace InOrder

theorem ofCapacity (capacity : Nat) : InOrder (ofCapacity capacity) :=
  ⟨definesBeforeUse_iff.mpr trivial, by simp [Draft.ofCapacity]⟩

theorem emit (h : d.InOrder) {op : Op} (hop : ∀ a ∈ op.reads, a ∈ written d.pending.toList) :
    InOrder { d with pending := d.pending.push op } := by
  refine ⟨definesBeforeUse_iff.mpr ?_, fun x hx => (Grows.emit d op).mem_written (h.scalars x hx)⟩
  rw [Array.toList_push]
  exact (definesBeforeUse_iff.mp h.code).append (UsesDefined.singleton_iff.mpr hop) fun a => Or.inr

theorem silent (h : d.InOrder) (hsilent : Silent d d') : d'.InOrder :=
  ⟨hsilent.2 ▸ h.code, hsilent.1 ▸ hsilent.2 ▸ h.scalars⟩

theorem constant (h : d.InOrder) (hd : Bounded d) {value : Word} {a : Addr}
    (hgives : Gives (Draft.constant value) d a d') :
    d'.InOrder ∧ a ∈ written d'.pending.toList := by
  rcases Gives.constant hd hgives with ⟨hlookup, rfl⟩ | ⟨d₁, hreserved, rfl⟩
  · obtain ⟨l₁, l₂, heq, -⟩ := List.lookup_eq_some_iff.mp hlookup
    exact ⟨h, h.scalars (value, a) (by simp [heq])⟩
  · have h₁ : d₁.InOrder := h.silent ⟨hreserved.pool, hreserved.pending⟩
    have hreads : ∀ b ∈ (Op.const a value).reads, b ∈ written d₁.pending.toList := by
      simp [Op.const, Op.reads, LoadOp.reads]
    have h₂ := h₁.emit hreads
    have hset : a ∈ written (d₁.pending.push (.const a value)).toList := by
      simp [mem_written, Op.const, Op.writes, LoadOp.writes]
    refine ⟨⟨h₂.code, fun x hx => ?_⟩, hset⟩
    rcases List.mem_cons.mp hx with rfl | hx
    · exact hset
    · exact h₂.scalars x hx

theorem vectorConstant (h : d.InOrder) (hd : Bounded d) {value : Word} {a : Addr}
    (hgives : Gives (Draft.vectorConstant value) d a d') : d'.InOrder := by
  rcases Gives.vectorConstant hgives with ⟨-, rfl⟩ | ⟨source, d₁, d₂, hsource, hvector, rfl⟩
  · exact h
  · obtain ⟨h₁, hset⟩ := h.constant hd hsource
    obtain ⟨-, hd₁, -⟩ := Gives.constant_spec 0 hd hsource
    have hreserved := hvector hd₁
    have h₂ : d₂.InOrder := h₁.silent ⟨hreserved.pool, hreserved.pending⟩
    have hreads : ∀ b ∈ (Op.broadcast a source).reads, b ∈ written d₂.pending.toList := by
      intro b hb
      rw [List.mem_singleton.mp hb]
      exact hreserved.grows.mem_written hset
    exact ⟨(h₂.emit hreads).code, (h₂.emit hreads).scalars⟩

theorem loadFrom (h : d.InOrder) (hd : Bounded d) {first : Nat} {dests : List Addr} {u : Unit}
    (hgives : Gives (HeaderRegs.loadFrom first dests) d u d') :
    Grows d d' ∧ d'.InOrder ∧ ∀ b ∈ dests, b ∈ written d'.pending.toList := by
  induction dests generalizing first d with
  | nil =>
    obtain ⟨-, rfl⟩ := gives_pure_iff.mp hgives
    exact ⟨.refl d', h, by simp⟩
  | cons dest rest ih =>
    simp only [HeaderRegs.loadFrom, gives_bind_iff, gives_emit_iff] at hgives
    obtain ⟨addr, d₁, haddr, _, d₂, rfl, hrest⟩ := hgives
    obtain ⟨h₁, hset⟩ := h.constant hd haddr
    obtain ⟨hgrows₁, hd₁, -⟩ := Gives.constant_spec 0 hd haddr
    have hreads : ∀ b ∈ (Op.loadWord dest addr).reads, b ∈ written d₁.pending.toList := by
      intro b hb
      rwa [List.mem_singleton.mp hb]
    obtain ⟨hgrows, h', hloaded⟩ := ih (h₁.emit hreads) (hd₁.emit _) hrest
    refine ⟨(hgrows₁.trans (.emit d₁ _)).trans hgrows, h', fun b hb => ?_⟩
    rcases List.mem_cons.mp hb with rfl | hb
    · exact hgrows.mem_written (by simp [mem_written, Op.loadWord, Op.writes, LoadOp.writes])
    · exact hloaded b hb

end InOrder

structure Sound (d : Draft) : Prop where
  kept : Kept True HeaderRegs.wordCount d
  inOrder : d.InOrder

def KeepsSound (d d' : Draft) : Prop := d.Sound → Grows d d' ∧ d'.Sound

instance : IsPreorder Draft KeepsSound where
  refl d h := ⟨.refl d, h⟩
  trans _ _ _ h h' hd := ⟨(h hd).1.trans (h' (h hd).2).1, (h' (h hd).2).2⟩

theorem leads_region (name : String) (n : Nat) : Leads KeepsSound (region name n) := by
  intro d a d' h hd
  have hreserved := Gives.region hd.kept.bounded h
  exact ⟨hreserved.grows, hreserved.kept hd.kept,
    hd.inOrder.silent ⟨hreserved.pool, hreserved.pending⟩⟩

theorem leads_constant (value : Word) : Leads KeepsSound (constant value) := by
  intro d a d' h hd
  obtain ⟨hgrows, hkept, -⟩ := hd.kept.constant h
  exact ⟨hgrows, hkept, (hd.inOrder.constant hd.kept.bounded h).1⟩

theorem leads_vectorConstant (value : Word) : Leads KeepsSound (vectorConstant value) := by
  intro d a d' h hd
  obtain ⟨hgrows, hkept, -⟩ := hd.kept.vectorConstant h
  exact ⟨hgrows, hkept, hd.inOrder.vectorConstant hd.kept.bounded h⟩

theorem leads_lower (form : Mix.Form) : Leads KeepsSound form.lower := by
  cases form with
  | fused multiplier addend =>
    exact (leads_vectorConstant _).bind fun _ => (leads_vectorConstant _).bind fun _ => .pure _
  | split left leftValue combine right rightValue =>
    exact (leads_vectorConstant _).bind fun _ => (leads_vectorConstant _).bind fun _ => .pure _

theorem leads_lowerStages (stages : List Mix.Stage) :
    Leads KeepsSound (Frame.lowerStages stages) := by
  induction stages with
  | nil => exact .pure _
  | cons stage rest ih => exact (leads_lower _).bind fun _ => ih.bind fun _ => .pure _

theorem Sound.loadHeader (hd : d.Sound) {header : HeaderRegs}
    (h : Gives HeaderRegs.load d header d') :
    Grows d d' ∧ d'.Sound ∧ ∀ b ∈ header.words, b ∈ written d'.pending.toList := by
  obtain ⟨hgrows, hkept, -⟩ := HeaderRegs.load_spec hd.kept h
  simp only [HeaderRegs.load, gives_bind_iff, gives_pure_iff] at h
  obtain ⟨r₀, d₀, h₀, r₁, d₁, h₁, r₂, d₂, h₂, r₃, d₃, h₃, r₄, d₄, h₄, r₅, d₅, h₅, r₆, d₆, h₆, _, _,
    hload, rfl, rfl⟩ := h
  have hscalar {name : String} {r : Addr} {d d' : Draft} (h : Gives (scalar name) d r d')
      (hd : d.Sound) : d'.Sound := (leads_region name 1 d r d' h hd).2
  have hd₆ : d₆.Sound := hscalar h₆ (hscalar h₅ (hscalar h₄ (hscalar h₃ (hscalar h₂ (hscalar h₁
    (hscalar h₀ hd))))))
  obtain ⟨-, hinOrder, hloaded⟩ := hd₆.inOrder.loadFrom hd₆.kept.bounded hload
  exact ⟨hgrows, ⟨hkept, hinOrder⟩, hloaded⟩

theorem Sound.lt_used (hd : d.Sound) {a : Addr} (ha : a ∈ written d.pending.toList) :
    a.toNat < d.used := by
  obtain ⟨op, hop, hw⟩ := mem_written.mp ha
  by_contra hle
  exact ((hd.kept.tracked trivial).touched op hop a (Nat.le_of_not_lt hle) a
    (List.mem_singleton.mpr rfl)).2 hw

theorem Sound.broadcast (hd : d.Sound) {name : String} {a source : Addr}
    (h : Gives (vector name) d a d') (hsource : source ∈ written d.pending.toList) :
    Sound { d' with pending := d'.pending.push (.broadcast a source) } := by
  have hreserved := Gives.vector hd.kept.bounded h
  have hsilent : Silent d d' := leads_reserve _ _ _ _ _ h
  have hreads : ∀ b ∈ (Op.broadcast a source).reads, b ∈ written d'.pending.toList := by
    intro b hb
    rw [List.mem_singleton.mp hb, hsilent.2]
    exact hsource
  refine ⟨⟨(hreserved.bounded hd.kept.bounded).emit _, fun hw => ?_⟩,
    (hd.inOrder.silent hsilent).emit hreads⟩
  exact hreserved.tracked_broadcast hd.kept.bounded (hd.kept.tracked hw) (hd.lt_used hsource)

end Draft

open Draft

/-- A frame is laid out in two parts: the code that sets it up comes first, and its data lie behind
every word that this code knows of. -/
theorem Frame.reserve_code {d d' : Draft} (hd : d.Sound) {shape : FrameShape} {f : Frame}
    (h : Gives (Frame.reserve shape) d f d') :
    ∃ e, e.Sound ∧ Silent e d' ∧ f.indices.toNat = e.used := by
  simp only [Frame.reserve, gives_bind_iff, gives_emit_iff, gives_pure_iff] at h
  obtain ⟨header, d₁, hheader, numbers, d₂, hnumbers, one, d₃, hone, two, d₄, htwo, three, d₅,
    hthree, nodeCount, d₆, hnodeCount, _, d₇, rfl, stages, d₈, hstages, chunkOffsets, d₉,
    hchunkOffsets, topOffsets, e₁, htopOffsets, indices, e₂, hindices, values, e₃, hvalues,
    workSets, e₄, hworkSets, top, e₅, htop, transferAddrs, _, htransfer, rfl, rfl⟩ := h
  obtain ⟨g₁, k₁, hloaded⟩ := hd.loadHeader hheader
  have hconstants (number : Nat → Nat) (count : Nat) :
      Leads KeepsSound (forRange (fun i => Frame.numberConstant (number i)) 0 count) :=
    Leads.forRange (fun i => leads_constant _) 0 count
  obtain ⟨g₂, k₂⟩ := hconstants id 4 _ _ _ hnumbers k₁
  obtain ⟨g₃, k₃⟩ := leads_vectorConstant 1 _ _ _ hone k₂
  obtain ⟨g₄, k₄⟩ := leads_vectorConstant 2 _ _ _ htwo k₃
  obtain ⟨g₅, k₅⟩ := leads_vectorConstant 3 _ _ _ hthree k₄
  have hnodes : header.nodeCount ∈ written d₅.pending.toList :=
    (g₂.trans (g₃.trans (g₄.trans g₅))).mem_written (hloaded _ (by simp [HeaderRegs.words]))
  have k₇ := k₅.broadcast hnodeCount hnodes
  obtain ⟨-, k₈⟩ := leads_lowerStages _ _ _ _ hstages k₇
  obtain ⟨-, k₉⟩ := hconstants (· * laneCount) _ _ _ _ hchunkOffsets k₈
  obtain ⟨-, l₁⟩ := hconstants id _ _ _ _ htopOffsets k₉
  have hdata : Silent e₁ d' :=
    trans_of Silent (leads_reserve _ _ _ _ _ hindices) <|
      trans_of Silent (leads_reserve _ _ _ _ _ hvalues) <|
        trans_of Silent (Leads.forRange leads_workSet _ _ _ _ _ hworkSets) <|
          trans_of Silent (leads_topNodes _ _ _ _ htop) (leads_reserve _ _ _ _ _ htransfer)
  exact ⟨e₁, l₁, hdata, (Gives.region l₁.kept.bounded hindices).toNat⟩

/-- What a frame is that is laid out in fresh scratch: its code is tracked and in order, and writes
only below its data. -/
structure Frame.LaidOut (f : Frame) (shape : FrameShape) (d : Draft) : Prop where
  layout : f.Layout shape d.used
  setBy : f.SetBy shape d
  tracked : Tracked HeaderRegs.wordCount d
  code : DefinesBeforeUse d.pending.toList
  below : ∀ a ∈ written d.pending.toList, a.toNat < f.indices.toNat

theorem Frame.laidOut_of_reserve {capacity : Nat} (hcapacity : capacity < 2 ^ 32) {d : Draft}
    {shape : FrameShape} {f : Frame}
    (h : Gives (Frame.reserve shape) (.ofCapacity capacity) f d) :
    f.LaidOut shape d ∧ d.used ≤ capacity := by
  have hfresh : Sound (.ofCapacity capacity) :=
    ⟨⟨bounded_ofCapacity hcapacity, fun _ => tracked_ofCapacity _ _⟩, .ofCapacity capacity⟩
  obtain ⟨hgrows, hd, hf, hset⟩ := Frame.reserve_spec hfresh.kept h
  obtain ⟨e, he, hsilent, hindices⟩ := Frame.reserve_code hfresh h
  have hbelow : ∀ a ∈ written d.pending.toList, a.toNat < f.indices.toNat := by
    intro a ha
    rw [hindices]
    exact he.lt_used (hsilent.2 ▸ ha)
  refine ⟨⟨hf, hset trivial, hd.tracked trivial, (he.inOrder.silent hsilent).code, hbelow⟩, ?_⟩
  have hle := hd.bounded.used_le
  rwa [hgrows.capacity] at hle

end TreeWalk
