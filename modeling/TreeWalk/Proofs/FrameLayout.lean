import Mathlib.Data.List.Forall2
import Mathlib.Data.List.Nodup
import TreeWalk.Kernel.Frame
import TreeWalk.Proofs.DraftSteps

/-!
# Layout of a frame

Constants and header scalars lie below the batch's indices, everything that a kernel changes lies
from there on: indices, values, work sets, top nodes and transfer addresses, in that order and
without overlap. What is set up before the kernel starts is the header and the constants.
-/

namespace TreeWalk

namespace Mix

/-- A lowered form has the opcodes of the form, and constants of which `P` holds. -/
def Lowered.Carries (P : Word → Addr → Prop) : Form → Lowered → Prop
  | .fused multiplier addend, .fused m a => P multiplier m ∧ P addend a
  | .split left leftValue combine right rightValue, .split left' l combine' right' r =>
    left' = left ∧ combine' = combine ∧ right' = right ∧ P leftValue l ∧ P rightValue r
  | _, _ => False

theorem Lowered.Carries.imp {P Q : Word → Addr → Prop} (hPQ : ∀ v a, P v a → Q v a) {form : Form}
    {lowered : Lowered} (h : Lowered.Carries P form lowered) :
    Lowered.Carries Q form lowered := by
  cases form <;> cases lowered <;> simp only [Lowered.Carries] at h ⊢
  · exact ⟨hPQ _ _ h.1, hPQ _ _ h.2⟩
  · obtain ⟨hl, hc, hr, hlv, hrv⟩ := h
    exact ⟨hl, hc, hr, hPQ _ _ hlv, hPQ _ _ hrv⟩

def forms : List Form := standard.map Form.ofStage

def AllCarry (P : Word → Addr → Prop) (lowered : List Lowered) : Prop :=
  List.Forall₂ (Lowered.Carries P) forms lowered

theorem AllCarry.imp {P Q : Word → Addr → Prop} (hPQ : ∀ v a, P v a → Q v a)
    {lowered : List Lowered} (h : AllCarry P lowered) : AllCarry Q lowered :=
  List.Forall₂.imp (fun _ _ => Lowered.Carries.imp hPQ) h

theorem Lowered.Carries.and {P Q : Word → Addr → Prop} {form : Form} {lowered : Lowered}
    (h : Lowered.Carries P form lowered) (h' : Lowered.Carries Q form lowered) :
    Lowered.Carries (fun v a => P v a ∧ Q v a) form lowered := by
  cases form <;> cases lowered <;> simp only [Lowered.Carries] at h h' ⊢
  · exact ⟨⟨h.1, h'.1⟩, ⟨h.2, h'.2⟩⟩
  · obtain ⟨hl, hc, hr, hlv, hrv⟩ := h
    exact ⟨hl, hc, hr, ⟨hlv, h'.2.2.2.1⟩, ⟨hrv, h'.2.2.2.2⟩⟩

theorem AllCarry.and {P Q : Word → Addr → Prop} {lowered : List Lowered} (h : AllCarry P lowered)
    (h' : AllCarry Q lowered) : AllCarry (fun v a => P v a ∧ Q v a) lowered := by
  have hand {forms : List Form} {lowered : List Lowered}
      (h : List.Forall₂ (Lowered.Carries P) forms lowered)
      (h' : List.Forall₂ (Lowered.Carries Q) forms lowered) :
      List.Forall₂ (Lowered.Carries fun v a => P v a ∧ Q v a) forms lowered := by
    induction h with
    | nil => exact .nil
    | cons hfirst _ ih =>
      cases h' with
      | cons hfirst' hrest' => exact .cons (hfirst.and hfirst') (ih hrest')
  exact hand h h'

end Mix

section Steps

open Draft

variable {wanted : Prop} {bound : Nat} {d d' : Draft}

theorem Mix.Form.lower_spec (hd : Kept wanted bound d) {form : Mix.Form} {lowered : Mix.Lowered}
    (h : Gives form.lower d lowered d') :
    Grows d d' ∧ Kept wanted bound d' ∧ lowered.Carries (VectorFor wanted d') form := by
  cases form with
  | fused multiplier addend =>
    simp only [Mix.Form.lower, gives_bind_iff, gives_pure_iff] at h
    obtain ⟨a, d₁, ha, m, _, hm, rfl, rfl⟩ := h
    obtain ⟨hgrows, hd₁, hfor⟩ := hd.vectorConstant ha
    obtain ⟨hgrows', hd', hfor'⟩ := hd₁.vectorConstant hm
    exact ⟨hgrows.trans hgrows', hd', hfor', hgrows'.vectorFor hfor⟩
  | split left leftValue combine right rightValue =>
    simp only [Mix.Form.lower, gives_bind_iff, gives_pure_iff] at h
    obtain ⟨l, d₁, hl, r, _, hr, rfl, rfl⟩ := h
    obtain ⟨hgrows, hd₁, hfor⟩ := hd.vectorConstant hl
    obtain ⟨hgrows', hd', hfor'⟩ := hd₁.vectorConstant hr
    exact ⟨hgrows.trans hgrows', hd', rfl, rfl, rfl, hgrows'.vectorFor hfor, hfor'⟩

theorem Frame.lowerStages_spec (hd : Kept wanted bound d) {stages : List Mix.Stage}
    {lowered : List Mix.Lowered} (h : Gives (Frame.lowerStages stages) d lowered d') :
    Grows d d' ∧ Kept wanted bound d' ∧
      List.Forall₂ (Mix.Lowered.Carries (VectorFor wanted d')) (stages.map Mix.Form.ofStage)
        lowered := by
  induction stages generalizing d lowered with
  | nil =>
    obtain ⟨rfl, rfl⟩ := gives_pure_iff.mp h
    exact ⟨Grows.refl d', hd, .nil⟩
  | cons stage rest ih =>
    simp only [Frame.lowerStages, gives_bind_iff, gives_pure_iff] at h
    obtain ⟨first, d₁, hfirst, more, _, hmore, rfl, rfl⟩ := h
    obtain ⟨hgrows, hd₁, hcarries⟩ := Mix.Form.lower_spec hd hfirst
    obtain ⟨hgrows', hd', hall⟩ := ih hd₁ hmore
    exact ⟨hgrows.trans hgrows', hd',
      .cons (hcarries.imp fun _ _ => hgrows'.vectorFor) hall⟩

theorem Gives.numberConstants (number : Nat → Nat) (hd : Kept wanted bound d) {start count : Nat}
    {xs : List Addr}
    (h : Gives (Draft.forRange (fun i => Frame.numberConstant (number i)) start count) d xs d') :
    Grows d d' ∧ Kept wanted bound d' ∧ xs.length = count ∧
      ∀ i a, xs[i]? = some a →
        ScalarFor wanted d' (UInt32.ofNat (number (start + i))) a := by
  refine Gives.forRange (P := fun _ => Kept wanted bound)
    (Q := fun i a d => ScalarFor wanted d (UInt32.ofNat (number i)) a) ?_ ?_ hd h
  · intro i d a d' hd ha
    exact hd.constant ha
  · exact fun i a d d' hgrows ha => hgrows.scalarFor ha

theorem HeaderRegs.loadFrom_spec (bound : Nat) (hd : Bounded d) {first : Nat}
    {dests : List Addr} {u : Unit} (h : Gives (HeaderRegs.loadFrom first dests) d u d')
    (hdests : ∀ b ∈ dests, b.toNat < d.used) :
    Grows d d' ∧ Bounded d' ∧
      (Tracked bound d → dests.Nodup → (∀ b ∈ dests, d.Untouched b) →
        first + dests.length ≤ bound → bound ≤ 2 ^ 32 →
        Tracked bound d' ∧ ∀ i b, dests[i]? = some b →
          ∃ a, d'.HasScalar (UInt32.ofNat (first + i)) a ∧
            Op.loadWord b a ∈ d'.pending.toList) := by
  induction dests generalizing first d with
  | nil =>
    obtain ⟨-, rfl⟩ := gives_pure_iff.mp h
    exact ⟨Grows.refl d', hd, fun ht _ _ _ _ => ⟨ht, by simp⟩⟩
  | cons dest rest ih =>
    simp only [HeaderRegs.loadFrom, gives_bind_iff, gives_emit_iff] at h
    obtain ⟨addr, d₁, haddr, _, d₂, rfl, hrest⟩ := h
    obtain ⟨hgrows₁, hd₁, hlt, htracked⟩ := Gives.constant_spec bound hd haddr
    have hgrows₂ := Grows.emit d₁ (.loadWord dest addr)
    obtain ⟨hgrows₃, hd', hmore⟩ := ih (hd₁.emit _) hrest fun b hb =>
      Nat.lt_of_lt_of_le (hdests b (List.mem_cons_of_mem dest hb)) hgrows₁.used
    refine ⟨(hgrows₁.trans hgrows₂).trans hgrows₃, hd', fun ht hnodup hfree hbound hword => ?_⟩
    obtain ⟨hdest, hnodup⟩ := List.nodup_cons.mp hnodup
    rw [List.length_cons] at hbound
    obtain ⟨ht₁, hscalar, hkeep⟩ := htracked ht
    have hfree₁ : ∀ b ∈ dest :: rest, d₁.Untouched b :=
      fun b hb => hkeep b (hdests b hb) (hfree b hb)
    have hvalue : (UInt32.ofNat first).toNat < bound := by
      rw [UInt32.toNat_ofNat_of_lt' (Nat.lt_of_lt_of_le (by omega) hword)]
      omega
    obtain ⟨ht₂, hkeep₂⟩ := ht₁.push_loadWord hscalar hvalue (hfree₁ dest List.mem_cons_self) hlt
      (Nat.lt_of_lt_of_le (hdests dest List.mem_cons_self) hgrows₁.used)
    obtain ⟨ht', hloads⟩ := hmore ht₂ hnodup
      (fun b hb => hkeep₂ b (ne_of_mem_of_not_mem hb hdest)
        (hfree₁ b (List.mem_cons_of_mem dest hb)))
      (by omega) hword
    refine ⟨ht', fun i b hb => ?_⟩
    cases i with
    | zero =>
      obtain rfl : dest = b := by simpa using hb
      exact ⟨addr, (hgrows₂.trans hgrows₃).hasScalar hscalar, hgrows₃.mem (by simp)⟩
    | succ i =>
      rw [show first + (i + 1) = first + 1 + i by omega]
      exact hloads i b (by simpa using hb)

def HeaderRegs.LoadedBy (header : HeaderRegs) (d : Draft) : Prop :=
  ∀ i b, header.words[i]? = some b →
    ∃ a, d.HasScalar (UInt32.ofNat i) a ∧ Op.loadWord b a ∈ d.pending.toList

theorem HeaderRegs.load_spec (hd : Kept wanted HeaderRegs.wordCount d) {header : HeaderRegs}
    (h : Gives HeaderRegs.load d header d') :
    Grows d d' ∧ Kept wanted HeaderRegs.wordCount d' ∧ (∀ a ∈ header.words, a.toNat < d'.used) ∧
      (wanted → header.LoadedBy d') := by
  simp only [HeaderRegs.load, gives_bind_iff, gives_pure_iff] at h
  obtain ⟨r₀, d₀, h₀, r₁, d₁, h₁, r₂, d₂, h₂, r₃, d₃, h₃, r₄, d₄, h₄, r₅, d₅, h₅, r₆, d₆, h₆, _, _,
    hload, rfl, rfl⟩ := h
  have hall : ReservedEach 1 d [r₀, r₁, r₂, r₃, r₄, r₅, r₆] d₆ :=
    .reserve hd.bounded h₀ fun hd => .reserve hd h₁ fun hd => .reserve hd h₂ fun hd =>
      .reserve hd h₃ fun hd => .reserve hd h₄ fun hd => .reserve hd h₅ fun hd =>
        .reserve hd h₆ fun _ => .nil
  have hd₆ := hall.kept hd
  obtain ⟨hgrows, hd', htracked⟩ := HeaderRegs.loadFrom_spec HeaderRegs.wordCount
    hd₆.bounded hload fun b hb => (hall.bounds_of_mem hb).2
  have hloads (hw : wanted) := htracked (hd₆.tracked hw) (hall.nodup Nat.zero_lt_one)
    (fun b hb op hop => (hd.tracked hw).touched op (hall.pending ▸ hop) b
      (hall.bounds_of_mem hb).1)
    (Nat.le_refl 7) (by decide)
  refine ⟨hall.grows.trans hgrows, ⟨hd', fun hw => (hloads hw).1⟩, fun a ha =>
    Nat.lt_of_lt_of_le (hall.bounds_of_mem ha).2 hgrows.used, fun hw i b hb => ?_⟩
  simpa using (hloads hw).2 i b hb

end Steps

/-! ## Work sets and top nodes -/

def WorkSet.length : Nat := 5 * laneCount

structure WorkSet.At (w : WorkSet) (start : Nat) : Prop where
  nodes : w.nodes.toNat = start
  left : w.left.toNat = start + laneCount
  right : w.right.toNat = start + 2 * laneCount
  gather : w.gather.toNat = start + 3 * laneCount
  spare : w.spare.toNat = start + 4 * laneCount

structure TopNodes.At (t : TopNodes) (height start stop : Nat) : Prop where
  depth : t.depth = depthFor height
  scalars : t.scalars.toNat = start
  addrs : t.addrs.toNat = start + t.count
  level1 : match t.level1 with
    | some (n1, n2) => 1 ≤ t.depth ∧ n1.toNat = start + 2 * t.count ∧
      n2.toNat = start + 2 * t.count + laneCount
    | none => t.depth < 1
  level2 : match t.level2 with
    | some (n0, n1, n2, n3) => 2 ≤ t.depth ∧ n0.toNat = start + 2 * t.count + 2 * laneCount ∧
      n1.toNat = start + 2 * t.count + 3 * laneCount ∧
      n2.toNat = start + 2 * t.count + 4 * laneCount ∧
      n3.toNat = start + 2 * t.count + 5 * laneCount
    | none => t.depth < 2
  stop : start + 2 * t.count + (if 1 ≤ t.depth then 2 * laneCount else 0) +
    (if 2 ≤ t.depth then 4 * laneCount else 0) = stop

section Blocks

open Draft

variable {wanted : Prop} {bound : Nat} {d d' : Draft}

theorem WorkSet.reserve_spec (hd : Kept wanted bound d) {i : Nat} {w : WorkSet}
    (h : Gives (WorkSet.reserve i) d w d') :
    Grows d d' ∧ Kept wanted bound d' ∧ w.At d.used ∧ d'.used = d.used + WorkSet.length := by
  simp only [WorkSet.reserve, gives_bind_iff, gives_pure_iff] at h
  obtain ⟨nodes, d₀, h₀, left, d₁, h₁, right, d₂, h₂, gather, d₃, h₃, spare, _, h₄, rfl, rfl⟩ := h
  have hall : ReservedEach laneCount d [nodes, left, right, gather, spare] d' :=
    .reserve hd.bounded h₀ fun hd => .reserve hd h₁ fun hd => .reserve hd h₂ fun hd =>
      .reserve hd h₃ fun hd => .reserve hd h₄ fun _ => .nil
  refine ⟨hall.grows, hall.kept hd, ⟨?_, ?_, ?_, ?_, ?_⟩, hall.used⟩
  · simpa using hall.toNat (i := 0) rfl
  · simpa using hall.toNat (i := 1) rfl
  · exact hall.toNat (i := 2) rfl
  · exact hall.toNat (i := 3) rfl
  · exact hall.toNat (i := 4) rfl

theorem WorkSet.forRange_spec (hd : Kept wanted bound d) {count : Nat} {ws : List WorkSet}
    (h : Gives (Draft.forRange WorkSet.reserve 0 count) d ws d') :
    Grows d d' ∧ Kept wanted bound d' ∧ ws.length = count ∧
      (∀ i (w : WorkSet), ws[i]? = some w → w.At (d.used + i * WorkSet.length)) ∧
      d'.used = d.used + count * WorkSet.length := by
  obtain ⟨hgrows, ⟨hd', hused⟩, hlength, hws⟩ := Gives.forRange
    (P := fun i e => Kept wanted bound e ∧ e.used = d.used + i * WorkSet.length)
    (Q := fun i (w : WorkSet) _ => w.At (d.used + i * WorkSet.length)) (by
      rintro i e w e' ⟨he, hused⟩ hw
      obtain ⟨hgrows, he', hat, hused'⟩ := WorkSet.reserve_spec he hw
      exact ⟨hgrows, ⟨he', by rw [hused', hused, Nat.succ_mul, Nat.add_assoc]⟩, hused ▸ hat⟩)
    (fun _ _ _ _ _ hat => hat) ⟨hd, by simp⟩ h
  exact ⟨hgrows, hd', hlength, fun i w hw => by simpa using hws i w hw, by simpa using hused⟩

theorem TopNodes.reserveIf_spec {α : Type} {condition : Bool} {step : Drafting α} {r : Option α}
    (h : Gives (TopNodes.reserveIf condition step) d r d') :
    (condition = false ∧ r = none ∧ d' = d) ∨
      ∃ a, condition = true ∧ r = some a ∧ Gives step d a d' := by
  unfold TopNodes.reserveIf at h
  split at h
  · rename_i hc
    simp only [gives_bind_iff, gives_pure_iff] at h
    obtain ⟨a, _, ha, rfl, rfl⟩ := h
    exact .inr ⟨a, hc, rfl, ha⟩
  · rename_i hc
    obtain ⟨rfl, rfl⟩ := gives_pure_iff.mp h
    exact .inl ⟨by simpa using hc, rfl, rfl⟩

theorem TopNodes.reserveLevel1_spec (hd : Kept wanted bound d) {n1 n2 : Addr}
    (h : Gives TopNodes.reserveLevel1 d (n1, n2) d') :
    Grows d d' ∧ Kept wanted bound d' ∧ n1.toNat = d.used ∧ n2.toNat = d.used + laneCount ∧
      d'.used = d.used + 2 * laneCount := by
  simp only [TopNodes.reserveLevel1, gives_bind_iff, gives_pure_iff, Prod.mk.injEq] at h
  obtain ⟨_, d₁, h₁, _, _, h₂, ⟨rfl, rfl⟩, rfl⟩ := h
  have hall : ReservedEach laneCount d [n1, n2] d' :=
    .reserve hd.bounded h₁ fun hd => .reserve hd h₂ fun _ => .nil
  refine ⟨hall.grows, hall.kept hd, ?_, ?_, hall.used⟩
  · simpa using hall.toNat (i := 0) rfl
  · simpa using hall.toNat (i := 1) rfl

theorem TopNodes.reserveLevel2_spec (hd : Kept wanted bound d) {n0 n1 n2 n3 : Addr}
    (h : Gives TopNodes.reserveLevel2 d (n0, n1, n2, n3) d') :
    Grows d d' ∧ Kept wanted bound d' ∧ n0.toNat = d.used ∧ n1.toNat = d.used + laneCount ∧
      n2.toNat = d.used + 2 * laneCount ∧ n3.toNat = d.used + 3 * laneCount ∧
      d'.used = d.used + 4 * laneCount := by
  simp only [TopNodes.reserveLevel2, gives_bind_iff, gives_pure_iff, Prod.mk.injEq] at h
  obtain ⟨_, d₀, h₀, _, d₁, h₁, _, d₂, h₂, _, _, h₃, ⟨rfl, rfl, rfl, rfl⟩, rfl⟩ := h
  have hall : ReservedEach laneCount d [n0, n1, n2, n3] d' :=
    .reserve hd.bounded h₀ fun hd => .reserve hd h₁ fun hd => .reserve hd h₂ fun hd =>
      .reserve hd h₃ fun _ => .nil
  refine ⟨hall.grows, hall.kept hd, ?_, ?_, ?_, ?_, hall.used⟩
  · simpa using hall.toNat (i := 0) rfl
  · simpa using hall.toNat (i := 1) rfl
  · exact hall.toNat (i := 2) rfl
  · exact hall.toNat (i := 3) rfl

theorem TopNodes.reserveIf_reserveLevel1_spec (hd : Kept wanted bound d) {depth : Nat}
    {level1 : Option (Addr × Addr)}
    (h : Gives (TopNodes.reserveIf (1 ≤ depth) TopNodes.reserveLevel1) d level1 d') :
    Grows d d' ∧ Kept wanted bound d' ∧
      (match level1 with
        | some (n1, n2) => 1 ≤ depth ∧ n1.toNat = d.used ∧ n2.toNat = d.used + laneCount
        | none => depth < 1) ∧
      d'.used = d.used + if 1 ≤ depth then 2 * laneCount else 0 := by
  rcases TopNodes.reserveIf_spec h with ⟨hc, rfl, rfl⟩ | ⟨⟨n1, n2⟩, hc, rfl, hpair⟩
  · have hdepth : ¬ 1 ≤ depth := by simpa using hc
    exact ⟨Grows.refl d', hd, Nat.lt_of_not_le hdepth, by simp [hdepth]⟩
  · have hdepth : 1 ≤ depth := by simpa using hc
    obtain ⟨hgrows, hd', hn1, hn2, hused⟩ := TopNodes.reserveLevel1_spec hd hpair
    exact ⟨hgrows, hd', ⟨hdepth, hn1, hn2⟩, by rw [hused, if_pos hdepth]⟩

theorem TopNodes.reserveIf_reserveLevel2_spec (hd : Kept wanted bound d) {depth : Nat}
    {level2 : Option (Addr × Addr × Addr × Addr)}
    (h : Gives (TopNodes.reserveIf (2 ≤ depth) TopNodes.reserveLevel2) d level2 d') :
    Grows d d' ∧ Kept wanted bound d' ∧
      (match level2 with
        | some (n0, n1, n2, n3) => 2 ≤ depth ∧ n0.toNat = d.used ∧
          n1.toNat = d.used + laneCount ∧ n2.toNat = d.used + 2 * laneCount ∧
          n3.toNat = d.used + 3 * laneCount
        | none => depth < 2) ∧
      d'.used = d.used + if 2 ≤ depth then 4 * laneCount else 0 := by
  rcases TopNodes.reserveIf_spec h with ⟨hc, rfl, rfl⟩ | ⟨⟨n0, n1, n2, n3⟩, hc, rfl, hfour⟩
  · have hdepth : ¬ 2 ≤ depth := by simpa using hc
    exact ⟨Grows.refl d', hd, Nat.lt_of_not_le hdepth, by simp [hdepth]⟩
  · have hdepth : 2 ≤ depth := by simpa using hc
    obtain ⟨hgrows, hd', hn0, hn1, hn2, hn3, hused⟩ := TopNodes.reserveLevel2_spec hd hfour
    exact ⟨hgrows, hd', ⟨hdepth, hn0, hn1, hn2, hn3⟩, by rw [hused, if_pos hdepth]⟩

theorem TopNodes.reserve_spec (hd : Kept wanted bound d) {height : Nat} {t : TopNodes}
    (h : Gives (TopNodes.reserve height) d t d') :
    Grows d d' ∧ Kept wanted bound d' ∧ t.At height d.used d'.used := by
  simp only [TopNodes.reserve, gives_bind_iff, gives_pure_iff] at h
  obtain ⟨scalars, d₀, h₀, addrs, d₁, h₁, level1, d₂, h₂, level2, _, h₃, rfl, rfl⟩ := h
  have s₀ := Gives.region hd.bounded h₀
  have s₁ := Gives.region (s₀.kept hd).bounded h₁
  have hu₀ := s₀.used
  have hu₁ := s₁.used
  obtain ⟨hgrows₂, hd₂, hblocks1, hu₂⟩ :=
    TopNodes.reserveIf_reserveLevel1_spec (s₁.kept (s₀.kept hd)) h₂
  obtain ⟨hgrows₃, hd₃, hblocks2, hu₃⟩ := TopNodes.reserveIf_reserveLevel2_spec hd₂ h₃
  have hcount : countFor (depthFor height) = TopNodes.count
    ⟨scalars, addrs, depthFor height, level1, level2⟩ := rfl
  refine ⟨s₀.grows.trans (s₁.grows.trans (hgrows₂.trans hgrows₃)), hd₃,
    ⟨rfl, s₀.toNat, by rw [s₁.toNat, hu₀, hcount], ?_, ?_, ?_⟩⟩
  · cases level1 with
    | none => exact hblocks1
    | some blocks =>
      obtain ⟨hdepth, hn1, hn2⟩ := hblocks1
      exact ⟨hdepth, by omega, by omega⟩
  · cases level2 with
    | none => exact hblocks2
    | some blocks =>
      obtain ⟨hdepth, hn0, hn1, hn2, hn3⟩ := hblocks2
      have hone : 1 ≤ depthFor height := by omega
      rw [if_pos hone] at hu₂
      exact ⟨hdepth, by omega, by omega, by omega, by omega⟩
  · show d.used + 2 * countFor (depthFor height) +
      (if 1 ≤ depthFor height then 2 * laneCount else 0) +
      (if 2 ≤ depthFor height then 4 * laneCount else 0) = d'.used
    omega

end Blocks

namespace Frame

/-- Where everything lies: constants below the indices, then the data, up to `used`. -/
structure Layout (f : Frame) (shape : FrameShape) (used : Nat) : Prop where
  header : ∀ a ∈ f.header.words, a.toNat < f.indices.toNat
  one : f.one.toNat + laneCount ≤ f.indices.toNat
  two : f.two.toNat + laneCount ≤ f.indices.toNat
  three : f.three.toNat + laneCount ≤ f.indices.toNat
  nodeCount : f.nodeCount.toNat + laneCount ≤ f.indices.toNat
  stages : Mix.AllCarry (fun _ a => a.toNat + laneCount ≤ f.indices.toNat) f.stages
  chunkOffsets : ∀ a ∈ f.chunkOffsets, a.toNat < f.indices.toNat
  topOffsets : ∀ a ∈ f.topOffsets, a.toNat < f.indices.toNat
  values : f.values.toNat = f.indices.toNat + shape.batch
  workSets_length : f.workSets.length = shape.workSets
  workSets : ∀ i (w : WorkSet), f.workSets[i]? = some w →
    w.At (f.indices.toNat + 2 * shape.batch + i * WorkSet.length)
  top : f.top.At shape.height
    (f.indices.toNat + 2 * shape.batch + shape.workSets * WorkSet.length) f.transferAddrs.toNat
  stop : f.transferAddrs.toNat + 2 * shape.chunks = used
  stop_lt : used < 2 ^ 32
  chunks : f.chunks = shape.chunks

/-- The pending operations set the header scalars and the constants of the frame. -/
structure SetBy (f : Frame) (shape : FrameShape) (d : Draft) : Prop where
  header : f.header.LoadedBy d
  one : d.HasVector 1 f.one
  two : d.HasVector 2 f.two
  three : d.HasVector 3 f.three
  nodeCount : Op.broadcast f.nodeCount f.header.nodeCount ∈ d.pending.toList
  stages : Mix.AllCarry d.HasVector f.stages
  chunkOffsets_length : f.chunkOffsets.length = shape.chunks
  chunkOffsets : ∀ i a, f.chunkOffsets[i]? = some a →
    d.HasScalar (UInt32.ofNat (i * laneCount)) a
  topOffsets_length : f.topOffsets.length = TopNodes.countFor (TopNodes.depthFor shape.height)
  topOffsets : ∀ i a, f.topOffsets[i]? = some a → d.HasScalar (UInt32.ofNat i) a

open Draft

/-- The data of a frame follow each other from the first free word on. -/
theorem reserveData_spec {wanted : Prop} {bound : Nat} {d d₁ d₂ d₃ d₄ d' : Draft}
    (hd : Kept wanted bound d) {shape : FrameShape} {indices values transferAddrs : Addr}
    {workSets : List WorkSet} {top : TopNodes}
    (hindices : Gives (Draft.region "s_idx" shape.batch) d indices d₁)
    (hvalues : Gives (Draft.region "s_val" shape.batch) d₁ values d₂)
    (hworkSets : Gives (Draft.forRange WorkSet.reserve 0 shape.workSets) d₂ workSets d₃)
    (htop : Gives (TopNodes.reserve shape.height) d₃ top d₄)
    (htransfer : Gives (Draft.region "io_addr" (2 * shape.chunks)) d₄ transferAddrs d') :
    Grows d d' ∧ Kept wanted bound d' ∧ indices.toNat = d.used ∧
      values.toNat = indices.toNat + shape.batch ∧ workSets.length = shape.workSets ∧
      (∀ i (w : WorkSet), workSets[i]? = some w →
        w.At (indices.toNat + 2 * shape.batch + i * WorkSet.length)) ∧
      top.At shape.height (indices.toNat + 2 * shape.batch + shape.workSets * WorkSet.length)
        transferAddrs.toNat ∧
      transferAddrs.toNat + 2 * shape.chunks = d'.used := by
  have s₁ := Gives.region hd.bounded hindices
  have hd₁ := s₁.kept hd
  have s₂ := Gives.region hd₁.bounded hvalues
  obtain ⟨hgrows₃, hd₃, hlength, hat, hused₃⟩ := WorkSet.forRange_spec (s₂.kept hd₁) hworkSets
  obtain ⟨hgrows₄, hd₄, htop⟩ := TopNodes.reserve_spec hd₃ htop
  have s₅ := Gives.region hd₄.bounded htransfer
  have hbase : indices.toNat = d.used := s₁.toNat
  have hdata : d₂.used = indices.toNat + 2 * shape.batch := by
    rw [s₂.used, s₁.used, hbase]
    omega
  refine ⟨s₁.grows.trans (s₂.grows.trans (hgrows₃.trans (hgrows₄.trans s₅.grows))), s₅.kept hd₄,
    hbase, ?_, hlength, fun i w hw => hdata ▸ hat i w hw, ?_, ?_⟩
  · rw [s₂.toNat, s₁.used, hbase]
  · rw [s₅.toNat, ← hdata, ← hused₃]
    exact htop
  · rw [s₅.toNat, s₅.used]

/-- The header scalars and the constants of a frame have been handed out, and where setup code is
`wanted` the pending operations set them. -/
structure Prepared (wanted : Prop) (f : Frame) (shape : FrameShape) (d : Draft) : Prop where
  header : ∀ a ∈ f.header.words, a.toNat < d.used
  loaded : wanted → f.header.LoadedBy d
  one : VectorFor wanted d 1 f.one
  two : VectorFor wanted d 2 f.two
  three : VectorFor wanted d 3 f.three
  nodeCount : f.nodeCount.toNat + laneCount ≤ d.used
  spread : Op.broadcast f.nodeCount f.header.nodeCount ∈ d.pending.toList
  stages : Mix.AllCarry (VectorFor wanted d) f.stages
  chunkOffsets_length : f.chunkOffsets.length = shape.chunks
  chunkOffsets : ∀ i a, f.chunkOffsets[i]? = some a →
    ScalarFor wanted d (UInt32.ofNat (i * laneCount)) a
  topOffsets_length : f.topOffsets.length = TopNodes.countFor (TopNodes.depthFor shape.height)
  topOffsets : ∀ i a, f.topOffsets[i]? = some a → ScalarFor wanted d (UInt32.ofNat i) a

theorem Prepared.setBy {wanted : Prop} {f : Frame} {shape : FrameShape} {d d' : Draft}
    (h : f.Prepared wanted shape d) (hw : wanted) (hgrows : Grows d d') : f.SetBy shape d' := by
  refine ⟨fun i b hb => ?_, hgrows.hasVector (h.one.2 hw), hgrows.hasVector (h.two.2 hw),
    hgrows.hasVector (h.three.2 hw), hgrows.mem h.spread, ?_, h.chunkOffsets_length,
    fun i a ha => hgrows.hasScalar ((h.chunkOffsets i a ha).2 hw), h.topOffsets_length,
    fun i a ha => hgrows.hasScalar ((h.topOffsets i a ha).2 hw)⟩
  · obtain ⟨a, ha, hload⟩ := h.loaded hw i b hb
    exact ⟨a, hgrows.hasScalar ha, hgrows.mem hload⟩
  · exact h.stages.imp fun _ _ hva => hgrows.hasVector (hva.2 hw)

/-- Handing out the header scalars and the constants of a frame prepares it. -/
theorem reserveConstants_spec {wanted : Prop} {d d₁ d₂ d₃ d₄ d₅ d₆ d₇ d₈ d' : Draft}
    (hd : Kept wanted HeaderRegs.wordCount d) (f : Frame) {shape : FrameShape}
    {numbers : List Addr} (hheader : Gives HeaderRegs.load d f.header d₁)
    (hnumbers : Gives (Draft.forRange numberConstant 0 4) d₁ numbers d₂)
    (hone : Gives (Draft.vectorConstant 1) d₂ f.one d₃)
    (htwo : Gives (Draft.vectorConstant 2) d₃ f.two d₄)
    (hthree : Gives (Draft.vectorConstant 3) d₄ f.three d₅)
    (hnodeCount : Gives (Draft.vector "v_n_nodes") d₅ f.nodeCount d₆)
    (hstages : Gives (lowerStages Mix.standard)
      { d₆ with pending := d₆.pending.push (.broadcast f.nodeCount f.header.nodeCount) }
      f.stages d₇)
    (hchunkOffsets : Gives (Draft.forRange (fun chunk => numberConstant (chunk * laneCount)) 0
      shape.chunks) d₇ f.chunkOffsets d₈)
    (htopOffsets : Gives (Draft.forRange numberConstant 0
      (TopNodes.countFor (TopNodes.depthFor shape.height))) d₈ f.topOffsets d') :
    Grows d d' ∧ Kept wanted HeaderRegs.wordCount d' ∧ f.Prepared wanted shape d' := by
  obtain ⟨g₁, k₁, hwords, hloaded⟩ := HeaderRegs.load_spec hd hheader
  obtain ⟨g₂, k₂, -, -⟩ := Gives.numberConstants id k₁ hnumbers
  obtain ⟨g₃, k₃, hone⟩ := k₂.vectorConstant hone
  obtain ⟨g₄, k₄, htwo⟩ := k₃.vectorConstant htwo
  obtain ⟨g₅, k₅, hthree⟩ := k₄.vectorConstant hthree
  have s₆ := Gives.vector k₅.bounded hnodeCount
  have k₆ := s₆.kept k₅
  have g₆ := Grows.emit d₆ (.broadcast f.nodeCount f.header.nodeCount)
  have hcount_lt : f.header.nodeCount.toNat < d₅.used :=
    Nat.lt_of_lt_of_le (hwords _ (by simp [HeaderRegs.words]))
      (g₂.trans (g₃.trans (g₄.trans g₅))).used
  have k₆' : Kept wanted HeaderRegs.wordCount
      { d₆ with pending := d₆.pending.push (.broadcast f.nodeCount f.header.nodeCount) } :=
    ⟨k₆.bounded.emit _, fun hw => s₆.tracked_broadcast k₅.bounded (k₅.tracked hw) hcount_lt⟩
  obtain ⟨g₇, k₇, hcarry⟩ := lowerStages_spec k₆' hstages
  obtain ⟨g₈, k₈, hchunk_length, hchunk⟩ := Gives.numberConstants (· * laneCount) k₇ hchunkOffsets
  obtain ⟨g₉, k₉, htop_length, htop⟩ := Gives.numberConstants id k₈ htopOffsets
  -- what is left of the way to the end, from each of the drafts on
  have t₇ := g₈.trans g₉
  have t₆ := g₆.trans (g₇.trans t₇)
  have t₅ := s₆.grows.trans t₆
  have t₄ := g₅.trans t₅
  have t₃ := g₄.trans t₄
  have t₁ := g₂.trans (g₃.trans t₃)
  refine ⟨g₁.trans t₁, k₉, fun a ha => Nat.lt_of_lt_of_le (hwords a ha) t₁.used,
    fun hw i b hb => ?_, t₃.vectorFor hone, t₄.vectorFor htwo, t₅.vectorFor hthree, ?_,
    (g₇.trans t₇).mem (by simp), ?_, hchunk_length, fun i a ha => ?_, htop_length,
    fun i a ha => ?_⟩
  · obtain ⟨a, ha, hload⟩ := hloaded hw i b hb
    exact ⟨a, t₁.hasScalar ha, t₁.mem hload⟩
  · exact Nat.le_trans (Nat.le_of_eq (by rw [s₆.toNat, s₆.used])) t₆.used
  · exact hcarry.imp fun _ _ => Mix.Lowered.Carries.imp fun _ _ => t₇.vectorFor
  · simpa using g₉.scalarFor (hchunk i a ha)
  · simpa using htop i a ha

theorem reserve_spec {wanted : Prop} {d d' : Draft} (hd : Kept wanted HeaderRegs.wordCount d)
    {shape : FrameShape} {f : Frame} (h : Gives (Frame.reserve shape) d f d') :
    Grows d d' ∧ Kept wanted HeaderRegs.wordCount d' ∧ f.Layout shape d'.used ∧
      (wanted → f.SetBy shape d') := by
  simp only [Frame.reserve, gives_bind_iff, gives_emit_iff, gives_pure_iff] at h
  obtain ⟨header, d₁, hheader, numbers, d₂, hnumbers, one, d₃, hone, two, d₄, htwo, three, d₅,
    hthree, nodeCount, d₆, hnodeCount, _, _, rfl, stages, d₇, hstages, chunkOffsets, d₈,
    hchunkOffsets, topOffsets, d₉, htopOffsets, indices, e₁, hindices, values, e₂, hvalues,
    workSets, e₃, hworkSets, top, e₄, htop, transferAddrs, _, htransfer, rfl, rfl⟩ := h
  obtain ⟨hgrows, hkept, hprepared⟩ := reserveConstants_spec hd
    { header, one, two, three, nodeCount, stages, chunkOffsets, indices, values, workSets, top,
      topOffsets, transferAddrs, chunks := shape.chunks }
    hheader hnumbers hone htwo hthree hnodeCount hstages hchunkOffsets htopOffsets
  obtain ⟨hgrows', hkept', hbase, hvalues, hws_length, hws, htop, hstop⟩ :=
    reserveData_spec hkept hindices hvalues hworkSets htop htransfer
  refine ⟨hgrows.trans hgrows', hkept', ?_, fun hw => hprepared.setBy hw hgrows'⟩
  -- the data begin where the constants end
  refine ⟨hbase ▸ hprepared.header, hbase ▸ hprepared.one.1, hbase ▸ hprepared.two.1,
    hbase ▸ hprepared.three.1, hbase ▸ hprepared.nodeCount, ?_, ?_, ?_, hvalues, hws_length, hws,
    htop, hstop, Nat.lt_of_le_of_lt hkept'.bounded.used_le hkept'.bounded.capacity_lt, rfl⟩
  · exact hprepared.stages.imp fun _ _ ha => hbase ▸ ha.1
  · intro a ha
    obtain ⟨i, hi⟩ := List.mem_iff_getElem?.mp ha
    exact hbase ▸ (hprepared.chunkOffsets i a hi).1
  · intro a ha
    obtain ⟨i, hi⟩ := List.mem_iff_getElem?.mp ha
    exact hbase ▸ (hprepared.topOffsets i a hi).1

end Frame

end TreeWalk
