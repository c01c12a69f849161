import Mathlib.Data.List.Induction
import Mathlib.Data.List.Pairwise
import TreeWalk.Proofs.DraftSteps

/-!
# Requests for scratch

Scratch is handed out in stretches that follow each other. A stretch is known by the address of its
first word, which has 32 bits, while the words handed out are counted by a size. A stretch that
begins behind the last address is therefore known by an address inside one that was handed out
before.
-/

namespace TreeWalk

/-- Consecutive scratch words, known by the address of the first. -/
structure Extent where
  start : Addr
  length : Nat
  deriving DecidableEq, Repr

namespace Extent

variable {x y : Extent} {i : Nat}

def Covers (x : Extent) (i : Nat) : Prop := x.start.toNat ≤ i ∧ i < x.start.toNat + x.length

instance (x : Extent) (i : Nat) : Decidable (x.Covers i) := inferInstanceAs (Decidable (_ ∧ _))

/-- No word belongs to both. -/
def Apart (x y : Extent) : Prop := ∀ i, x.Covers i → ¬ y.Covers i

theorem Covers.length_pos (h : x.Covers i) : 0 < x.length := by
  unfold Covers at h
  omega

theorem covers_start (h : 0 < x.length) : x.Covers x.start.toNat :=
  ⟨Nat.le_refl _, Nat.lt_add_of_pos_right h⟩

theorem Apart.symm (h : x.Apart y) : y.Apart x := fun i hy hx => h i hx hy

theorem apart_of_end_le (h : x.start.toNat + x.length ≤ y.start.toNat) : x.Apart y := by
  intro i hx hy
  unfold Covers at hx hy
  omega

end Extent

/-- A request for scratch words, with a name for diagnostics or without. -/
structure Request where
  name : Option String
  length : Nat
  deriving DecidableEq, Repr

/-- Words that were handed out, and the name under which. -/
structure Grant extends Extent where
  name : Option String
  deriving DecidableEq, Repr

instance : Std.Symm fun x y : Grant => x.Apart y.toExtent := ⟨fun _ _ h => h.symm⟩

def totalLength (grants : List Grant) : Nat := (grants.map fun g => g.length).sum

@[simp] theorem totalLength_snoc (grants : List Grant) (g : Grant) :
    totalLength (grants ++ [g]) = totalLength grants + g.length := by
  simp [totalLength]

/-! ## Stretches that follow each other -/

/-- The grants follow each other from word `0` on, as far as an address can say. -/
inductive Consecutive : List Grant → Prop where
  | nil : Consecutive []
  | snoc {grants : List Grant} {g : Grant} :
    Consecutive grants → g.start = Addr.ofNat (totalLength grants) → Consecutive (grants ++ [g])

namespace Consecutive

variable {grants : List Grant} {g : Grant}

theorem toNat_ofNat_le (n : Nat) : (Addr.ofNat n).toNat ≤ n := by
  have hmod : (Addr.ofNat n).toNat = n % 2 ^ 32 := UInt32.toNat_ofNat
  rw [hmod]
  exact Nat.mod_le n _

theorem end_le (h : Consecutive grants) (hg : g ∈ grants) :
    g.start.toNat + g.length ≤ totalLength grants := by
  induction h with
  | nil => cases hg
  | @snoc grants last _ hstart ih =>
    rw [totalLength_snoc]
    rcases List.mem_append.mp hg with hg | hg
    · have hle := ih hg
      omega
    · obtain rfl : g = last := List.mem_singleton.mp hg
      have hle : g.start.toNat ≤ totalLength grants := by
        rw [hstart]
        exact toNat_ofNat_le _
      omega

theorem exists_covers (h : Consecutive grants) {i : Nat} (hi : i < totalLength grants)
    (haddr : i < 2 ^ 32) : ∃ g ∈ grants, g.Covers i := by
  induction h with
  | nil => exact absurd hi (Nat.not_lt_zero i)
  | @snoc grants last _ hstart ih =>
    by_cases hbefore : i < totalLength grants
    · obtain ⟨g, hg, hcovers⟩ := ih hbefore
      exact ⟨g, List.mem_append_left _ hg, hcovers⟩
    · have hexact : last.start.toNat = totalLength grants := by
        rw [hstart]
        exact Addr.toNat_ofNat (by omega)
      rw [totalLength_snoc] at hi
      have hcovers : last.Covers i := ⟨by omega, by omega⟩
      exact ⟨last, by simp, hcovers⟩

/-- When the words of all addresses are handed out, every stretch that has words meets one of
those. -/
theorem exists_meeting (h : Consecutive grants) (hfull : 2 ^ 32 ≤ totalLength grants)
    (hg : 0 < g.length) : ∃ x ∈ grants, ¬ x.Apart g.toExtent := by
  have haddr : g.start.toNat < 2 ^ 32 := UInt32.toNat_lt _
  obtain ⟨x, hx, hcovers⟩ := h.exists_covers (i := g.start.toNat) (by omega) haddr
  exact ⟨x, hx, fun hapart => hapart _ hcovers (Extent.covers_start hg)⟩

/-- The grants are apart exactly if each that has words begins at a word that has an address. -/
theorem pairwise_apart_iff (h : Consecutive grants) :
    grants.Pairwise (fun x y => x.Apart y.toExtent) ↔
      ∀ before g after, grants = before ++ g :: after → 0 < g.length →
        totalLength before < 2 ^ 32 := by
  induction h with
  | nil => simp
  | @snoc grants last hgrants hstart ih =>
    rw [List.pairwise_append, ih]
    constructor
    · rintro ⟨hbefore, -, hlast⟩ before g after hsplit hg
      rcases List.eq_nil_or_concat after with rfl | ⟨after, x, rfl⟩
      · obtain ⟨rfl, hlast_eq⟩ := List.append_inj' hsplit rfl
        obtain rfl : last = g := List.head_eq_of_cons_eq hlast_eq
        by_contra hfull
        obtain ⟨x, hx, hmeets⟩ := hgrants.exists_meeting (Nat.le_of_not_lt hfull) hg
        exact hmeets (hlast x hx last (by simp))
      · have hsplit' : grants ++ [last] = (before ++ g :: after) ++ [x] := by
          rw [hsplit, List.append_assoc, List.cons_append, List.concat_eq_append]
        exact hbefore before g after (List.append_inj' hsplit' rfl).1 hg
    · intro hall
      refine ⟨fun before g after hsplit => ?_, List.pairwise_singleton _ _, fun x hx y hy => ?_⟩
      · exact hall before g (after ++ [last]) (by rw [hsplit, List.append_assoc, List.cons_append])
      · obtain rfl : y = last := List.mem_singleton.mp hy
        intro i hcovers hlast
        have haddr := hall grants y [] rfl hlast.length_pos
        have hexact : y.start.toNat = totalLength grants := by
          rw [hstart]
          exact Addr.toNat_ofNat haddr
        exact Extent.apart_of_end_le (hexact ▸ hgrants.end_le hx) i hcovers hlast

end Consecutive

/-! ## Requests one after the other -/

/-- What requests have come to: the words handed out, in order, and the draft that is left. -/
structure Holdings where
  grants : List Grant
  draft : Draft

namespace Holdings

open Draft

def request (h : Holdings) (r : Request) : Holdings :=
  match perform (reserve r.name r.length) h.draft with
  | (.ok start, d) => ⟨h.grants ++ [⟨⟨start, r.length⟩, r.name⟩], d⟩
  | (.error _, d) => ⟨h.grants, d⟩

/-- Make requests for scratch of `capacity` words one after the other, whatever becomes of each. -/
def after (capacity : Nat) (requests : List Request) : Holdings :=
  requests.foldl request ⟨[], ofCapacity capacity⟩

/-- What one request does: the words that follow those in use are handed out, if they are there. -/
theorem request_cases (h : Holdings) (r : Request) :
    (h.draft.used + r.length ≤ h.draft.arena.capacity ∧
      ∃ arena, h.draft.arena.reserve r.name r.length = .ok (Addr.ofNat h.draft.used, arena) ∧
        h.request r =
          ⟨h.grants ++ [⟨⟨Addr.ofNat h.draft.used, r.length⟩, r.name⟩], { h.draft with arena }⟩) ∨
    (h.draft.arena.capacity < h.draft.used + r.length ∧ h.request r = h) := by
  unfold request
  rw [perform_reserve]
  cases hreserve : h.draft.arena.reserve r.name r.length with
  | ok granted =>
    obtain ⟨start, arena⟩ := granted
    obtain ⟨hfits, rfl, -⟩ := Arena.reserve_ok hreserve
    exact .inl ⟨hfits, arena, rfl, rfl⟩
  | error e => exact .inr ⟨(Arena.reserve_eq_error_iff.mp hreserve).1, rfl⟩

structure Served (capacity : Nat) (h : Holdings) : Prop where
  capacity_eq : h.draft.arena.capacity = capacity
  used : h.draft.used = totalLength h.grants
  used_le : h.draft.used ≤ capacity
  consecutive : Consecutive h.grants

theorem Served.request {capacity : Nat} {h : Holdings} (hs : h.Served capacity) (r : Request) :
    (h.request r).Served capacity := by
  rcases h.request_cases r with ⟨hfits, arena, hreserve, heq⟩ | ⟨-, heq⟩
  · obtain ⟨-, -, hused, hcapacity⟩ := Arena.reserve_ok hreserve
    have hused' : arena.used = h.draft.used + r.length := hused
    rw [heq]
    constructor
    · exact hcapacity.trans hs.capacity_eq
    · rw [totalLength_snoc, ← hs.used]
      exact hused'
    · show arena.used ≤ capacity
      rw [hused', ← hs.capacity_eq]
      exact hfits
    · exact hs.consecutive.snoc (by rw [hs.used])
  · rwa [heq]

theorem after_induction {P : Holdings → Prop} {capacity : Nat}
    (hfresh : P ⟨[], ofCapacity capacity⟩) (hstep : ∀ h r, P h → P (h.request r))
    (requests : List Request) : P (after capacity requests) := by
  unfold after
  induction requests using List.reverseRecOn with
  | nil => exact hfresh
  | append_singleton requests r ih =>
    rw [List.foldl_append]
    exact hstep _ r ih

theorem served_after (capacity : Nat) (requests : List Request) :
    (after capacity requests).Served capacity := by
  apply after_induction
  · exact ⟨rfl, rfl, Nat.zero_le _, .nil⟩
  · exact fun h r hs => hs.request r

theorem Served.pairwise_apart {capacity : Nat} {h : Holdings} (hs : h.Served capacity)
    (hcapacity : capacity ≤ 2 ^ 32) : h.grants.Pairwise fun x y => x.Apart y.toExtent := by
  rw [hs.consecutive.pairwise_apart_iff]
  intro before g after hsplit hg
  have htotal : totalLength before + g.length ≤ totalLength h.grants := by
    simp [hsplit, totalLength]
  have hle : totalLength h.grants ≤ capacity := hs.used ▸ hs.used_le
  omega

theorem Served.eq_of_covers {capacity : Nat} {h : Holdings} (hs : h.Served capacity)
    (hcapacity : capacity ≤ 2 ^ 32) {x y : Grant} (hx : x ∈ h.grants) (hy : y ∈ h.grants) {i : Nat}
    (hxi : x.Covers i) (hyi : y.Covers i) : x = y := by
  by_contra hne
  exact (hs.pairwise_apart hcapacity).forall hx hy hne i hxi hyi

theorem refused_iff (d : Draft) (name : Option String) (length : Nat) :
    (∃ e, (perform (reserve name length) d).1 = .error e) ↔
      d.arena.capacity < d.used + length := by
  rw [perform_reserve]
  cases hreserve : d.arena.reserve name length with
  | ok granted =>
    obtain ⟨start, arena⟩ := granted
    have hfits : d.used + length ≤ d.arena.capacity := (Arena.reserve_ok hreserve).1
    simpa using hfits
  | error e =>
    have hpasses : d.arena.capacity < d.used + length :=
      (Arena.reserve_eq_error_iff.mp hreserve).1
    simpa using hpasses

/-- After any requests for scratch of any capacity, the stretches handed out lie within the
capacity, and the words in use are all of them together. No word is handed out twice exactly if each
stretch that has words was handed out while fewer than `2 ^ 32` words were in use. A further request
is refused exactly if it passes the capacity, and then changes nothing. -/
theorem hands_out_stretches (capacity : Nat) (requests : List Request) :
    let h := after capacity requests
    (h.grants.Pairwise (fun x y => x.Apart y.toExtent) ↔
      ∀ before g after, h.grants = before ++ g :: after → 0 < g.length →
        totalLength before < 2 ^ 32) ∧
    (∀ g ∈ h.grants, g.start.toNat + g.length ≤ capacity) ∧
    h.draft.used = totalLength h.grants ∧
    ∀ name length,
      ((∃ e, (perform (reserve name length) h.draft).1 = .error e) ↔
        capacity < h.draft.used + length) ∧
      ∀ e, (perform (reserve name length) h.draft).1 = .error e →
        (perform (reserve name length) h.draft).2 = h.draft := by
  intro h
  have hs : h.Served capacity := served_after capacity requests
  refine ⟨hs.consecutive.pairwise_apart_iff, fun g hg => ?_, hs.used, fun name length => ?_⟩
  · calc
      g.start.toNat + g.length ≤ totalLength h.grants := hs.consecutive.end_le hg
      _ = h.draft.used := hs.used.symm
      _ ≤ capacity := hs.used_le
  · constructor
    · rw [refused_iff, hs.capacity_eq]
    · intro e he
      exact fails_reserve (Prod.ext he rfl)

/-- Of `2 ^ 33` words, half are handed out and then one more. Both stretches begin at address `0`,
although the words are there. -/
theorem second_stretch_meets_first :
    let h := after (2 ^ 33) [⟨none, 2 ^ 32⟩, ⟨none, 1⟩]
    h.grants = [⟨⟨⟨0⟩, 2 ^ 32⟩, none⟩, ⟨⟨⟨0⟩, 1⟩, none⟩] ∧
      ¬ h.grants.Pairwise (fun x y => x.Apart y.toExtent) := by
  intro h
  have hgrants : h.grants = [⟨⟨⟨0⟩, 2 ^ 32⟩, none⟩, ⟨⟨⟨0⟩, 1⟩, none⟩] := by decide +kernel
  refine ⟨hgrants, fun hapart => ?_⟩
  rw [hgrants, List.pairwise_pair] at hapart
  exact hapart 0 (by decide) (by decide)

end Holdings

end TreeWalk
