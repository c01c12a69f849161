import TreeWalk.Proofs.ScratchRequests

/-!
# The name of a scratch word

Regions are found by the nearest start at or below an address. This is enough because no region
reaches into the next one: a region without words may share its start with a later one, by which it
is replaced, and elsewhere hides nothing.
-/

namespace TreeWalk

namespace Regions

variable {regions : Regions} {r : Region} {a : Addr}

/-- Regions in ascending order, none of which reaches into the next. -/
def Spaced (regions : Regions) : Prop :=
  regions.Pairwise fun r s =>
    r.start.toNat < s.start.toNat ∧ r.start.toNat + r.length ≤ s.start.toNat

theorem insert_eq_append (h : Spaced regions)
    (hlast : ∀ x ∈ regions, x.start.toNat ≤ r.start.toNat) :
    regions.insert r = regions.filter (fun x => x.start ≠ r.start) ++ [r] := by
  induction regions with
  | nil => rfl
  | cons x rest ih =>
    obtain ⟨hx, hrest⟩ := List.pairwise_cons.mp h
    have hle : x.start.toNat ≤ r.start.toNat := hlast x List.mem_cons_self
    have hlast_rest : ∀ y ∈ rest, y.start.toNat ≤ r.start.toNat :=
      fun y hy => hlast y (List.mem_cons_of_mem x hy)
    rw [insert, if_neg (Nat.not_lt.mpr hle)]
    by_cases heq : r.start = x.start
    · -- nothing stands behind the start of `x`
      have hnil : rest = [] := by
        apply List.eq_nil_iff_forall_not_mem.mpr
        intro y hy
        have hbehind := (hx y hy).1
        have hbefore := hlast_rest y hy
        rw [heq] at hbefore
        omega
      simp [heq, hnil]
    · simp [heq, Ne.symm heq, ih hrest hlast_rest]

/-- The nearest start at or below an address inside a region is that of the region. -/
theorem nearest?_eq_some (h : Spaced regions) (hr : r ∈ regions) (hlow : r.start.toNat ≤ a.toNat)
    (hhigh : a.toNat < r.start.toNat + r.length) : regions.nearest? a = some r := by
  obtain ⟨before, after, rfl⟩ := List.append_of_mem hr
  obtain ⟨-, hsuffix, -⟩ := List.pairwise_append.mp h
  obtain ⟨hafter, -⟩ := List.pairwise_cons.mp hsuffix
  have hnone : after.reverse.find? (fun x => x.start.toNat ≤ a.toNat) = none := by
    rw [List.find?_eq_none]
    intro x hx
    have hend := (hafter x (List.mem_reverse.mp hx)).2
    simp only [decide_eq_true_eq]
    omega
  unfold nearest?
  rw [List.reverse_append, List.reverse_cons, List.append_assoc, List.find?_append, hnone,
    Option.none_or, List.singleton_append, List.find?_cons_of_pos (by simpa using hlow)]

/-- A lookup finds the region in which the address lies, and only that. -/
theorem lookup?_eq_some_iff (h : Spaced regions) {name : String} {lane : Nat} :
    regions.lookup? a = some (name, lane) ↔
      ∃ r ∈ regions, r.name = name ∧ lane < r.length ∧ a.toNat = r.start.toNat + lane := by
  unfold lookup?
  constructor
  · intro hfound
    obtain ⟨r, hnearest, hlane⟩ := Option.bind_eq_some_iff.mp hfound
    have hlow : r.start.toNat ≤ a.toNat := by simpa using List.find?_some hnearest
    have hr : r ∈ regions := List.mem_reverse.mp (List.mem_of_find?_eq_some hnearest)
    dsimp only at hlane
    split at hlane
    · rename_i hinside
      simp only [Option.some.injEq, Prod.mk.injEq] at hlane
      obtain ⟨hname, rfl⟩ := hlane
      exact ⟨r, hr, hname, hinside, by omega⟩
    · cases hlane
  · rintro ⟨r, hr, rfl, hinside, haddr⟩
    rw [nearest?_eq_some h hr (by omega) (by omega), Option.bind_some]
    have hlane : a.toNat - r.start.toNat = lane := by omega
    simp [hlane, hinside]

end Regions

theorem Arena.regions_of_reserve {a b : Arena} {name : Option String} {length : Nat} {start : Addr}
    (h : a.reserve name length = .ok (start, b)) :
    b.regions = name.elim a.regions fun n => a.regions.insert ⟨start, n, length⟩ := by
  obtain ⟨hfits, -⟩ := Arena.reserve_ok h
  rw [Arena.reserve_of_fits hfits] at h
  cases h
  rfl

namespace Holdings

variable {capacity : Nat} {h : Holdings}

/-- What the region map knows of the words handed out. -/
structure Charted (h : Holdings) : Prop where
  spaced : Regions.Spaced h.draft.arena.regions
  end_le : ∀ r ∈ h.draft.arena.regions, r.start.toNat + r.length ≤ h.draft.used
  named : ∀ r ∈ h.draft.arena.regions, ⟨⟨r.start, r.length⟩, some r.name⟩ ∈ h.grants
  /-- A region without words may have been replaced. -/
  charted : ∀ r : Region, ⟨⟨r.start, r.length⟩, some r.name⟩ ∈ h.grants → 0 < r.length →
    r ∈ h.draft.arena.regions

theorem Charted.anonymous (hc : h.Charted) {arena : Arena} {x : Extent}
    (hregions : arena.regions = h.draft.arena.regions) (hused : h.draft.used ≤ arena.used) :
    Charted ⟨h.grants ++ [⟨x, none⟩], { h.draft with arena }⟩ := by
  constructor
  · show Regions.Spaced arena.regions
    rw [hregions]
    exact hc.spaced
  · intro r hr
    exact Nat.le_trans (hc.end_le r (hregions ▸ hr)) hused
  · intro r hr
    exact List.mem_append_left _ (hc.named r (hregions ▸ hr))
  · intro r hr hlength
    show r ∈ arena.regions
    rw [hregions]
    rcases List.mem_append.mp hr with hr | hr
    · exact hc.charted r hr hlength
    · simp at hr

theorem Charted.region (hc : h.Charted) {arena : Arena} {r : Region}
    (hstart : r.start.toNat = h.draft.used)
    (hregions : arena.regions = h.draft.arena.regions.insert r)
    (hused : arena.used = h.draft.used + r.length) :
    Charted ⟨h.grants ++ [⟨⟨r.start, r.length⟩, some r.name⟩], { h.draft with arena }⟩ := by
  have hmap : arena.regions =
      h.draft.arena.regions.filter (fun x => x.start ≠ r.start) ++ [r] := by
    rw [hregions]
    apply Regions.insert_eq_append hc.spaced
    intro x hx
    have hend := hc.end_le x hx
    omega
  have hmem {x : Region} : x ∈ arena.regions ↔
      (x ∈ h.draft.arena.regions ∧ x.start ≠ r.start) ∨ x = r := by
    simp [hmap]
  constructor
  · show Regions.Spaced arena.regions
    rw [hmap]
    apply pairwise_snoc (hc.spaced.sublist List.filter_sublist)
    intro x hx
    obtain ⟨hx, hne⟩ := List.mem_filter.mp hx
    have hend := hc.end_le x hx
    have hne' : x.start.toNat ≠ r.start.toNat :=
      fun heq => of_decide_eq_true hne (Addr.toNat_injective heq)
    omega
  · intro x hx
    show x.start.toNat + x.length ≤ arena.used
    rcases hmem.mp hx with ⟨hx, -⟩ | rfl
    · have hend := hc.end_le x hx
      omega
    · omega
  · intro x hx
    rcases hmem.mp hx with ⟨hx, -⟩ | rfl
    · exact List.mem_append_left _ (hc.named x hx)
    · simp
  · intro x hx hlength
    apply hmem.mpr
    rcases List.mem_append.mp hx with hx | hx
    · have hold := hc.charted x hx hlength
      have hend := hc.end_le x hold
      refine .inl ⟨hold, fun heq => ?_⟩
      rw [heq] at hend
      omega
    · right
      cases x
      cases r
      simp only [List.mem_singleton, Grant.mk.injEq, Extent.mk.injEq, Option.some.injEq] at hx
      obtain ⟨⟨rfl, rfl⟩, rfl⟩ := hx
      rfl

theorem Charted.request (hcapacity : capacity < 2 ^ 32) (hs : h.Served capacity)
    (hc : h.Charted) (r : Request) : (h.request r).Charted := by
  rcases h.request_cases r with ⟨-, arena, hreserve, heq⟩ | ⟨-, heq⟩
  · obtain ⟨-, -, hused, -⟩ := Arena.reserve_ok hreserve
    have hregions := Arena.regions_of_reserve hreserve
    rw [heq]
    cases hname : r.name with
    | none =>
      rw [hname] at hregions
      exact hc.anonymous hregions (hused ▸ Nat.le_add_right _ _)
    | some name =>
      rw [hname] at hregions
      have hstart : (Addr.ofNat h.draft.used).toNat = h.draft.used :=
        Addr.toNat_ofNat (Nat.lt_of_le_of_lt hs.used_le hcapacity)
      exact hc.region (r := ⟨Addr.ofNat h.draft.used, name, r.length⟩) hstart hregions hused
  · rwa [heq]

theorem charted_after (hcapacity : capacity < 2 ^ 32) (requests : List Request) :
    (after capacity requests).Charted := by
  suffices hboth : (after capacity requests).Served capacity ∧ (after capacity requests).Charted
    from hboth.2
  apply after_induction (P := fun h => h.Served capacity ∧ h.Charted)
  · exact ⟨served_after capacity [], .nil, by simp [Draft.ofCapacity, Arena.ofCapacity],
      by simp [Draft.ofCapacity, Arena.ofCapacity], by simp⟩
  · intro h r hh
    exact ⟨hh.1.request r, hh.2.request hcapacity hh.1 r⟩

namespace Charted

variable {a : Addr}

theorem lookup?_eq_some_iff (hc : h.Charted) {name : String} {lane : Nat} :
    h.draft.arena.regions.lookup? a = some (name, lane) ↔
      ∃ g ∈ h.grants, g.name = some name ∧ g.Covers a.toNat ∧
        lane = a.toNat - g.start.toNat := by
  rw [Regions.lookup?_eq_some_iff hc.spaced]
  constructor
  · rintro ⟨r, hr, rfl, hlane, haddr⟩
    have hcovers : Extent.Covers ⟨r.start, r.length⟩ a.toNat := by
      unfold Extent.Covers
      dsimp only
      omega
    exact ⟨_, hc.named r hr, rfl, hcovers, by dsimp only; omega⟩
  · rintro ⟨⟨⟨start, length⟩, gname⟩, hg, rfl, hcovers, rfl⟩
    have hr := hc.charted ⟨start, name, length⟩ hg hcovers.length_pos
    obtain ⟨hlow, hhigh⟩ := hcovers
    dsimp only at hlow hhigh
    exact ⟨_, hr, rfl, by dsimp only; omega, by dsimp only; omega⟩

theorem lookup?_eq_none (hc : h.Charted)
    (hunnamed : ∀ g ∈ h.grants, g.Covers a.toNat → g.name = none) :
    h.draft.arena.regions.lookup? a = none := by
  by_contra hsome
  obtain ⟨⟨name, lane⟩, hlookup⟩ := Option.ne_none_iff_exists'.mp hsome
  obtain ⟨g, hg, hname, hcovers, -⟩ := hc.lookup?_eq_some_iff.mp hlookup
  rw [hunnamed g hg hcovers] at hname
  cases hname

end Charted

/-- After any requests for scratch in which every word has an address, a lookup answers with a name
and a lane exactly for the words that were handed out under that name, and the lane is the distance
from the start. It has no answer for words that were handed out without a name, and for words that
were not handed out. -/
theorem lookup_names_word (hcapacity : capacity < 2 ^ 32) (requests : List Request) (a : Addr) :
    let h := after capacity requests
    (∀ name lane, h.draft.arena.regions.lookup? a = some (name, lane) ↔
      ∃ g ∈ h.grants, g.name = some name ∧ g.Covers a.toNat ∧ lane = a.toNat - g.start.toNat) ∧
    (∀ g ∈ h.grants, g.name = none → g.Covers a.toNat →
      h.draft.arena.regions.lookup? a = none) ∧
    (h.draft.used ≤ a.toNat → h.draft.arena.regions.lookup? a = none) := by
  intro h
  have hs : h.Served capacity := served_after capacity requests
  have hc : h.Charted := charted_after hcapacity requests
  refine ⟨fun name lane => hc.lookup?_eq_some_iff, fun g hg hname hcovers => ?_, fun hfree => ?_⟩
  · apply hc.lookup?_eq_none
    intro g' hg' hcovers'
    rw [hs.eq_of_covers (Nat.le_of_lt hcapacity) hg' hg hcovers' hcovers]
    exact hname
  · apply hc.lookup?_eq_none
    intro g hg hcovers
    have hend := hs.consecutive.end_le hg
    have hused := hs.used
    have hhigh := hcovers.2
    omega

/-- Scratch with a region without words that is replaced, one that is not, words without a name,
and a request that is refused. -/
theorem lookup_names_word_replaced :
    let h := after 64 [⟨some "a", 4⟩, ⟨some "b", 0⟩, ⟨none, 8⟩, ⟨some "c", 0⟩, ⟨some "d", 8⟩,
      ⟨some "e", 100⟩]
    h.draft.arena.regions.lookup? ⟨14⟩ = some ("d", 2) ∧
      h.draft.arena.regions.lookup? ⟨5⟩ = none ∧ h.draft.arena.regions.lookup? ⟨20⟩ = none := by
  intro h
  have hlookup := lookup_names_word (show 64 < 2 ^ 32 by decide)
    [⟨some "a", 4⟩, ⟨some "b", 0⟩, ⟨none, 8⟩, ⟨some "c", 0⟩, ⟨some "d", 8⟩, ⟨some "e", 100⟩]
  refine ⟨?_, ?_, ?_⟩
  · exact ((hlookup ⟨14⟩).1 "d" 2).mpr
      ⟨⟨⟨⟨12⟩, 8⟩, some "d"⟩, by decide +kernel, rfl, by decide, by decide⟩
  · exact (hlookup ⟨5⟩).2.1 ⟨⟨⟨4⟩, 8⟩, none⟩ (by decide +kernel) rfl (by decide)
  · exact (hlookup ⟨20⟩).2.2 (by decide +kernel)

end Holdings

end TreeWalk
