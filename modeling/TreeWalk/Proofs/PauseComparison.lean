import Mathlib.Tactic.Common
import TreeWalk.CommandLine.CheckedRun

/-!
# Comparing memories at a pause

The comparison looks at the lanes of the index region and then at those of the value region, and at
nothing else. It tells of the first lane at which the two memories differ.
-/

namespace TreeWalk

theorem firstDifference_eq_some {start lane : Nat} {got expected : List Word} {g e : Word}
    (h : firstDifference start got expected = some (lane, g, e)) :
    ∃ i, lane = start + i ∧ got[i]? = some g ∧ expected[i]? = some e ∧ g ≠ e ∧
      ∀ j < i, got[j]? = expected[j]? := by
  fun_induction firstDifference start got expected with
  | case1 start x got expected ih =>
    obtain ⟨i, rfl, hg, he, hne, hbefore⟩ := ih h
    refine ⟨i + 1, by omega, by simpa using hg, by simpa using he, hne, ?_⟩
    intro j hj
    cases j with
    | zero => rfl
    | succ j => simpa using hbefore j (by omega)
  | case2 start x got y expected hxy =>
    cases h
    exact ⟨0, rfl, rfl, rfl, hxy, by simp⟩
  | case3 => cases h

theorem firstDifference_eq_none_iff {start : Nat} {got expected : List Word}
    (hlength : got.length = expected.length) :
    firstDifference start got expected = none ↔ got = expected := by
  induction got generalizing start expected with
  | nil =>
    obtain rfl := List.length_eq_zero_iff.mp hlength.symm
    simp [firstDifference]
  | cons x got ih =>
    cases expected with
    | nil => cases hlength
    | cons y expected =>
      rw [firstDifference]
      split_ifs with hxy
      · rw [ih (Nat.succ.inj hlength), hxy, List.cons.injEq]
        simp
      · simp [hxy]

def SameWords (mem mem' : Array Word) (start length : Nat) : Prop :=
  ∀ lane < length, mem[start + lane]? = mem'[start + lane]?

/-- The mismatch tells of the first lane of a part at which two memories differ. -/
structure Mismatch.IsFirst (m : Mismatch) (got expected : Array Word) (start length : Nat) :
    Prop where
  lane_lt : m.lane < length
  got_eq : got[start + m.lane]? = some m.got
  expected_eq : expected[start + m.lane]? = some m.expected
  differs : m.got ≠ m.expected
  before : SameWords got expected start m.lane

theorem length_part {mem : Array Word} {start length : Nat} (h : start + length ≤ mem.size) :
    (mem.extract start (start + length)).toList.length = length := by
  simp
  omega

theorem getElem?_part {mem : Array Word} {start length i : Nat} (h : start + length ≤ mem.size)
    (hi : i < length) : (mem.extract start (start + length)).toList[i]? = mem[start + i]? := by
  rw [Array.getElem?_toList, Array.getElem?_extract, if_pos (by omega)]

/-- Comparing a part that lies inside both memories. -/
theorem compareRegion_cases {got expected : Array Word} {start length : Nat} (pause : Nat)
    (region : String) (hgot : start + length ≤ got.size)
    (hexpected : start + length ≤ expected.size) :
    (compareRegion got expected pause region start length = some (.ok ()) ∧
      SameWords got expected start length) ∨
    ∃ m : Mismatch, compareRegion got expected pause region start length = some (.error m) ∧
      m.pause = pause ∧ m.region = region ∧ m.IsFirst got expected start length := by
  have hinside : ¬ (got.size < start + length ∨ expected.size < start + length) := by omega
  have hlengths := (length_part hgot).trans (length_part hexpected).symm
  unfold compareRegion
  simp only [if_neg hinside]
  cases hfirst : firstDifference 0 (got.extract start (start + length)).toList
      (expected.extract start (start + length)).toList with
  | none =>
    left
    rw [firstDifference_eq_none_iff hlengths] at hfirst
    refine ⟨rfl, fun lane hlane => ?_⟩
    rw [← getElem?_part hgot hlane, hfirst, getElem?_part hexpected hlane]
  | some found =>
    right
    obtain ⟨lane, g, e⟩ := found
    obtain ⟨i, hlane, hg, he, hne, hbefore⟩ := firstDifference_eq_some hfirst
    obtain rfl : lane = i := by omega
    have hlt : lane < length := by
      rw [← length_part hgot]
      exact (List.getElem?_eq_some_iff.mp hg).1
    rw [getElem?_part hgot hlt] at hg
    rw [getElem?_part hexpected hlt] at he
    refine ⟨_, rfl, rfl, rfl, hlt, hg, he, hne, fun j hj => ?_⟩
    have hj_lt : j < length := Nat.lt_trans hj hlt
    rw [← getElem?_part hgot hj_lt, hbefore j hj, getElem?_part hexpected hj_lt]

namespace Image.Layout

variable (l : Layout) (got expected : Array Word)

structure Holds (mem : Array Word) : Prop where
  indices : l.indicesAt + l.batch ≤ mem.size
  values : l.valuesAt + l.batch ≤ mem.size

/-- Two memories hold the same index and the same value in every lane. -/
structure SameLanes (mem mem' : Array Word) : Prop where
  indices : SameWords mem mem' l.indicesAt l.batch
  values : SameWords mem mem' l.valuesAt l.batch

/-- The first difference in the order in which all indices come before all values. -/
inductive FirstDifference (m : Mismatch) : Prop
  | index (hregion : m.region = "indices") (hfirst : m.IsFirst got expected l.indicesAt l.batch)
  | value (hindices : SameWords got expected l.indicesAt l.batch) (hregion : m.region = "values")
      (hfirst : m.IsFirst got expected l.valuesAt l.batch)

end Image.Layout

variable {l : Image.Layout} {got expected : Array Word}

theorem compareAtPause_cases (hgot : l.Holds got) (hexpected : l.Holds expected) (pause : Nat) :
    (compareAtPause got expected l pause = some (.ok ()) ∧ l.SameLanes got expected) ∨
    ∃ m : Mismatch, compareAtPause got expected l pause = some (.error m) ∧ m.pause = pause ∧
      l.FirstDifference got expected m := by
  rcases compareRegion_cases pause "indices" hgot.indices hexpected.indices with
    ⟨hindices, hsame⟩ | ⟨m, hindices, hpause, hregion, hfirst⟩
  · have hvalues : compareAtPause got expected l pause =
        compareRegion got expected pause "values" l.valuesAt l.batch := by
      unfold compareAtPause
      rw [hindices]
    rw [hvalues]
    rcases compareRegion_cases pause "values" hgot.values hexpected.values with
      ⟨hok, hsame'⟩ | ⟨m, herror, hpause, hregion, hfirst⟩
    · exact .inl ⟨hok, hsame, hsame'⟩
    · exact .inr ⟨m, herror, hpause, .value hsame hregion hfirst⟩
  · refine .inr ⟨m, ?_, hpause, .index hregion hfirst⟩
    unfold compareAtPause
    rw [hindices]

theorem Mismatch.IsFirst.not_sameWords {m : Mismatch} {start length : Nat}
    (h : m.IsFirst got expected start length) : ¬ SameWords got expected start length := by
  intro hsame
  have heq := hsame m.lane h.lane_lt
  rw [h.got_eq, h.expected_eq] at heq
  exact h.differs (Option.some.inj heq)

theorem Image.Layout.FirstDifference.not_sameLanes {m : Mismatch}
    (h : l.FirstDifference got expected m) : ¬ l.SameLanes got expected := by
  intro hsame
  cases h with
  | index _ hfirst => exact hfirst.not_sameWords hsame.indices
  | value _ _ hfirst => exact hfirst.not_sameWords hsame.values

theorem compareRegion_congr {got' expected' : Array Word} {start length : Nat} (pause : Nat)
    (region : String) (hgot : start + length ≤ got.size) (hgot' : start + length ≤ got'.size)
    (hexpected : start + length ≤ expected.size) (hexpected' : start + length ≤ expected'.size)
    (hsame : SameWords got got' start length)
    (hsame' : SameWords expected expected' start length) :
    compareRegion got' expected' pause region start length =
      compareRegion got expected pause region start length := by
  have hpart {mem mem' : Array Word} (h : start + length ≤ mem.size)
      (h' : start + length ≤ mem'.size) (hsame : SameWords mem mem' start length) :
      (mem.extract start (start + length)).toList =
        (mem'.extract start (start + length)).toList := by
    apply List.ext_getElem?
    intro i
    by_cases hi : i < length
    · rw [getElem?_part h hi, getElem?_part h' hi, hsame i hi]
    · rw [List.getElem?_eq_none (by rw [length_part h]; omega),
        List.getElem?_eq_none (by rw [length_part h']; omega)]
  have hinside : ¬ (got.size < start + length ∨ expected.size < start + length) := by omega
  have hinside' : ¬ (got'.size < start + length ∨ expected'.size < start + length) := by omega
  unfold compareRegion
  simp only [if_neg hinside, if_neg hinside', hpart hgot hgot' hsame,
    hpart hexpected hexpected' hsame']

/-- The comparison succeeds exactly on memories with the same indices and values. Otherwise it tells
of their first difference, with the words that stand there. Nothing else has an influence on it. -/
theorem compareAtPause_reports_first (hgot : l.Holds got) (hexpected : l.Holds expected)
    (pause : Nat) :
    (compareAtPause got expected l pause = some (.ok ()) ↔ l.SameLanes got expected) ∧
    (¬ l.SameLanes got expected → ∃ m : Mismatch,
      compareAtPause got expected l pause = some (.error m) ∧ m.pause = pause ∧
        l.FirstDifference got expected m) ∧
    ∀ got' expected', l.Holds got' → l.Holds expected' → l.SameLanes got got' →
      l.SameLanes expected expected' →
      compareAtPause got' expected' l pause = compareAtPause got expected l pause := by
  refine ⟨?_, ?_, ?_⟩
  · rcases compareAtPause_cases hgot hexpected pause with ⟨hok, hsame⟩ | ⟨m, herror, -, hfirst⟩
    · exact iff_of_true hok hsame
    · exact iff_of_false (by simp [herror]) hfirst.not_sameLanes
  · intro hdiffers
    rcases compareAtPause_cases hgot hexpected pause with ⟨-, hsame⟩ | herror
    · exact absurd hsame hdiffers
    · exact herror
  · intro got' expected' hgot' hexpected' hsame hsame'
    unfold compareAtPause
    rw [compareRegion_congr pause "indices" hgot.indices hgot'.indices hexpected.indices
        hexpected'.indices hsame.indices hsame'.indices,
      compareRegion_congr pause "values" hgot.values hgot'.values hexpected.values
        hexpected'.values hsame.values hsame'.values]

/-- Two lanes with their indices at 11 and their values at 13. The second value differs, and so
does a word behind both parts. -/
theorem compareAtPause_reports_first_second_value :
    let l : Image.Layout := ⟨1, 3, 2, 1, 8, 11, 13, 15⟩
    let expected : Array Word := #[0, 1, 2, 3, 4, 5, 6, 7, 8, 9, 10, 11, 12, 13, 14, 15]
    let got : Array Word := #[0, 1, 2, 3, 4, 5, 6, 7, 8, 9, 10, 11, 12, 13, 99, 0]
    let m : Mismatch := ⟨1, "values", 1, 99, 14⟩
    l.Holds got ∧ l.Holds expected ∧ compareAtPause got expected l 1 = some (.error m) ∧
      l.FirstDifference got expected m := by
  intro l expected got m
  have hgot : l.Holds got := ⟨by decide, by decide⟩
  have hexpected : l.Holds expected := ⟨by decide, by decide⟩
  have hcompare : compareAtPause got expected l 1 = some (.error m) := by decide +kernel
  obtain ⟨hok, hfirst, -⟩ := compareAtPause_reports_first hgot hexpected 1
  have hdiffers : ¬ l.SameLanes got expected := by
    rw [← hok, hcompare]
    simp
  obtain ⟨m', herror, -, hm'⟩ := hfirst hdiffers
  obtain rfl : m = m' := by simpa [hcompare] using herror
  exact ⟨hgot, hexpected, hcompare, hm'⟩

end TreeWalk
