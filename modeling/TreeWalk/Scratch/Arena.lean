import TreeWalk.Scratch.Regions

/-!
# Scratch allocation

Scratch is handed out upwards and never given back, so an address keeps its meaning for the whole
build. A request that does not fit changes nothing.
-/

namespace TreeWalk

/-- A request that did not fit. -/
structure OutOfScratch where
  name : Option String
  requested : Nat
  inUse : Nat
  capacity : Nat
  deriving DecidableEq, Repr

def OutOfScratch.message (e : OutOfScratch) : String :=
  let name := e.name.getD "<anonymous>"
  s!"out of scratch space allocating {e.requested} word(s) for {name} " ++
    s!"({e.inUse} of {e.capacity} in use)"

/-- Scratch of which the first `used` words are handed out. -/
structure Arena where
  used : Nat
  capacity : Nat
  regions : Regions
  deriving DecidableEq, Repr

namespace Arena

def ofCapacity (capacity : Nat) : Arena := ⟨0, capacity, []⟩

/-- Words still free. -/
def remaining (a : Arena) : Nat := a.capacity - a.used

/-- Hand out the next `length` words, as a named region if there is a name. -/
def reserve (a : Arena) (name : Option String) (length : Nat) :
    Except OutOfScratch (Addr × Arena) :=
  if a.used + length ≤ a.capacity then
    let start := Addr.ofNat a.used
    let regions := match name with
      | some n => a.regions.insert ⟨start, n, length⟩
      | none => a.regions
    .ok (start, ⟨a.used + length, a.capacity, regions⟩)
  else
    .error ⟨name, length, a.used, a.capacity⟩

theorem reserve_eq_error_iff {a : Arena} {name : Option String} {length : Nat}
    {e : OutOfScratch} :
    a.reserve name length = .error e ↔
      a.capacity < a.used + length ∧ e = ⟨name, length, a.used, a.capacity⟩ := by
  unfold reserve
  split <;> rename_i h
  · simp; omega
  · simp [eq_comm]; omega

theorem reserve_of_fits {a : Arena} {name : Option String} {length : Nat}
    (h : a.used + length ≤ a.capacity) :
    a.reserve name length = .ok (Addr.ofNat a.used, ⟨a.used + length, a.capacity,
      name.elim a.regions fun n => a.regions.insert ⟨Addr.ofNat a.used, n, length⟩⟩) := by
  rw [reserve, if_pos h]
  cases name <;> rfl

theorem reserve_ok {a b : Arena} {name : Option String} {length : Nat} {start : Addr}
    (h : a.reserve name length = .ok (start, b)) :
    a.used + length ≤ a.capacity ∧ start = Addr.ofNat a.used ∧ b.used = a.used + length ∧
      b.capacity = a.capacity := by
  unfold reserve at h
  split at h
  · simp only [Except.ok.injEq, Prod.mk.injEq] at h
    obtain ⟨rfl, rfl⟩ := h
    exact ⟨by assumption, rfl, rfl, rfl⟩
  · simp at h

end Arena

end TreeWalk
