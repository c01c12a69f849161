/-!
# Words and sizes

A word is what a scratch or memory cell holds. A size counts cells, lanes or bundles; sizes fit
64 bits, and the few places where a sum or product of sizes may not fit say so.
-/

namespace TreeWalk

/-- A machine word. Arithmetic wraps modulo `2 ^ 32`. -/
abbrev Word := UInt32

namespace Word

/-- Left shift. An amount of 32 or more leaves nothing. -/
def shiftUp (a amount : Word) : Word :=
  if amount < 32 then a <<< amount else 0

/-- Right shift. An amount of 32 or more leaves nothing. -/
def shiftDown (a amount : Word) : Word :=
  if amount < 32 then a >>> amount else 0

/-- The word `1` for a true condition and `0` for a false one. -/
def ofBool (b : Bool) : Word := if b then 1 else 0

/-- The largest word, as a size. -/
def maxSize : Nat := 1 <<< 32 - 1

end Word

namespace Size

/-- Sizes are below this number. -/
def limit : Nat := 1 <<< 64

/-- The size left of `n` when only 64 bits are kept. -/
def wrap (n : Nat) : Nat := n % limit

/-- A sum that is still a size. -/
def add? (a b : Nat) : Option Nat :=
  if a + b < limit then some (a + b) else none

/-- A product that is still a size. -/
def mul? (a b : Nat) : Option Nat :=
  if a * b < limit then some (a * b) else none

theorem wrap_of_lt {n : Nat} (h : n < limit) : wrap n = n := Nat.mod_eq_of_lt h

theorem add?_eq_some_iff {a b c : Nat} : add? a b = some c ↔ a + b < limit ∧ a + b = c := by
  unfold add?
  split <;> rename_i h <;> simp [h]

theorem mul?_eq_some_iff {a b c : Nat} : mul? a b = some c ↔ a * b < limit ∧ a * b = c := by
  unfold mul?
  split <;> rename_i h <;> simp [h]

end Size

end TreeWalk
