/-!
# Decimal numbers

Reading a size, padding a number to a column, and writing a quotient with a fixed number of places.
The quotient is taken to 53 binary digits first; both roundings go to the nearest value and from a
tie to the even one.
-/

namespace TreeWalk

namespace Decimal

/-- The value of a digit list, most significant digit first. -/
def valueOf (digits : List Char) : Nat :=
  digits.foldl (fun n c => n * 10 + (c.toNat - '0'.toNat)) 0

/-- The number below `limit` that a text of digits stands for. A plus sign may stand before it. -/
def read? (limit : Nat) (text : String) : Option Nat :=
  let digits := match text.toList with
    | '+' :: rest => rest
    | chars => chars
  if digits.isEmpty || !digits.all Char.isDigit then none
  else
    let n := valueOf digits
    if n < limit then some n else none

/-- Fill up with blanks on the left to a width. -/
def column (width n : Nat) : String :=
  let text := toString n
  "".pushn ' ' (width - text.length) ++ text

/-- The integer nearest to `num / den`; of two, the even one. -/
def roundEven (num den : Nat) : Nat :=
  let q := num / den
  let twice := 2 * (num % den)
  if twice < den then q
  else if den < twice then q + 1
  else q + q % 2

/-- A number `mantissa / 2 ^ scale`. -/
structure Binary where
  mantissa : Nat
  scale : Nat
  deriving DecidableEq, Repr

/-- Binary digits of a mantissa. -/
def precision : Nat := 53

/-- The number of 53 binary digits that is nearest to `num / den`, for a quotient that has no more
than that before the point. -/
def Binary.quotient (num den : Nat) : Binary :=
  let scale := precision + den.log2 - num.log2
  let scale := if num <<< scale < den <<< precision then scale else scale - 1
  ⟨roundEven (num <<< scale) den, scale⟩

def Binary.fixed (b : Binary) (places : Nat) : String :=
  let unit := Nat.pow 10 places
  let n := roundEven (b.mantissa * unit) (1 <<< b.scale)
  let fraction := toString (n % unit)
  s!"{n / unit}." ++ "".pushn '0' (places - fraction.length) ++ fraction

/-- A rounded quotient is at most half a unit off. -/
theorem roundEven_near {num den : Nat} (h : 0 < den) :
    2 * num ≤ 2 * (roundEven num den * den) + den ∧
      2 * (roundEven num den * den) ≤ 2 * num + den := by
  have hq := Nat.div_add_mod num den
  have hm := Nat.mod_lt num h
  have hc : num / den * den = den * (num / den) := Nat.mul_comm ..
  unfold roundEven
  simp only
  split
  · omega
  · split
    · rw [Nat.add_mul]
      omega
    · rcases Nat.mod_two_eq_zero_or_one (num / den) with h2 | h2 <;>
        rw [h2, Nat.add_mul] <;> omega

end Decimal

end TreeWalk
