import TreeWalk.Op

/-!
# Named scratch regions

Diagnostics ask which named region an address lies in. Regions stand in ascending order of their
start, one to a start.
-/

namespace TreeWalk

/-- `length` words from `start` on, known by a name. -/
structure Region where
  start : Addr
  name : String
  length : Nat
  deriving DecidableEq, Repr

/-- Regions in ascending order of their start. -/
abbrev Regions := List Region

namespace Regions

/-- Add a region. It replaces one that starts at the same address. -/
def insert (r : Region) : Regions → Regions
  | [] => [r]
  | x :: rest =>
    if r.start.toNat < x.start.toNat then r :: x :: rest
    else if r.start = x.start then r :: rest
    else x :: insert r rest

/-- The region with the nearest start at or below `a`. -/
def nearest? (a : Addr) (regions : Regions) : Option Region :=
  regions.reverse.find? fun r => r.start.toNat ≤ a.toNat

/-- The name and the lane of `a` in the region with the nearest start, if `a` lies in it. -/
def lookup? (regions : Regions) (a : Addr) : Option (String × Nat) :=
  (regions.nearest? a).bind fun r =>
    let lane := a.toNat - r.start.toNat
    if lane < r.length then some (r.name, lane) else none

end Regions

end TreeWalk
