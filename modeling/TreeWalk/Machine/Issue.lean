import TreeWalk.Bundle
import TreeWalk.Machine.Effect

/-!
# Issuing a bundle

The engines take their turns in order. An engine that is given too many operations faults before
its first one. The scratch and memory writes of a bundle are collected and applied when all of its
operations are done: scratch first, each in the order in which it was asked for. Control changes
take place at once, and they stay when a later operation faults.
-/

namespace TreeWalk

/-- Collect the effects of some operations, up to the first that faults. -/
def collect (v : View) : List Op → Effect → Effect × Option Fault
  | [], e => (e, none)
  | op :: rest, e =>
    match op.effect v e.control with
    | .error fault => (e, some fault)
    | .ok next =>
      collect v rest
        { scratch := e.scratch ++ next.scratch, mem := e.mem ++ next.mem, control := next.control }

def collectEngines (v : View) (widths : Widths) (b : Bundle) :
    List Engine → Effect → Effect × Option Fault
  | [], e => (e, none)
  | engine :: rest, e =>
    if widths.of engine < b.count engine then
      (e, some (.tooManyOps v.pc engine (b.count engine) (widths.of engine)))
    else
      match collect v (b.on engine) e with
      | (next, none) => collectEngines v widths b rest next
      | faulted => faulted

/-- A core and the memory after a bundle, and the fault that broke the bundle off. -/
structure Issued where
  core : Core
  mem : Array Word
  fault : Option Fault

/-- Apply what a bundle asked for. -/
def Effect.commit (id : Nat) (scratch mem : Array Word) (e : Effect) : Issued :=
  match Scratch.write e.scratch scratch with
  | (scratch, none) => ⟨⟨id, scratch, e.control⟩, Memory.write e.mem mem, none⟩
  | (scratch, fault) => ⟨⟨id, scratch, e.control⟩, mem, fault⟩

/-- Issue a bundle, which has the number `pc`, on a core. -/
def Core.issue (core : Core) (mem : Array Word) (b : Bundle) (widths : Widths)
    (honorPause : Bool) (pc : Nat) : Issued :=
  let ⟨id, scratch, control⟩ := core
  match collectEngines ⟨id, scratch, mem, pc, honorPause⟩ widths b Engine.issuing { control } with
  | (e, none) => e.commit id scratch mem
  | (e, fault) => ⟨⟨id, scratch, e.control⟩, mem, fault⟩

end TreeWalk
