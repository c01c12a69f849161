import TreeWalk.Bundle
import TreeWalk.Op.Access

/-!
# Packing ops into bundles

Ops are never reordered: a list of ops is cut into runs, and each run becomes a bundle. A run takes
the next op as long as the op's engine has room and the op neither reads nor writes an address that
the run already writes. It may write an address that the run reads, because all ops of a bundle
read scratch as it was before the bundle. A note always joins.
-/

namespace TreeWalk

namespace Packing

inductive Mode where
  /-- Runs as long as the widths and the addresses allow. -/
  | wide
  /-- One op in each bundle. -/
  | unit
  deriving DecidableEq, Repr

/-- Whether `op` touches one of the addresses in `written`. -/
def touches (written : List Addr) (op : Op) : Bool :=
  op.reads.any written.contains || op.writes.any written.contains

/-- Whether a run that holds `run` and writes `written` has to end before `op`. -/
def blocks (widths : Widths) (run : List Op) (written : List Addr) (op : Op) : Bool :=
  widths.of op.engine ≤ run.countP (fun other => other.engine == op.engine) ||
    touches written op

/-- Cut the ops into runs. `run` is the open run with its last op first, and `written` are the
addresses that it writes. -/
def runsFrom (widths : Widths) (run : List Op) (written : List Addr) :
    List Op → List (List Op)
  | [] => if run.isEmpty then [] else [run.reverse]
  | op :: rest =>
    if op.isNote then runsFrom widths (op :: run) written rest
    else if blocks widths run written op then
      run.reverse :: runsFrom widths [op] op.writes rest
    else runsFrom widths (op :: run) (op.writes ++ written) rest

/-- The runs that become bundles. -/
def runs (widths : Widths) (ops : List Op) : List (List Op) := runsFrom widths [] [] ops

/-- Cut the ops into bundles. -/
def pack (mode : Mode) (widths : Widths) (ops : List Op) : List Bundle :=
  match mode with
  | .wide => (runs widths ops).map Bundle.ofOps
  | .unit => ops.map Bundle.single

/-- No op is lost, doubled or moved. -/
theorem flatten_runsFrom (widths : Widths) (run : List Op) (written : List Addr)
    (ops : List Op) :
    (runsFrom widths run written ops).flatten = run.reverse ++ ops := by
  induction ops generalizing run written with
  | nil =>
    cases run <;> simp [runsFrom]
  | cons op rest ih =>
    simp only [runsFrom]
    split
    · simp [ih]
    · split <;> simp [ih]

theorem flatten_runs (widths : Widths) (ops : List Op) : (runs widths ops).flatten = ops := by
  simp [runs, flatten_runsFrom]

end Packing

end TreeWalk
