import TreeWalk.Op

/-!
# Bundles and programs

A bundle keeps the ops of each engine apart, in the order in which they joined. A program is the
list of bundles that a core issues one after the other.
-/

namespace TreeWalk

/-- The ops that issue in one cycle, engine by engine. -/
structure Bundle where
  alu : List ScalarOp := []
  valu : List VectorOp := []
  load : List LoadOp := []
  store : List StoreOp := []
  flow : List FlowOp := []
  notes : List String := []
  deriving DecidableEq, Repr

namespace Bundle

def empty : Bundle := {}

def push (b : Bundle) : Op → Bundle
  | .alu op => { b with alu := b.alu ++ [op] }
  | .valu op => { b with valu := b.valu ++ [op] }
  | .load op => { b with load := b.load ++ [op] }
  | .store op => { b with store := b.store ++ [op] }
  | .flow op => { b with flow := b.flow ++ [op] }
  | .note text => { b with notes := b.notes ++ [text] }

/-- The bundle of a list of ops. -/
def ofOps (ops : List Op) : Bundle := ops.foldl push empty

def single (op : Op) : Bundle := empty.push op

def on (b : Bundle) : Engine → List Op
  | .alu => b.alu.map .alu
  | .valu => b.valu.map .valu
  | .load => b.load.map .load
  | .store => b.store.map .store
  | .flow => b.flow.map .flow
  | .debug => b.notes.map .note

def count (b : Bundle) : Engine → Nat
  | .alu => b.alu.length
  | .valu => b.valu.length
  | .load => b.load.length
  | .store => b.store.length
  | .flow => b.flow.length
  | .debug => b.notes.length

/-- All ops, engine by engine. -/
def ops (b : Bundle) : List Op := Engine.all.flatMap b.on

def size (b : Bundle) : Nat := (Engine.all.map b.count).foldr (· + ·) 0

def isEmpty (b : Bundle) : Bool := Engine.all.all fun e => b.count e == 0

/-- Whether some engine other than `debug` issues an op. Only such a bundle costs a cycle. -/
def isEffective (b : Bundle) : Bool := Engine.issuing.any fun e => b.count e != 0

theorem length_on (b : Bundle) (e : Engine) : (b.on e).length = b.count e := by
  cases e <;> simp [on, count]

@[simp] theorem on_empty (e : Engine) : empty.on e = [] := by
  cases e <;> rfl

theorem on_push (b : Bundle) (op : Op) (e : Engine) :
    (b.push op).on e = b.on e ++ if op.engine = e then [op] else [] := by
  cases op <;> cases e <;> simp [push, on, Op.engine]

theorem ext_on {b c : Bundle} (h : ∀ e, b.on e = c.on e) : b = c := by
  have key {α : Type} {f : α → Op} (hf : ∀ x y, f x = f y → x = y) {xs ys : List α}
      (h : xs.map f = ys.map f) : xs = ys :=
    (List.map_inj_right hf).1 h
  cases b; cases c
  simp only [mk.injEq]
  exact ⟨key (by simp) (h .alu), key (by simp) (h .valu), key (by simp) (h .load),
    key (by simp) (h .store), key (by simp) (h .flow), key (by simp) (h .debug)⟩

end Bundle

/-- The bundles of a program in issue order. -/
structure Program where
  bundles : Array Bundle
  deriving DecidableEq

namespace Program

def ofList (bundles : List Bundle) : Program := ⟨bundles.toArray⟩

def size (p : Program) : Nat := p.bundles.size

def get? (p : Program) (index : Nat) : Option Bundle := p.bundles[index]?

def isEmpty (p : Program) : Bool := p.bundles.isEmpty

/-- The bundles that cost a cycle, which is the cycles of a straight run. -/
def issueCycles (p : Program) : Nat := p.bundles.countP Bundle.isEffective

def count (p : Program) (e : Engine) : Nat := (p.bundles.toList.map (·.count e)).foldr (· + ·) 0

end Program

end TreeWalk
