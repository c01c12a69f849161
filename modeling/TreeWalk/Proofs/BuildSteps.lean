import TreeWalk.Kernel.Frame
import TreeWalk.Scratch.Draft

/-!
# What the steps of a build are made of

Whatever asks for scratch, looks at the pool and changes it, emits an operation, or does such
things one after the other, is a step of a build. A property of steps that all of these have is a
property of laying out a frame.
-/

namespace TreeWalk

namespace Draft

/-- A property of steps that the smallest ones have, and that a step has if its parts do. -/
structure Compositional (P : (α : Type) → Drafting α → Prop) : Prop where
  pure : ∀ {α : Type} (a : α), P α (Pure.pure a)
  emit : ∀ op, P Unit (Draft.emit op)
  reserve : ∀ name n, P Addr (Draft.reserve name n)
  setPool : ∀ f : ConstPool → ConstPool, P PUnit (modify fun d => { d with pool := f d.pool })
  look : ∀ {α : Type} {f : Draft → Drafting α}, (∀ d d', d.pool = d'.pool → f d = f d') →
    (∀ d, P α (f d)) → P α (do f (← get))
  bind : ∀ {α β : Type} {step : Drafting α} {f : α → Drafting β}, P α step → (∀ a, P β (f a)) →
    P β (step >>= f)

namespace Compositional

variable {P : (α : Type) → Drafting α → Prop} (h : Compositional P)

include h

theorem constant (value : Word) : P Addr (Draft.constant value) := by
  refine h.look (fun d d' hpool => by rw [hpool]) fun d => ?_
  cases d.pool.scalars.lookup value with
  | some addr => exact h.pure addr
  | none =>
    refine h.bind (h.reserve _ _) fun addr => h.bind (h.emit _) fun _ => h.bind ?_ fun _ => h.pure _
    exact h.setPool fun p => { p with scalars := (value, addr) :: p.scalars }

theorem vectorConstant (value : Word) : P Addr (Draft.vectorConstant value) := by
  refine h.look (fun d d' hpool => by rw [hpool]) fun d => ?_
  cases d.pool.vectors.lookup value with
  | some addr => exact h.pure addr
  | none =>
    refine h.bind (h.constant value) fun _ => h.bind (h.reserve _ _) fun addr =>
      h.bind (h.emit _) fun _ => h.bind ?_ fun _ => h.pure _
    exact h.setPool fun p => { p with vectors := (value, addr) :: p.vectors }

theorem forRange {α : Type} {step : Nat → Drafting α} (hstep : ∀ i, P α (step i))
    (start count : Nat) : P (List α) (Draft.forRange step start count) := by
  induction count generalizing start with
  | zero => exact h.pure []
  | succ count ih =>
    exact h.bind (hstep start) fun _ => h.bind (ih (start + 1)) fun _ => h.pure _

/-! ## Laying out a frame -/

theorem loadFrom (first : Nat) (dests : List Addr) :
    P Unit (HeaderRegs.loadFrom first dests) := by
  induction dests generalizing first with
  | nil => exact h.pure ()
  | cons dest rest ih =>
    exact h.bind (h.constant _) fun _ => h.bind (h.emit _) fun _ => ih (first + 1)

theorem header : P HeaderRegs HeaderRegs.load :=
  h.bind (h.reserve _ 1) fun _ => h.bind (h.reserve _ 1) fun _ => h.bind (h.reserve _ 1) fun _ =>
    h.bind (h.reserve _ 1) fun _ => h.bind (h.reserve _ 1) fun _ => h.bind (h.reserve _ 1) fun _ =>
      h.bind (h.reserve _ 1) fun _ => h.bind (h.loadFrom 0 _) fun _ => h.pure _

theorem lower (form : Mix.Form) : P Mix.Lowered form.lower := by
  cases form with
  | fused multiplier addend =>
    exact h.bind (h.vectorConstant addend) fun _ => h.bind (h.vectorConstant multiplier) fun _ =>
      h.pure _
  | split left leftValue combine right rightValue =>
    exact h.bind (h.vectorConstant leftValue) fun _ => h.bind (h.vectorConstant rightValue) fun _ =>
      h.pure _

theorem lowerStages (stages : List Mix.Stage) :
    P (List Mix.Lowered) (Frame.lowerStages stages) := by
  induction stages with
  | nil => exact h.pure []
  | cons stage rest ih => exact h.bind (h.lower _) fun _ => h.bind ih fun _ => h.pure _

theorem workSet (i : Nat) : P WorkSet (WorkSet.reserve i) :=
  h.bind (h.reserve _ _) fun _ => h.bind (h.reserve _ _) fun _ => h.bind (h.reserve _ _) fun _ =>
    h.bind (h.reserve _ _) fun _ => h.bind (h.reserve _ _) fun _ => h.pure _

theorem reserveIf {α : Type} {condition : Bool} {step : Drafting α} (hstep : P α step) :
    P (Option α) (TopNodes.reserveIf condition step) := by
  unfold TopNodes.reserveIf
  split
  · exact h.bind hstep fun _ => h.pure _
  · exact h.pure none

theorem topNodes (height : Nat) : P TopNodes (TopNodes.reserve height) := by
  have hlevel1 : P _ TopNodes.reserveLevel1 :=
    h.bind (h.reserve _ _) fun _ => h.bind (h.reserve _ _) fun _ => h.pure _
  have hlevel2 : P _ TopNodes.reserveLevel2 :=
    h.bind (h.reserve _ _) fun _ => h.bind (h.reserve _ _) fun _ =>
      h.bind (h.reserve _ _) fun _ => h.bind (h.reserve _ _) fun _ => h.pure _
  exact h.bind (h.reserve _ _) fun _ => h.bind (h.reserve _ _) fun _ =>
    h.bind (h.reserveIf hlevel1) fun _ => h.bind (h.reserveIf hlevel2) fun _ => h.pure _

theorem frame (shape : FrameShape) : P Frame (Frame.reserve shape) :=
  h.bind h.header fun _ => h.bind (h.forRange (fun _ => h.constant _) 0 4) fun _ =>
    h.bind (h.vectorConstant 1) fun _ => h.bind (h.vectorConstant 2) fun _ =>
      h.bind (h.vectorConstant 3) fun _ => h.bind (h.reserve _ _) fun _ =>
        h.bind (h.emit _) fun _ => h.bind (h.lowerStages _) fun _ =>
          h.bind (h.forRange (fun _ => h.constant _) 0 _) fun _ =>
            h.bind (h.forRange (fun _ => h.constant _) 0 _) fun _ =>
              h.bind (h.reserve _ _) fun _ => h.bind (h.reserve _ _) fun _ =>
                h.bind (h.forRange h.workSet 0 _) fun _ => h.bind (h.topNodes _) fun _ =>
                  h.bind (h.reserve _ _) fun _ => h.pure _

end Compositional

end Draft

end TreeWalk
