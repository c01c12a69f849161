import TreeWalk.Proofs.PackedRun

/-!
# Loads behind stores of one run

Operations of one bundle see the memory without the stores that stand before them in the run. Where
that makes no difference to a load, the bundle does what its run does op by op.
-/

namespace TreeWalk

/-- The stores that stand before a load of the run do not change what it loads. -/
def Undisturbed (run : List Op) (s : Contents) : Prop :=
  ∀ before op after, run = before ++ .load op :: after →
    op.writesIn { s.view with mem := Memory.write (wishes s.view before).mem s.mem } =
      op.writesIn s.view

def AllUndisturbed : List (List Op) → Contents → Prop
  | [], _ => True
  | run :: rest, s =>
    Undisturbed run s ∧ ∀ t, execute run s = some t → AllUndisturbed rest t

variable {run : List Op} {s : Contents}

theorem undisturbed_of_memory
    (h : run.Pairwise fun x y => x.writesMemory = true → y.readsMemory = false) (s : Contents) :
    Undisturbed run s := by
  rintro before op after rfl
  obtain ⟨-, -, hbefore⟩ := List.pairwise_append.mp h
  refine LoadOp.writesIn_congr ⟨rfl, rfl, rfl, rfl, fun _ _ => rfl⟩ fun hreads => ?_
  have hnil : (wishes s.view before).mem = [] := by
    refine List.flatMap_eq_nil_iff.mpr fun x hx => Op.mem_wish_eq_nil fun hstore => ?_
    have hwrites : x.writesMemory = true := by cases x <;> first | rfl | cases hstore
    rw [hbefore x hx (.load op) List.mem_cons_self hwrites] at hreads
    cases hreads
  rw [hnil]
  rfl

theorem allUndisturbed_of_memory {runs : List (List Op)}
    (h : ∀ run ∈ runs, run.Pairwise fun x y => x.writesMemory = true → y.readsMemory = false)
    (s : Contents) : AllUndisturbed runs s := by
  induction runs generalizing s with
  | nil => trivial
  | cons run rest ih =>
    exact ⟨undisturbed_of_memory (h run List.mem_cons_self) s,
      fun t _ => ih (fun r hr => h r (List.mem_cons_of_mem run hr)) t⟩

theorem Undisturbed.of_append {run' : List Op} (h : Undisturbed (run ++ run') s) :
    Undisturbed run s := by
  rintro before op after rfl
  exact h before op (after ++ run') (by simp)

theorem mem_eq_wishes_of_collect (hops : ∀ op ∈ run, op.isStraight = true) {v : View} {e : Effect}
    (h : collect v run { control := {} } = (e, none)) : e.mem = (wishes v run).mem := by
  have hok : ∀ op ∈ run, op.Succeeds v := by
    by_contra hbad
    exact collect_snd_ne_none hops hbad _ (congrArg Prod.snd h)
  rw [collect_eq_wishes hops hok] at h
  obtain rfl := (Prod.mk.inj h).1
  exact List.nil_append _

/-- An undisturbed run may be carried out together or one operation after the other. -/
theorem executeTogether_eq_execute_of_undisturbed (hops : ∀ op ∈ run, op.isStraight = true)
    (hfit : ∀ op ∈ run, op.Fits) (hspares : run.Pairwise Op.Spares) (h : Undisturbed run s) :
    executeTogether run s = execute run s := by
  induction run using List.reverseRecOn with
  | nil => simp [executeTogether, collect, Contents.commit, Scratch.write, Memory.write, execute]
  | append_singleton ops op ih =>
    obtain ⟨hspares, -, hspare⟩ := List.pairwise_append.mp hspares
    have hsub : ∀ x ∈ ops, x ∈ ops ++ [op] := fun x hx => List.mem_append_left _ hx
    have hstraight : ∀ x ∈ ops, x.isStraight = true := fun x hx => hops x (hsub x hx)
    have hspare : ∀ x ∈ ops, x.Spares op := fun x hx => hspare x hx op (by simp)
    have hop : op ∈ ops ++ [op] := by simp
    rw [executeTogether_snoc_of_effect_eq (hops op hop) fun e t hc ht => ?_,
      ih hstraight (fun x hx => hfit x (hsub x hx)) hspares h.of_append, execute_append]
    · exact Option.bind_congr fun t _ => (execute_singleton op t).symm
    · have hagrees := View.agrees_of_collect hspare hc ht
      obtain ⟨-, -, hsize, -⟩ := Contents.commit_frame ht
      have hmem : t.mem = Memory.write (wishes s.view ops).mem s.mem := by
        rw [← mem_eq_wishes_of_collect hstraight hc]
        obtain ⟨-, rfl⟩ := Contents.commit_eq_some_iff.mp ht
        rfl
      cases op with
      | load op =>
        have hloads := h ops op [] rfl
        rw [← hmem] at hloads
        have hsame : op.writesIn t.view = op.writesIn { s.view with mem := t.mem } :=
          LoadOp.writesIn_congr ⟨hagrees.coreId, rfl, rfl, hagrees.size, hagrees.word⟩ fun _ => rfl
        simp only [Op.effect, hsame, hloads]
      | alu | valu | store | flow | note =>
        exact Op.effect_congr (hfit _ hop) hagrees hsize (fun hreads => by cases hreads) {}

end TreeWalk
