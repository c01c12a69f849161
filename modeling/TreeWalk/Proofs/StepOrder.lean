import TreeWalk.Proofs.MemberFootprint

/-!
# One step of the round loop

A step mixes the current passes stage by stage and fetches the node values of the next passes
beside the stages. Where operations of later passes may wait for those of earlier ones, it is the
work of the current passes, pass by pass, and then the node values of the next ones.
-/

namespace TreeWalk

/-! ## Events in due order -/

section Events

variable {α : Type}

def dueOps (due : Nat → Bool) (events : List (Nat × List α)) : List α :=
  events.flatMap fun e => if due e.1 then e.2 else []

theorem dueOps_append {p q : Nat → Bool} (hpq : ∀ t t', p t = true → q t' = true → t < t')
    {events : List (Nat × List α)} (h : events.Pairwise fun e e' => e.1 ≤ e'.1) :
    dueOps p events ++ dueOps q events = dueOps (fun t => p t || q t) events := by
  induction events with
  | nil => rfl
  | cons e rest ih =>
    obtain ⟨hfirst, hrest⟩ := List.pairwise_cons.mp h
    have ih := ih hrest
    simp only [dueOps, List.flatMap_cons] at ih ⊢
    rw [← ih]
    by_cases hq : q e.1 = true
    · -- nothing behind the first event is due at an earlier time
      have hp (e' : Nat × List α) (he' : e.1 ≤ e'.1) : ¬ p e'.1 = true := fun hp =>
        Nat.not_lt.mpr he' (hpq e'.1 e.1 hp hq)
      have hnone : (rest.flatMap fun e => if p e.1 then e.2 else []) = [] :=
        List.flatMap_eq_nil_iff.mpr fun e' he' => if_neg (hp e' (hfirst e' he'))
      rw [hnone, if_neg (hp e (Nat.le_refl _)), if_pos hq, if_pos (by simp [hq])]
      simp
    · by_cases hp : p e.1 = true <;> simp [hp, hq]

/-- Events in due order are taken up completely: one time after the other, and then the rest. -/
theorem flatMap_dueOps {events : List (Nat × List α)}
    (h : events.Pairwise fun e e' => e.1 ≤ e'.1) (n : Nat) :
    ((List.range n).flatMap fun i => dueOps (· == i) events) ++ dueOps (n ≤ ·) events =
      events.flatMap (·.2) := by
  have hbefore : ((List.range n).flatMap fun i => dueOps (· == i) events) =
      dueOps (· < n) events := by
    induction n with
    | zero =>
      symm
      exact List.flatMap_eq_nil_iff.mpr fun e _ => by simp
    | succ n ih =>
      rw [List.range_succ, List.flatMap_append, ih, List.flatMap_singleton,
        dueOps_append (fun t t' ht ht' => by simp_all) h]
      congr 1
      funext t
      rw [Bool.eq_iff_iff]
      simp
      omega
  rw [hbefore, dueOps_append (fun t t' ht ht' => by simp_all; omega) h, dueOps]
  refine List.flatMap_congr fun e _ => if_pos ?_
  simp
  omega

theorem flatMap_filter_eq {β : Type} (xs : List β) (c : β → Bool) (g : β → List α) :
    (xs.filter c).flatMap g = xs.flatMap fun x => if c x then g x else [] := by
  induction xs with
  | nil => rfl
  | cons x xs ih => by_cases hc : c x = true <;> simp [hc, ih]

end Events

namespace RoundLoop

/-! ## The gather of one pass, piece by piece -/

/-- The pieces of a gather of the member with number `i` of the next group, and when they are
due. -/
def gatherEvents (f : Frame) (m : Member) (i : Nat) : List (Nat × List Op) :=
  (Pipeline.addressStage i, NodeValues.gatherAddrOps f m.workSet m.chunk) ::
    (List.range Pipeline.pairCount).map fun pair =>
      (Pipeline.loadStage i pair, NodeValues.gatherLoadOps m.workSet (pairLanes pair))

def fetchPiece (f : Frame) (due : Nat → Bool) (m : Member × Nat) : List Op :=
  if f.top.covers m.1.depth then [] else dueOps due (gatherEvents f m.1 m.2)

theorem fetchOps_eq (f : Frame) (due : Nat → Bool) (next : List Member) :
    fetchOps f due next = next.zipIdx.flatMap (fetchPiece f due) := by
  unfold fetchOps
  refine List.flatMap_congr fun m _ => ?_
  simp only [fetchPiece]
  split
  · rfl
  · simp [dueOps, gatherEvents, List.flatMap_map]

theorem pairwise_gatherEvents (f : Frame) (m : Member) (i : Nat) :
    (gatherEvents f m i).Pairwise fun e e' => e.1 ≤ e'.1 := by
  refine List.pairwise_cons.mpr ⟨fun e he => ?_, List.pairwise_map.mpr ?_⟩
  · obtain ⟨pair, -, rfl⟩ := List.mem_map.mp he
    simp only [Pipeline.addressStage, Pipeline.loadStage]
    omega
  · refine List.pairwise_lt_range.imp fun h => ?_
    simp only [Pipeline.loadStage]
    omega

theorem flatMap_gatherEvents (f : Frame) (m : Member) (i : Nat) :
    (gatherEvents f m i).flatMap (·.2) = NodeValues.gatherOps f m.workSet m.chunk := rfl

/-- The gather of a pass, unless its level is kept in registers. -/
def fetchedOps (f : Frame) (m : Member) : List Op :=
  if f.top.covers m.depth then [] else NodeValues.gatherOps f m.workSet m.chunk

def keptOps (f : Frame) (m : Member) : List Op :=
  if f.top.covers m.depth then nodeValueOps f m else []

/-- The times at which a step fetches: beside each of `n` stages, and after them. -/
def dues (n : Nat) : List (Nat → Bool) :=
  ((List.range n).map fun i t => t == i) ++ [fun t => decide (n ≤ t)]

theorem flatMap_fetchPiece (f : Frame) (z : Member × Nat) (n : Nat) :
    ((dues n).flatMap fun due => fetchPiece f due z) = fetchedOps f z.1 := by
  have hdues : ((dues n).flatMap fun due => fetchPiece f due z) =
      ((List.range n).flatMap fun i => fetchPiece f (· == i) z) ++ fetchPiece f (n ≤ ·) z := by
    simp [dues, List.flatMap_map]
  rw [hdues]
  by_cases hc : f.top.covers z.1.depth = true
  · simp [fetchPiece, fetchedOps, hc]
  · simp only [fetchPiece, fetchedOps, hc, Bool.false_eq_true, if_false]
    rw [flatMap_dueOps (pairwise_gatherEvents f z.1 z.2), flatMap_gatherEvents]

theorem flatMap_fetchPieces (f : Frame) (next : List Member) (n : Nat) :
    (next.zipIdx.flatMap fun z => (dues n).flatMap fun due => fetchPiece f due z) =
      next.flatMap (fetchedOps f) := by
  conv_rhs => rw [← List.zipIdx_map_fst 0 next, List.flatMap_map]
  exact List.flatMap_congr fun z _ => flatMap_fetchPiece f z n

section Layout

variable {f : Frame} {shape : FrameShape} {used : Nat} {m : Member}

theorem nodeValueOps_of_not_covers (hf : f.Layout shape used)
    (h : f.top.covers m.depth = false) :
    nodeValueOps f m = NodeValues.gatherOps f m.workSet m.chunk := by
  have hdepth : f.top.depth < m.depth := by simpa [TopNodes.covers] using h
  have hlevel1 := hf.top.level1
  have hlevel2 := hf.top.level2
  rcases nodeValueOps_cases f m with ⟨h0, -⟩ | ⟨n1, n2, h1, hlevel, -⟩ |
    ⟨n0, n1, n2, n3, h2, hlevel, -⟩ | ⟨hops, -⟩
  · omega
  · simp only [hlevel] at hlevel1
    omega
  · simp only [hlevel] at hlevel2
    omega
  · exact hops

theorem fetchedOps_append_keptOps (hf : f.Layout shape used) (m : Member) :
    fetchedOps f m ++ keptOps f m = nodeValueOps f m := by
  unfold fetchedOps keptOps
  by_cases hc : f.top.covers m.depth = true
  · simp [hc]
  · have hc : f.top.covers m.depth = false := by simpa using hc
    simp [hc, nodeValueOps_of_not_covers hf hc]

end Layout

/-! ## The two threads of a step -/

def workPhases (f : Frame) : List (Member → List Op) :=
  (fun m => [takeNodeOp f m]) ::
    ((f.stages.flatMap fun low =>
      [fun m => low.parallelOps (f.valueBlock m.chunk) m.workSet.left m.workSet.right,
       fun m => low.combineOps (f.valueBlock m.chunk) m.workSet.left m.workSet.right]) ++
    [fun m => IndexUpdate.ops f m.workSet m.chunk])

theorem flatMap_workPhases (f : Frame) (m : Member) :
    (workPhases f).flatMap (fun phase => phase m) = workOps f m := by
  simp only [workPhases, List.flatMap_cons, List.flatMap_append, List.flatMap_assoc,
    List.flatMap_nil, List.append_nil, workOps]
  rfl

/-- What a step fetches, in order: the gathers, and behind them the top nodes. -/
def fetchThread (f : Frame) (next : List Member) : List Op :=
  ((dues f.stages.length).flatMap fun due => fetchOps f due next) ++
    (next.filter fun m => f.top.covers m.depth).flatMap (nodeValueOps f)

/-- A step carries out the work of the current passes and the fetches for the next ones in turn. -/
theorem woven_stepOps (f : Frame) (current next : List Member) :
    Woven ((workPhases f).flatMap fun phase => current.flatMap phase) (fetchThread f next)
      (stepOps f current next) := by
  let parallel (low : Mix.Lowered) : List Op := current.flatMap fun m =>
    low.parallelOps (f.valueBlock m.chunk) m.workSet.left m.workSet.right
  let combine (low : Mix.Lowered) : List Op := current.flatMap fun m =>
    low.combineOps (f.valueBlock m.chunk) m.workSet.left m.workSet.right
  have hstages : Woven (f.stages.zipIdx.flatMap fun z => parallel z.1 ++ [] ++ combine z.1)
      (f.stages.zipIdx.flatMap fun z => [] ++ fetchOps f (· == z.2) next ++ [])
      (f.stages.zipIdx.flatMap (stageOps f current next)) :=
    Woven.flatMap fun z _ => ((Woven.all_left _).append (.all_right _)).append (.all_left _)
  have hstep := ((((Woven.all_left (current.map (takeNodeOp f))).append hstages).append
    (.all_right (fetchOps f (f.stages.length ≤ ·) next))).append
    (.all_right ((next.filter fun m => f.top.covers m.depth).flatMap (nodeValueOps f)))).append
    (.all_left (current.flatMap fun m => IndexUpdate.ops f m.workSet m.chunk))
  have hwork : (workPhases f).flatMap (fun phase => current.flatMap phase) =
      current.map (takeNodeOp f) ++
        (f.stages.zipIdx.flatMap fun z => parallel z.1 ++ [] ++ combine z.1) ++ [] ++ [] ++
        current.flatMap fun m => IndexUpdate.ops f m.workSet m.chunk := by
    have hfst : (f.stages.zipIdx.flatMap fun z => parallel z.1 ++ [] ++ combine z.1) =
        f.stages.flatMap fun low => parallel low ++ combine low := by
      conv_rhs => rw [← List.zipIdx_map_fst 0 f.stages, List.flatMap_map]
      simp only [List.append_nil]
    have htake : (current.flatMap fun m => [takeNodeOp f m]) = current.map (takeNodeOp f) :=
      List.flatMap_pure_eq_map ..
    rw [hfst, ← htake]
    simp [workPhases, List.flatMap_assoc, parallel, combine]
  have hfetch : fetchThread f next =
      [] ++ (f.stages.zipIdx.flatMap fun z => [] ++ fetchOps f (· == z.2) next ++ []) ++
        fetchOps f (f.stages.length ≤ ·) next ++
        (next.filter fun m => f.top.covers m.depth).flatMap (nodeValueOps f) ++ [] := by
    have hsnd : (f.stages.zipIdx.flatMap fun z => [] ++ fetchOps f (· == z.2) next ++ []) =
        (List.range f.stages.length).flatMap fun i => fetchOps f (· == i) next := by
      rw [List.range_eq_range', ← List.zipIdx_map_snd 0 f.stages, List.flatMap_map]
      simp only [List.nil_append, List.append_nil]
    rw [hsnd]
    simp [fetchThread, dues, List.flatMap_map]
  rw [hwork, hfetch]
  exact hstep

/-! ## Passes gathered -/

/-- An operation of the second pass may wait for an operation of the first that stands behind
it. -/
def Member.Yields (R : List Op → List Op → Prop) (f : Frame) (m n : Member) : Prop :=
  ∀ x ∈ passOps f m, ∀ y ∈ passOps f n, R [y, x] [x, y]

section Relates

variable {R : List Op → List Op → Prop} {f : Frame} {shape : FrameShape} {used : Nat}
  {current next : List Member}

theorem Member.yields_perm (f : Frame) (m n : Member) : m.Yields List.Perm f n :=
  fun x _ y _ => .swap x y []

theorem relates_workThread (hR : Composes R) (h : current.Pairwise (Member.Yields R f)) :
    R ((workPhases f).flatMap fun phase => current.flatMap phase)
      (current.flatMap (workOps f)) := by
  have hphases : workOps f = fun m => (workPhases f).flatMap fun phase => phase m :=
    funext fun m => (flatMap_workPhases f m).symm
  rw [hphases]
  refine hR.exchange (f := fun (phase : Member → List Op) m => phase m) (h.imp ?_)
  intro m n hmn x hx y hy
  rw [flatMap_workPhases] at hx hy
  exact hmn x (List.mem_append_right _ hx) y (List.mem_append_right _ hy)

theorem relates_fetchThread (hR : Composes R) (hf : f.Layout shape used)
    (h : next.Pairwise (Member.Yields R f)) :
    R (fetchThread f next) (next.flatMap (nodeValueOps f)) := by
  have hpart {m : Member} {op : Op} (hop : op ∈ fetchedOps f m ++ keptOps f m) :
      op ∈ passOps f m := by
    rw [fetchedOps_append_keptOps hf] at hop
    exact List.mem_append_left _ hop
  have hgathers : R ((dues f.stages.length).flatMap fun due => fetchOps f due next)
      (next.flatMap (fetchedOps f)) := by
    have hzip : next.zipIdx.Pairwise fun z z' => z.1.Yields R f z'.1 := by
      rwa [← List.zipIdx_map_fst 0 next, List.pairwise_map] at h
    simp only [fetchOps_eq]
    rw [← flatMap_fetchPieces f next f.stages.length]
    refine hR.exchange (f := fetchPiece f) (hzip.imp ?_)
    intro z z' hzz' x hx y hy
    rw [flatMap_fetchPiece] at hx hy
    exact hzz' x (hpart (List.mem_append_left _ hx)) y (hpart (List.mem_append_left _ hy))
  have hkept : (next.filter fun m => f.top.covers m.depth).flatMap (nodeValueOps f) =
      next.flatMap (keptOps f) := flatMap_filter_eq next _ _
  have hmerge : R (next.flatMap (fetchedOps f) ++ next.flatMap (keptOps f))
      (next.flatMap fun m => fetchedOps f m ++ keptOps f m) := by
    refine hR.merge (h.imp ?_)
    intro m n hmn x hx y hy
    exact hmn x (hpart (List.mem_append_right _ hx)) y (hpart (List.mem_append_left _ hy))
  simp only [fetchedOps_append_keptOps hf] at hmerge
  rw [fetchThread, hkept]
  exact hR.trans (hR.append_right _ hgathers) hmerge

theorem perm_workThread (f : Frame) (current : List Member) :
    ((workPhases f).flatMap fun phase => current.flatMap phase).Perm
      (current.flatMap (workOps f)) :=
  relates_workThread .perm (List.pairwise_of_forall (Member.yields_perm f))

theorem perm_fetchThread (hf : f.Layout shape used) (next : List Member) :
    (fetchThread f next).Perm (next.flatMap (nodeValueOps f)) :=
  relates_fetchThread .perm hf (List.pairwise_of_forall (Member.yields_perm f))

/-- A step is the work of the current passes and then the node values of the next ones, where
operations of later passes may wait for those of earlier ones. -/
theorem relates_stepOps (hR : Composes R) (hf : f.Layout shape used)
    (h : (current ++ next).Pairwise (Member.Yields R f)) :
    R (stepOps f current next)
      (current.flatMap (workOps f) ++ next.flatMap (nodeValueOps f)) := by
  obtain ⟨hcurrent, hnext, hcross⟩ := List.pairwise_append.mp h
  have hturns : R (stepOps f current next)
      (((workPhases f).flatMap fun phase => current.flatMap phase) ++ fetchThread f next) := by
    apply hR.woven (woven_stepOps f current next)
    intro x hx y hy
    rw [(perm_workThread f current).mem_iff] at hx
    rw [(perm_fetchThread hf next).mem_iff] at hy
    obtain ⟨m, hm, hx⟩ := List.mem_flatMap.mp hx
    obtain ⟨n, hn, hy⟩ := List.mem_flatMap.mp hy
    exact hcross m hm n hn x (List.mem_append_right _ hx) y (List.mem_append_left _ hy)
  exact hR.trans hturns
    (hR.append (relates_workThread hR hcurrent) (relates_fetchThread hR hf hnext))

end Relates

end RoundLoop

end TreeWalk
