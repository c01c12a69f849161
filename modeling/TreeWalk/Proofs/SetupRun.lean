import TreeWalk.Proofs.DefinedUse
import TreeWalk.Proofs.FrameLayout
import TreeWalk.Proofs.Lanes
import TreeWalk.Proofs.PackedRun

/-!
# Running the setup

Setup code never changes a word that an earlier operation of it touches, so at its end all of its
operations have done their work: the header scalars hold the header of the image, and the constants
hold their values.
-/

namespace TreeWalk

/-- What an operation of setup code is for, and that it is so. -/
def Op.IsDone (s : Contents) : Op → Prop
  | load (.const dest value) => s.word dest = value
  | load (.word dest addr) => s.mem[(s.word addr).toNat]? = some (s.word dest)
  | valu (.broadcast dest source) =>
    dest.FitsBlock ∧ ∀ l < laneCount, s.lane l dest = s.word source
  | _ => False

theorem Op.IsDone.of_avoids {op : Op} {s t : Contents} {W : Nat → Prop} {addrs : List Addr}
    (h : op.IsDone s) (hop : op.Avoids addrs) (hdiffers : Contents.DiffersIn W s t)
    (hW : ∀ a : Addr, W a.toNat → a ∈ addrs) : op.IsDone t := by
  have hreads {a : Addr} (ha : a ∈ op.reads) : t.word a = s.word a :=
    hdiffers.lane fun hw => (hop a (hW a hw)).1 ha
  have hwrites {a : Addr} (ha : a ∈ op.writes) : t.word a = s.word a :=
    hdiffers.lane fun hw => (hop a (hW a hw)).2 ha
  cases op with
  | load op =>
    cases op with
    | const dest value => exact (hwrites (by simp [writes, LoadOp.writes])).trans h
    | word dest addr =>
      simp only [IsDone] at h ⊢
      rw [hreads (by simp [reads, LoadOp.reads]), hwrites (by simp [writes, LoadOp.writes]),
        hdiffers.mem]
      exact h
    | lane | block => exact h.elim
  | valu op =>
    cases op with
    | broadcast dest source =>
      obtain ⟨hfit, hlanes⟩ := h
      refine ⟨hfit, fun l hl => ?_⟩
      have hmem : dest.offset l ∈ (Op.valu (.broadcast dest source)).writes :=
        Addr.mem_block.mpr ⟨l, hl, rfl⟩
      have hlane : t.lane l dest = s.lane l dest :=
        hdiffers.lane fun hw => (hop _ (hW _ (hfit.toNat_offset hl ▸ hw))).2 hmem
      rw [hlane, hlanes l hl, hreads (by simp [reads, VectorOp.reads])]
    | multiplyAdd | binary => exact h.elim
  | alu | store | flow | note => exact h.elim

def Addr.Among (addrs : List Addr) (i : Nat) : Prop := ∃ a ∈ addrs, a.toNat = i

/-! ## What quiet code leaves alone -/

theorem Op.differsIn_of_execute {op : Op} (hop : op.isQuiet = true) {s t : Contents}
    (h : op.execute s = some t) : Contents.DiffersIn (Addr.Among op.writes) s t := by
  unfold Op.execute at h
  cases he : op.effect s.view {} with
  | error fault => simp [he] at h
  | ok e =>
    simp only [he] at h
    have hmem : e.mem = [] := Op.mem_effect_eq_nil (Op.writesMemory_of_isQuiet hop) he
    have htrace : e.control.trace = #[] := by
      cases op with
      | flow op | store op | note text => cases hop
      | alu op | valu op | load op =>
        simp only [Op.effect, bind_eq_ok_iff, pure_eq_ok_iff] at he
        obtain ⟨ws, -, rfl⟩ := he
        rfl
    obtain ⟨hid, hsize, -, hword⟩ := Contents.commit_frame h
    obtain ⟨-, rfl⟩ := Contents.commit_eq_some_iff.mp h
    refine ⟨hid, by simp [hmem, Memory.write], by simp [htrace], hsize, fun i hi => hword i ?_⟩
    rintro ⟨x, hx, hxi⟩
    have hwrites : x.1 ∈ op.writes := Op.map_fst_effect he ▸ List.mem_map_of_mem hx
    exact hi ⟨x.1, hwrites, hxi⟩

/-- Quiet code that goes well changes only words at addresses that some operation writes. -/
theorem Contents.DiffersIn.of_execute {ops : List Op} (hops : ∀ op ∈ ops, op.isQuiet = true)
    {s t : Contents} (h : execute ops s = some t) :
    Contents.DiffersIn (Addr.Among (written ops)) s t := by
  induction ops generalizing s with
  | nil =>
    obtain rfl := Option.some.inj h
    exact .refl _ s
  | cons op rest ih =>
    obtain ⟨u, hu, hrest⟩ := Option.bind_eq_some_iff.mp h
    have hfirst := Op.differsIn_of_execute (hops op List.mem_cons_self) hu
    have hlast := ih (fun x hx => hops x (List.mem_cons_of_mem op hx)) hrest
    refine (hfirst.trans' hlast).mono fun i hi => ?_
    rcases hi with ⟨a, ha, hai⟩ | ⟨a, ha, hai⟩
    · exact ⟨a, List.mem_append_left _ ha, hai⟩
    · exact ⟨a, List.mem_append_right _ ha, hai⟩

/-! ## Operations that get done -/

section Done

variable {s : Contents} {dest source addr : Addr}

theorem Addr.FitsBlock.holds (hfit : dest.FitsBlock)
    (hlast : s.Holds (dest.offset (laneCount - 1)) 1) : s.Holds dest laneCount := by
  have hoffset := hfit.toNat_offset (show laneCount - 1 < laneCount by decide)
  have hsize := hlast.1
  exact ⟨by omega, hfit⟩

theorem Op.exists_broadcast_isDone (hdest : s.Holds dest laneCount) (hsource : s.Holds source 1)
    (hout : source ∉ dest.block) :
    ∃ t, (Op.broadcast dest source).execute s = some t ∧ (Op.broadcast dest source).IsDone t := by
  have hkept : (s.put dest.toNat laneCount fun _ => s.word source).word source =
      s.word source := by
    refine Contents.lane_put_of_apart ?_
    by_contra hin
    have hl : source.toNat - dest.toNat < laneCount := by omega
    refine hout (Addr.mem_block.mpr ⟨_, hl, Addr.toNat_injective ?_⟩)
    rw [hdest.toNat_offset hl]
    omega
  refine ⟨_, execute_broadcast hdest hsource, hdest.2, fun l hl => ?_⟩
  exact (Contents.lane_put_self hdest hl).trans hkept.symm

theorem Op.exists_loadWord_isDone (hdest : s.Holds dest 1) (haddr : s.Holds addr 1)
    (hne : addr ≠ dest) (hlt : (s.word addr).toNat < s.mem.size) :
    ∃ t, (Op.loadWord dest addr).execute s = some t ∧ (Op.loadWord dest addr).IsDone t := by
  have hget : s.mem[(s.word addr).toNat]? = some s.mem[(s.word addr).toNat] :=
    Array.getElem?_eq_getElem hlt
  have hkept : (s.put dest.toNat 1 fun _ => s.mem[(s.word addr).toNat]).word addr =
      s.word addr := by
    refine Contents.lane_put_of_apart ?_
    have : addr.toNat ≠ dest.toNat := fun heq => hne (Addr.toNat_injective heq)
    omega
  have hloaded : (s.put dest.toNat 1 fun _ => s.mem[(s.word addr).toNat]).word dest =
      s.mem[(s.word addr).toNat] := Contents.lane_put_self hdest Nat.zero_lt_one
  refine ⟨_, by rw [execute_loadWord hdest haddr, hget, Option.map_some], ?_⟩
  simp only [Op.loadWord, Op.IsDone]
  rw [hkept, hloaded, Contents.mem_put, hget]

end Done

namespace SetupCode

variable {bound : Nat} {ops : List Op} {s : Contents}

theorem isQuiet_and_fits (h : SetupCode bound ops) :
    ∀ op ∈ ops, op.isQuiet = true ∧ op.Fits := by
  induction h with
  | nil => simp
  | const _ _ ih =>
    exact List.forall_mem_append.mpr ⟨ih, by simp [Op.const, Op.isQuiet, Op.Fits, LoadOp.Fits]⟩
  | broadcast _ _ hfit _ ih =>
    exact List.forall_mem_append.mpr
      ⟨ih, by simpa [Op.broadcast, Op.isQuiet, Op.Fits, VectorOp.Fits] using hfit⟩
  | load _ _ _ _ _ ih =>
    exact List.forall_mem_append.mpr
      ⟨ih, by simp [Op.loadWord, Op.isQuiet, Op.Fits, LoadOp.Fits]⟩

theorem packable (h : SetupCode bound ops) : Packing.Packable ops := by
  have hops := h.isQuiet_and_fits
  refine ⟨fun op hop => Op.isStraight_of_isQuiet (hops op hop).1, fun op hop => (hops op hop).2,
    List.pairwise_of_forall_mem_list fun x hx y _ hw => ?_⟩
  exact absurd hw (by simp [Op.writesMemory_of_isQuiet (hops x hx).1])

theorem differsIn_of_execute (h : SetupCode bound ops) {t : Contents}
    (ht : execute ops s = some t) : Contents.DiffersIn (Addr.Among (written ops)) s t :=
  .of_execute (fun op hop => (h.isQuiet_and_fits op hop).1) ht

theorem snoc_done {op : Op} {t u : Contents} (havoid : ∀ x ∈ ops, x.Avoids op.writes)
    (hquiet : op.isQuiet = true) (ht : execute ops s = some t) (hu : op.execute t = some u)
    (hdone : ∀ x ∈ ops, x.IsDone t) (hop : op.IsDone u) :
    ∃ u, execute (ops ++ [op]) s = some u ∧ ∀ x ∈ ops ++ [op], x.IsDone u := by
  refine ⟨u, ?_, fun x hx => ?_⟩
  · rw [execute_append, ht, Option.bind_some, execute_singleton, hu]
  · rcases List.mem_append.mp hx with hx | hx
    · refine (hdone x hx).of_avoids (havoid x hx) (Op.differsIn_of_execute hquiet hu) ?_
      rintro a ⟨b, hb, hba⟩
      rwa [← Addr.toNat_injective hba]
    · rw [List.mem_singleton.mp hx]
      exact hop

/-- Setup code cannot fault. At its end all of its operations are done, and the words that none of
them writes are as they were. -/
theorem execute_spec (h : SetupCode bound ops)
    (hs : ∀ op ∈ ops, ∀ a ∈ op.reads ++ op.writes, a.toNat < s.scratch.size)
    (hmem : bound ≤ s.mem.size) :
    ∃ t, execute ops s = some t ∧
      Contents.DiffersIn (Addr.Among (written ops)) s t ∧ ∀ op ∈ ops, op.IsDone t := by
  have hlast {ops : List Op} {op : Op} {t : Contents} {W : Nat → Prop}
      (hs : ∀ x ∈ ops ++ [op], ∀ a ∈ x.reads ++ x.writes, a.toNat < s.scratch.size)
      (ht : Contents.DiffersIn W s t) {a : Addr} (ha : a ∈ op.reads ++ op.writes) :
      t.Holds a 1 :=
    ⟨by rw [ht.size]; exact hs op (by simp) a ha, a.index.toNat_lt⟩
  suffices hrun : ∃ t, execute ops s = some t ∧ ∀ op ∈ ops, op.IsDone t by
    obtain ⟨t, ht, hdone⟩ := hrun
    exact ⟨t, ht, h.differsIn_of_execute ht, hdone⟩
  induction h with
  | nil => exact ⟨s, rfl, by simp⟩
  | @const ops dest value h havoid ih =>
    obtain ⟨t, ht, hdone⟩ := ih fun x hx => hs x (List.mem_append_left _ hx)
    have hdest : t.Holds dest 1 :=
      hlast hs (h.differsIn_of_execute ht) (by simp [Op.const, Op.writes, LoadOp.writes])
    exact snoc_done havoid rfl ht (execute_const hdest value) hdone
      (Contents.lane_put_self (g := fun _ => value) hdest Nat.zero_lt_one)
  | @broadcast ops dest source h havoid hfit hsource ih =>
    obtain ⟨t, ht, hdone⟩ := ih fun x hx => hs x (List.mem_append_left _ hx)
    have hdiffers := h.differsIn_of_execute ht
    have hsource_holds : t.Holds source 1 :=
      hlast hs hdiffers (by simp [Op.broadcast, Op.reads, VectorOp.reads])
    have hdest : t.Holds dest laneCount := hfit.holds
      (hlast hs hdiffers (List.mem_append_right _ (Addr.mem_block.mpr ⟨_, by decide, rfl⟩)))
    obtain ⟨u, hu, hop⟩ := Op.exists_broadcast_isDone hdest hsource_holds hsource
    exact snoc_done havoid rfl ht hu hdone hop
  | @load ops dest addr value h havoid hne hconst hvalue ih =>
    obtain ⟨t, ht, hdone⟩ := ih fun x hx => hs x (List.mem_append_left _ hx)
    have hdiffers := h.differsIn_of_execute ht
    have hdest : t.Holds dest 1 :=
      hlast hs hdiffers (by simp [Op.loadWord, Op.writes, LoadOp.writes])
    have haddr : t.Holds addr 1 := hlast hs hdiffers (by simp [Op.loadWord, Op.reads, LoadOp.reads])
    have hword : t.word addr = value := hdone _ hconst
    have hlt : (t.word addr).toNat < t.mem.size := by
      rw [hword, hdiffers.mem]
      omega
    obtain ⟨u, hu, hop⟩ := Op.exists_loadWord_isDone hdest haddr hne hlt
    exact snoc_done havoid rfl ht hu hdone hop

end SetupCode

theorem Draft.Tracked.execute_pending {bound : Nat} {d : Draft} {s : Contents}
    (h : d.Tracked bound) (hs : d.used ≤ s.scratch.size) (hmem : bound ≤ s.mem.size) :
    ∃ t, execute d.pending.toList s = some t ∧
      Contents.DiffersIn (Addr.Among (written d.pending.toList)) s t ∧
      ∀ op ∈ d.pending.toList, op.IsDone t := by
  refine h.code.execute_spec (fun op hop a ha => ?_) hmem
  by_contra hle
  have havoid := h.touched op hop a (by omega) a (List.mem_singleton.mpr rfl)
  rcases List.mem_append.mp ha with ha | ha
  · exact havoid.1 ha
  · exact havoid.2 ha

section Constants

variable {d : Draft} {s : Contents} {v : Word} {a : Addr}

theorem Draft.HasScalar.word_eq (h : d.HasScalar v a)
    (hdone : ∀ op ∈ d.pending.toList, op.IsDone s) : s.word a = v := hdone _ h

theorem Draft.HasVector.lane_eq (h : d.HasVector v a)
    (hdone : ∀ op ∈ d.pending.toList, op.IsDone s) : ∀ l < laneCount, s.lane l a = v := by
  obtain ⟨source, hsource, hbroadcast⟩ := h
  exact fun l hl => ((hdone _ hbroadcast).2 l hl).trans (hsource.word_eq hdone)

end Constants

namespace Frame

/-- The scratch words below the batch hold the header of the image and the constants. -/
structure Ready (f : Frame) (mem : Array Word) (s : Contents) : Prop where
  header : ∀ (i : Nat) b, f.header.words[i]? = some b → mem[i]? = some (s.word b)
  one : ∀ l < laneCount, s.lane l f.one = 1
  two : ∀ l < laneCount, s.lane l f.two = 2
  three : ∀ l < laneCount, s.lane l f.three = 3
  nodeCount : ∀ l < laneCount, mem[1]? = some (s.lane l f.nodeCount)
  stages : Mix.AllCarry (fun v a => ∀ l < laneCount, s.lane l a = v) f.stages
  chunkOffsets : ∀ (i : Nat) a, f.chunkOffsets[i]? = some a →
    s.word a = UInt32.ofNat (i * laneCount)
  topOffsets : ∀ (i : Nat) a, f.topOffsets[i]? = some a → s.word a = UInt32.ofNat i

variable {f : Frame} {shape : FrameShape} {d : Draft} {s t : Contents}

/-- The frame is ready once all pending operations are done. -/
theorem SetBy.ready (h : f.SetBy shape d) (hdone : ∀ op ∈ d.pending.toList, op.IsDone s) :
    f.Ready s.mem s := by
  have hscalar {v : Word} {a : Addr} (ha : d.HasScalar v a) : s.word a = v := ha.word_eq hdone
  have hvector {v : Word} {a : Addr} (ha : d.HasVector v a) : ∀ l < laneCount, s.lane l a = v :=
    ha.lane_eq hdone
  have hheader : ∀ (i : Nat) b, f.header.words[i]? = some b → s.mem[i]? = some (s.word b) := by
    intro i b hb
    obtain ⟨a, hconst, hload⟩ := h.header i b hb
    have hlt : i < f.header.words.length := (List.getElem?_eq_some_iff.mp hb).1
    have hword : s.mem[(s.word a).toNat]? = some (s.word b) := hdone _ hload
    rw [HeaderRegs.length_words, HeaderRegs.wordCount] at hlt
    rwa [hscalar hconst, UInt32.toNat_ofNat_of_lt' (Nat.lt_trans hlt (by decide))] at hword
  refine ⟨hheader, hvector h.one, hvector h.two, hvector h.three, fun l hl => ?_,
    h.stages.imp fun _ _ => hvector, fun i a ha => hscalar (h.chunkOffsets i a ha),
    fun i a ha => hscalar (h.topOffsets i a ha)⟩
  rw [(hdone _ h.nodeCount).2 l hl]
  exact hheader 1 _ rfl

theorem Ready.of_differs {mem : Array Word} {W : Nat → Prop} {used : Nat} (h : f.Ready mem s)
    (hf : f.Layout shape used) (hdiffers : Contents.DiffersIn W s t)
    (hW : ∀ i < f.indices.toNat, ¬ W i) : f.Ready mem t := by
  have hword {a : Addr} (ha : a.toNat < f.indices.toNat) : t.word a = s.word a :=
    hdiffers.lane (hW _ ha)
  have hblock {v : Word} {a : Addr} (ha : a.toNat + laneCount ≤ f.indices.toNat)
      (hv : ∀ l < laneCount, s.lane l a = v) : ∀ l < laneCount, t.lane l a = v :=
    fun l hl => (hdiffers.lane (hW _ (by omega))).trans (hv l hl)
  refine ⟨fun i b hb => ?_, hblock hf.one h.one, hblock hf.two h.two, hblock hf.three h.three,
    fun l hl => ?_, ?_, fun i a ha => ?_, fun i a ha => ?_⟩
  · rw [hword (hf.header b (List.mem_of_getElem? hb))]
    exact h.header i b hb
  · rw [hdiffers.lane (hW _ (by have := hf.nodeCount; omega))]
    exact h.nodeCount l hl
  · exact (Mix.AllCarry.and hf.stages h.stages).imp fun v a hva => hblock hva.1 hva.2
  · rw [hword (hf.chunkOffsets a (List.mem_of_getElem? ha))]
    exact h.chunkOffsets i a ha
  · rw [hword (hf.topOffsets a (List.mem_of_getElem? ha))]
    exact h.topOffsets i a ha

end Frame

end TreeWalk
