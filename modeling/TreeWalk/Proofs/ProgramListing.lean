import Mathlib.Data.List.Nodup
import TreeWalk.Bundle.Text
import TreeWalk.CommandLine.CheckedRun
import TreeWalk.Proofs.DelimitedText
import TreeWalk.Proofs.PackedRun

/-!
# What a listing tells

The written form of a bundle tells the bundle, if no notes are in it, and so a listing tells the
program. The comma and the blank stand between operands and between ops alike. What keeps the two
apart is that a mnemonic fixes the number of operands behind it, and no two ops that differ share
mnemonic and operands.

A text is read from its front: mnemonic, operands, the ops up to the bracket that closes the engine,
the engines up to the brace that closes the bundle.
-/

namespace TreeWalk

/-! ## Operands -/

inductive Operand where
  | address (a : Addr)
  /-- The address of a memory address. -/
  | indirect (a : Addr)
  | number (w : Word)
  /-- The index of a bundle. -/
  | target (w : Word)
  | distance (d : Int32)

namespace Operand

def sign (d : Int32) : Char := if d.toInt < 0 then '-' else '+'

def chars : Operand → List Char
  | address a => 's' :: Nat.toDigits 10 a.toNat
  | indirect a => '[' :: 's' :: (Nat.toDigits 10 a.toNat ++ [']'])
  | number w => Nat.toDigits 10 w.toNat
  | target w => '@' :: Nat.toDigits 10 w.toNat
  | distance d => sign d :: Nat.toDigits 10 d.toInt.natAbs

theorem chars_target (w : Word) : (target w).chars = '@' :: (number w).chars := rfl

theorem sign_ne {x : Char} (hminus : '-' ≠ x) (hplus : '+' ≠ x) (d : Int32) : sign d ≠ x := by
  unfold sign
  split <;> assumption

theorem isDigit_sign (d : Int32) : (sign d).isDigit = false := by
  unfold sign
  split <;> decide

theorem distance_eq {d d' : Int32} (hsign : sign d = sign d')
    (hamount : d.toInt.natAbs = d'.toInt.natAbs) : d = d' := by
  refine Int32.toInt_inj.mp ?_
  unfold sign at hsign
  split at hsign <;> split at hsign <;> first | omega | simp at hsign

theorem delimited : Delimited Char.isDigit (fun _ => True) chars := by
  have hdigits {m n : Nat} {r s : List Char} (hr : Breaks Char.isDigit r)
      (hs : Breaks Char.isDigit s) (h : Nat.toDigits 10 m ++ r = Nat.toDigits 10 n ++ s) :
      m = n ∧ r = s := delimited_digits trivial trivial hr hs h
  intro a b r s _ _ hr hs h
  -- Two kinds of operands differ in the first character.
  cases a with
  | address a =>
    cases b with
    | address b =>
      obtain ⟨hab, hrest⟩ := hdigits hr hs (List.cons.inj h).2
      exact ⟨congrArg address (Addr.toNat_injective hab), hrest⟩
    | number w => exact absurd h.symm (digits_append_ne_cons (by decide) _ _)
    | distance d =>
      exact absurd (List.cons.inj h).1.symm (sign_ne (by decide) (by decide) d)
    | _ => simp [chars] at h
  | indirect a =>
    cases b with
    | indirect b =>
      simp only [chars, List.cons_append, List.append_assoc, List.cons.injEq, true_and] at h
      obtain ⟨hab, hrest⟩ := hdigits (breaks_cons.mpr (by decide)) (breaks_cons.mpr (by decide)) h
      exact ⟨congrArg indirect (Addr.toNat_injective hab), (List.cons.inj hrest).2⟩
    | number w => exact absurd h.symm (digits_append_ne_cons (by decide) _ _)
    | distance d =>
      exact absurd (List.cons.inj h).1.symm (sign_ne (by decide) (by decide) d)
    | _ => simp [chars] at h
  | number w =>
    cases b with
    | number w' =>
      obtain ⟨hw, hrest⟩ := hdigits hr hs h
      exact ⟨congrArg number (UInt32.toNat_inj.mp hw), hrest⟩
    | distance d => exact absurd h (digits_append_ne_cons (isDigit_sign d) _ _)
    | _ => exact absurd h (digits_append_ne_cons (by decide) _ _)
  | target w =>
    cases b with
    | target w' =>
      obtain ⟨hw, hrest⟩ := hdigits hr hs (List.cons.inj h).2
      exact ⟨congrArg target (UInt32.toNat_inj.mp hw), hrest⟩
    | number w' => exact absurd h.symm (digits_append_ne_cons (by decide) _ _)
    | distance d =>
      exact absurd (List.cons.inj h).1.symm (sign_ne (by decide) (by decide) d)
    | _ => simp [chars] at h
  | distance d =>
    cases b with
    | distance d' =>
      obtain ⟨hsign, htail⟩ := List.cons.inj h
      obtain ⟨hamount, hrest⟩ := hdigits hr hs htail
      exact ⟨congrArg distance (distance_eq hsign hamount), hrest⟩
    | number w => exact absurd h.symm (digits_append_ne_cons (isDigit_sign d) _ _)
    | _ => exact absurd (List.cons.inj h).1 (sign_ne (by decide) (by decide) d)

def listChars : List Operand → List Char
  | [] => []
  | o :: os => ' ' :: (o.chars ++ marked ',' [' '] chars os)

theorem delimited_list (n : Nat) :
    Delimited Char.isDigit (fun os => os.length = n) listChars := by
  intro os ps r s hos hps hr hs h
  cases os with
  | nil =>
    obtain rfl : ps = [] := List.length_eq_zero_iff.mp (hps.trans hos.symm)
    exact ⟨rfl, h⟩
  | cons o os =>
    cases ps with
    | nil => cases hos.trans hps.symm
    | cons p ps =>
      simp only [listChars, List.cons_append, List.append_assoc, List.cons.injEq, true_and] at h
      have hcomma : Char.isDigit ',' = false := by decide
      obtain ⟨rfl, htail⟩ := delimited trivial trivial (breaks_marked hcomma os hr)
        (breaks_marked hcomma ps hs) h
      obtain ⟨rfl, hrest⟩ := delimited.items hcomma os.length
        ⟨rfl, fun _ _ => trivial⟩
        ⟨Nat.succ.inj (hps.trans hos.symm), fun _ _ => trivial⟩ hr hs htail
      exact ⟨rfl, hrest⟩

end Operand

/-! ## Ops -/

/-- What stands before the operands of an op. -/
inductive Mnemonic where
  | scalar (code : Opcode)
  | vector (code : Opcode)
  | broadcast | multiplyAdd
  | loadWord | loadLane | loadBlock | const
  | storeWord | storeBlock
  | select | addImm | blockSelect | halt | pause | trace
  | jumpIf | jumpByIf | jump | jumpTo | coreId
  deriving DecidableEq

namespace Mnemonic

def all : List Mnemonic :=
  Opcode.all.map scalar ++ Opcode.all.map vector ++
    [broadcast, multiplyAdd, loadWord, loadLane, loadBlock, const, storeWord, storeBlock, select,
      addImm, blockSelect, halt, pause, trace, jumpIf, jumpByIf, jump, jumpTo, coreId]

def text : Mnemonic → String
  | scalar code => code.symbol
  | vector code => "v" ++ code.symbol
  | broadcast => "vbroadcast"
  | multiplyAdd => "multiply_add"
  | loadWord => "load"
  | loadLane => "load_offset"
  | loadBlock => "vload"
  | const => "const"
  | storeWord => "store"
  | storeBlock => "vstore"
  | select => "select"
  | addImm => "add_imm"
  | blockSelect => "vselect"
  | halt => "halt"
  | pause => "pause"
  | trace => "trace_write"
  | jumpIf => "cond_jump"
  | jumpByIf => "cond_jump_rel"
  | jump => "jump"
  | jumpTo => "jump_indirect"
  | coreId => "coreid"

def arity : Mnemonic → Nat
  | halt | pause => 0
  | trace | jump | jumpTo | coreId => 1
  | broadcast | loadWord | loadBlock | const | storeWord | storeBlock | jumpIf | jumpByIf => 2
  | scalar _ | vector _ | loadLane | addImm => 3
  | multiplyAdd | select | blockSelect => 4

theorem mem_all (m : Mnemonic) : m ∈ all := by
  cases m with
  | scalar code =>
    exact List.mem_append_left _ (List.mem_append_left _ (List.mem_map_of_mem code.mem_all))
  | vector code =>
    exact List.mem_append_left _ (List.mem_append_right _ (List.mem_map_of_mem code.mem_all))
  | _ => exact List.mem_append_right _ (by decide)

theorem text_injective {m n : Mnemonic} (h : m.text = n.text) : m = n := by
  have hnodup : (all.map text).Nodup := by decide +kernel
  exact List.inj_on_of_nodup_map hnodup m.mem_all n.mem_all h

def isPart (x : Char) : Bool := x != ' ' && x != ',' && x != ']'

theorem text_chars (m : Mnemonic) : m.text.toList ≠ [] ∧ ∀ x ∈ m.text.toList, isPart x = true := by
  cases m with
  | scalar code => cases code <;> simp [text, Opcode.symbol, isPart]
  | vector code => cases code <;> simp [text, Opcode.symbol, isPart]
  | _ => simp [text, isPart]

theorem delimited : Delimited isPart (fun _ => True) fun m : Mnemonic => m.text.toList :=
  delimited_of_chars (fun m _ => m.text_chars.2) fun _ _ _ _ h =>
    text_injective (String.toList_inj.mp h)

end Mnemonic

namespace Op

/-- Mnemonic and operands of an op that is no note. -/
def parts? : Op → Option (Mnemonic × List Operand)
  | alu ⟨code, dest, a, b⟩ => some (.scalar code, [.address dest, .address a, .address b])
  | valu (.broadcast dest src) => some (.broadcast, [.address dest, .address src])
  | valu (.multiplyAdd dest a b c) =>
    some (.multiplyAdd, [.address dest, .address a, .address b, .address c])
  | valu (.binary code dest a b) => some (.vector code, [.address dest, .address a, .address b])
  | load (.word dest addr) => some (.loadWord, [.address dest, .indirect addr])
  | load (.lane dest addr n) => some (.loadLane, [.address dest, .indirect addr, .number n])
  | load (.block dest addr) => some (.loadBlock, [.address dest, .indirect addr])
  | load (.const dest value) => some (.const, [.address dest, .number value])
  | store (.word addr src) => some (.storeWord, [.indirect addr, .address src])
  | store (.block addr src) => some (.storeBlock, [.indirect addr, .address src])
  | flow (.select dest cond a b) =>
    some (.select, [.address dest, .address cond, .address a, .address b])
  | flow (.addImm dest a imm) => some (.addImm, [.address dest, .address a, .number imm])
  | flow (.blockSelect dest cond a b) =>
    some (.blockSelect, [.address dest, .address cond, .address a, .address b])
  | flow .halt => some (.halt, [])
  | flow .pause => some (.pause, [])
  | flow (.trace src) => some (.trace, [.address src])
  | flow (.jumpIf cond target) => some (.jumpIf, [.address cond, .target target])
  | flow (.jumpByIf cond distance) => some (.jumpByIf, [.address cond, .distance distance])
  | flow (.jump target) => some (.jump, [.target target])
  | flow (.jumpTo addr) => some (.jumpTo, [.address addr])
  | flow (.coreId dest) => some (.coreId, [.address dest])
  | note _ => none

def ofParts? : Mnemonic → List Operand → Option Op
  | .scalar code, [.address dest, .address a, .address b] => some (scalar code dest a b)
  | .broadcast, [.address dest, .address src] => some (broadcast dest src)
  | .multiplyAdd, [.address dest, .address a, .address b, .address c] =>
    some (multiplyAdd dest a b c)
  | .vector code, [.address dest, .address a, .address b] => some (vector code dest a b)
  | .loadWord, [.address dest, .indirect addr] => some (loadWord dest addr)
  | .loadLane, [.address dest, .indirect addr, .number n] => some (load (.lane dest addr n))
  | .loadBlock, [.address dest, .indirect addr] => some (loadBlock dest addr)
  | .const, [.address dest, .number value] => some (const dest value)
  | .storeWord, [.indirect addr, .address src] => some (storeWord addr src)
  | .storeBlock, [.indirect addr, .address src] => some (storeBlock addr src)
  | .select, [.address dest, .address cond, .address a, .address b] =>
    some (flow (.select dest cond a b))
  | .addImm, [.address dest, .address a, .number imm] => some (flow (.addImm dest a imm))
  | .blockSelect, [.address dest, .address cond, .address a, .address b] =>
    some (flow (.blockSelect dest cond a b))
  | .halt, [] => some (flow .halt)
  | .pause, [] => some pause
  | .trace, [.address src] => some (flow (.trace src))
  | .jumpIf, [.address cond, .target target] => some (flow (.jumpIf cond target))
  | .jumpByIf, [.address cond, .distance distance] => some (flow (.jumpByIf cond distance))
  | .jump, [.target target] => some (flow (.jump target))
  | .jumpTo, [.address addr] => some (flow (.jumpTo addr))
  | .coreId, [.address dest] => some (flow (.coreId dest))
  | _, _ => none

/-- The parts of an op tell the op, and there are as many operands as the mnemonic says. -/
theorem parts?_spec {op : Op} {m : Mnemonic} {os : List Operand} (h : op.parts? = some (m, os)) :
    ofParts? m os = some op ∧ os.length = m.arity := by
  unfold parts? at h
  split at h <;> cases h
  all_goals exact ⟨rfl, rfl⟩

theorem exists_parts {op : Op} (h : op.isNote = false) : ∃ m os, op.parts? = some (m, os) := by
  unfold parts?
  split <;> first | exact ⟨_, _, rfl⟩ | cases h

end Op

@[simp] theorem Addr.toList_text (a : Addr) :
    a.text.toList = (Operand.address a).chars := by
  simp [Addr.text, Operand.chars]

@[simp] theorem Addr.toList_bracketed (a : Addr) :
    a.bracketed.toList = (Operand.indirect a).chars := by
  simp [Addr.bracketed, Operand.chars]

@[simp] theorem toList_wordText (w : Word) : (wordText w).toList = (Operand.number w).chars := by
  simp [wordText, Operand.chars]

@[simp] theorem toList_signedText (d : Int32) :
    (signedText d.toInt).toList = (Operand.distance d).chars := by
  unfold signedText Operand.chars Operand.sign
  split <;> rename_i h <;> simp [h]

@[simp] theorem toList_operands (texts : List String) :
    (operands texts).toList = List.intercalate [',', ' '] (texts.map String.toList) := by
  simp [operands]

namespace Op

theorem toList_text {op : Op} {m : Mnemonic} {os : List Operand} (h : op.parts? = some (m, os)) :
    op.text.toList = m.text.toList ++ Operand.listChars os := by
  unfold parts? at h
  split at h <;> cases h
  all_goals
    simp [text, ScalarOp.text, VectorOp.text, LoadOp.text, StoreOp.text, FlowOp.text,
      Mnemonic.text, Operand.listChars, marked, Operand.chars_target]

/-- What does not end an op in a list of ops. -/
def isPart (x : Char) : Bool := x != ',' && x != ']'

theorem breaks_isPart {r : List Char} (h : Breaks isPart r) (os : List Operand) :
    Breaks Char.isDigit r ∧ Breaks Mnemonic.isPart (Operand.listChars os ++ r) := by
  have hends {x : Char} (hx : isPart x = false) :
      Char.isDigit x = false ∧ Mnemonic.isPart x = false := by
    obtain rfl | rfl : x = ',' ∨ x = ']' := by
      simpa [isPart, Classical.or_iff_not_imp_left] using hx
    · decide
    · decide
  refine ⟨fun x hx => (hends (h x hx)).1, ?_⟩
  cases os with
  | nil => exact fun x hx => (hends (h x hx)).2
  | cons o os => exact breaks_cons.mpr (by decide)

theorem delimited_text :
    Delimited isPart (fun op : Op => op.isNote = false) fun op => op.text.toList := by
  intro op op' r s hop hop' hr hs h
  obtain ⟨m, os, hparts⟩ := exists_parts hop
  obtain ⟨m', os', hparts'⟩ := exists_parts hop'
  obtain ⟨hread, hlength⟩ := parts?_spec hparts
  obtain ⟨hread', hlength'⟩ := parts?_spec hparts'
  simp only [toList_text hparts, toList_text hparts', List.append_assoc] at h
  -- The next op is marked as the next operand is, so the operands have to be counted.
  obtain ⟨rfl, htail⟩ := Mnemonic.delimited trivial trivial (breaks_isPart hr os).2
    (breaks_isPart hs os').2 h
  obtain ⟨rfl, hrest⟩ := Operand.delimited_list m.arity hlength hlength' (breaks_isPart hr os).1
    (breaks_isPart hs os').1 htail
  exact ⟨Option.some.inj (hread.symm.trans hread'), hrest⟩

/-- An op that is no note does not begin with what closes a list of ops. -/
theorem text_append_ne_cons {op : Op} (hop : op.isNote = false) (r s : List Char) :
    op.text.toList ++ r ≠ ']' :: s := by
  obtain ⟨m, os, hparts⟩ := exists_parts hop
  rw [toList_text hparts, List.append_assoc]
  exact append_ne_cons_of_chars m.text_chars.1 m.text_chars.2 (by decide) _ s

end Op

/-! ## Bundles -/

theorem Engine.delimited_name :
    Delimited (fun x => x != ':') (fun _ => True) fun e : Engine => e.name.toList := by
  refine delimited_of_chars (fun e _ => ?_) fun e f _ _ h => ?_
  · cases e <;> simp [name]
  · cases e <;> cases f <;> simp [name] at h ⊢

def engineChars (group : Engine × List Op) : List Char :=
  group.1.name.toList ++ ':' :: ' ' :: '[' ::
    listed ',' [' '] ']' (fun op => op.text.toList) group.2

theorem toList_engineText (e : Engine) (ops : List Op) :
    (engineText e ops).toList = engineChars (e, ops) := by
  simp [engineText, engineChars, listed, Function.comp_def]

theorem delimited_engineChars :
    Delimited (fun _ => false) (fun group : Engine × List Op => ∀ op ∈ group.2, op.isNote = false)
      engineChars := by
  rintro ⟨e, ops⟩ ⟨f, ops'⟩ r s hops hops' - - h
  simp only [engineChars, List.append_assoc, List.cons_append] at h
  obtain ⟨rfl, htail⟩ := Engine.delimited_name trivial trivial (breaks_cons.mpr (by decide))
    (breaks_cons.mpr (by decide)) h
  simp only [List.cons.injEq, true_and] at htail
  obtain ⟨rfl, hrest⟩ := Op.delimited_text.list (by decide) (by decide) (by decide)
    (fun _ => Op.text_append_ne_cons) hops hops' (breaks_never r) (breaks_never s) htail
  exact ⟨rfl, hrest⟩

namespace Bundle

def groups (b : Bundle) : List (Engine × List Op) :=
  Engine.all.filterMap fun e => if (b.on e).isEmpty then none else some (e, b.on e)

theorem mem_groups {b : Bundle} {e : Engine} {ops : List Op} :
    (e, ops) ∈ b.groups ↔ b.on e = ops ∧ ops ≠ [] := by
  simp only [groups, List.mem_filterMap, Engine.mem_all, true_and]
  constructor
  · rintro ⟨f, hf⟩
    split at hf
    · cases hf
    · rename_i hne
      cases hf
      exact ⟨rfl, fun hnil => hne (List.isEmpty_iff.mpr hnil)⟩
  · rintro ⟨rfl, hne⟩
    exact ⟨e, by simp [hne]⟩

theorem eq_of_groups_eq {b c : Bundle} (h : b.groups = c.groups) : b = c := by
  have hon {b c : Bundle} (h : b.groups = c.groups) {e : Engine} (hne : b.on e ≠ []) :
      c.on e = b.on e :=
    (mem_groups.mp (h ▸ mem_groups.mpr ⟨rfl, hne⟩)).1
  refine ext_on fun e => ?_
  by_cases hb : b.on e = []
  · by_cases hc : c.on e = []
    · rw [hb, hc]
    · exact hon h.symm hc
  · exact (hon h hb).symm

theorem toList_text (b : Bundle) :
    b.text.toList = '\x7b' :: listed ';' [' '] '\x7d' engineChars b.groups := by
  have hgroups : b.engineTexts.map String.toList = b.groups.map engineChars := by
    simp only [engineTexts, groups, List.map_filterMap]
    refine List.filterMap_congr fun e _ => ?_
    by_cases hon : (b.on e).isEmpty = true
    · simp [hon]
    · simp [hon, toList_engineText]
  simp [text, listed, hgroups]

theorem notes_ofOps {ops : List Op} (h : ∀ op ∈ ops, op.isNote = false) :
    (ofOps ops).notes = [] := by
  have hon := on_ofOps ops .debug
  rw [List.filter_eq_nil_iff.mpr fun op hop => by simp [Op.engine_eq_debug_iff, h op hop]] at hon
  exact List.map_eq_nil_iff.mp hon

theorem eq_of_text_eq {b c : Bundle} (hb : b.notes = []) (hc : c.notes = [])
    (h : b.text = c.text) : b = c := by
  have hops {b : Bundle} (hb : b.notes = []) :
      ∀ group ∈ b.groups, ∀ op ∈ group.2, op.isNote = false := by
    rintro ⟨e, ops⟩ hgroup op hop
    obtain ⟨rfl, -⟩ := mem_groups.mp hgroup
    cases e <;> simp [on, hb] at hop <;> obtain ⟨_, _, rfl⟩ := hop <;> rfl
  have hstart (group : Engine × List Op) (r s : List Char) :
      engineChars group ++ r ≠ '\x7d' :: s := by
    obtain ⟨e, ops⟩ := group
    cases e <;> simp [engineChars, Engine.name]
  have htext := congrArg String.toList h
  rw [toList_text, toList_text] at htext
  exact eq_of_groups_eq <| (delimited_engineChars.list rfl rfl (by decide)
    (fun group _ => hstart group)).eq_of_text_eq (hops hb) (hops hc) (List.cons.inj htext).2

end Bundle

/-! ## Programs -/

theorem Program.eq_of_texts_eq {p q : Program} (hp : ∀ b ∈ p.bundles, b.notes = [])
    (hq : ∀ b ∈ q.bundles, b.notes = [])
    (h : p.bundles.map Bundle.text = q.bundles.map Bundle.text) : p = q := by
  have hsize : p.bundles.size = q.bundles.size := by simpa using congrArg Array.size h
  have hbundles : p.bundles = q.bundles := by
    refine Array.ext hsize fun i hi hi' => ?_
    refine Bundle.eq_of_text_eq (hp _ (Array.getElem_mem hi)) (hq _ (Array.getElem_mem hi')) ?_
    simpa [hi, hi'] using congrArg (·[i]?) h
  cases p; cases q
  exact congrArg Program.mk hbundles

theorem Kernel.texts_eq_of_programLines_eq {k k' : Kernel} (h : k.programLines = k'.programLines) :
    k.program.bundles.map Bundle.text = k'.program.bundles.map Bundle.text := by
  have hlines := (List.cons.inj h).2
  rw [← Array.toList_inj, Array.toList_map, Array.toList_map]
  refine List.ext_getElem? fun i => ?_
  have hline := congrArg (·[i]?) hlines
  simp only [List.getElem?_map, List.getElem?_zipIdx, Option.map_map] at hline ⊢
  cases hb : k.program.bundles.toList[i]? <;> cases hb' : k'.program.bundles.toList[i]? <;>
    simp_all [Function.comp_def, ← String.toList_inj]

/-- A listing without notes tells what is listed: the text of a bundle tells the ops of each engine
and their order, the texts of the bundles tell the program, and so do the numbered lines that a run
prints. -/
theorem listing_unambiguous :
    (∀ xs ys : List Op, (∀ op ∈ xs, op.isNote = false) → (∀ op ∈ ys, op.isNote = false) →
      (Bundle.ofOps xs).text = (Bundle.ofOps ys).text →
        Bundle.ofOps xs = Bundle.ofOps ys ∧
          ∀ e, (xs.filter fun op => op.engine = e) = ys.filter fun op => op.engine = e) ∧
    (∀ p q : Program, (∀ b ∈ p.bundles, b.notes = []) → (∀ b ∈ q.bundles, b.notes = []) →
      p.bundles.map Bundle.text = q.bundles.map Bundle.text → p = q) ∧
    ∀ k k' : Kernel, (∀ b ∈ k.program.bundles, b.notes = []) →
      (∀ b ∈ k'.program.bundles, b.notes = []) →
        k.programLines = k'.programLines → k.program = k'.program := by
  refine ⟨fun xs ys hxs hys htext => ?_, fun p q => Program.eq_of_texts_eq,
    fun k k' hk hk' h => Program.eq_of_texts_eq hk hk' (Kernel.texts_eq_of_programLines_eq h)⟩
  have hbundle := Bundle.eq_of_text_eq (Bundle.notes_ofOps hxs) (Bundle.notes_ofOps hys) htext
  exact ⟨hbundle, fun e => by rw [← Bundle.on_ofOps, ← Bundle.on_ofOps, hbundle]⟩

/-- The order in which ops of different engines joined is not told. -/
theorem listing_unambiguous_two_orders :
    let constant := Op.const ⟨0⟩ 1
    let stop := Op.flow .halt
    let b := Bundle.ofOps [constant, stop]
    let c := Bundle.ofOps [stop, constant]
    let stats : KernelStats := ⟨0, 2, 1, 1, ⟨1, 0⟩⟩
    let kernel : Kernel := ⟨.ofList [b], [], stats⟩
    let kernel' : Kernel := ⟨.ofList [c], [], stats⟩
    b.text = c.text ∧ b = c ∧ Program.ofList [b] = Program.ofList [c] ∧
      kernel.programLines = kernel'.programLines ∧ kernel.program = kernel'.program := by
  intro constant stop b c stats kernel kernel'
  have htext : b.text = c.text := by decide +kernel
  have hops : ∀ op ∈ [constant, stop], op.isNote = false := by decide
  have hops' : ∀ op ∈ [stop, constant], op.isNote = false := by decide
  have hnotes : ∀ b' ∈ (Program.ofList [b]).bundles, b'.notes = [] := by decide +kernel
  have hnotes' : ∀ c' ∈ (Program.ofList [c]).bundles, c'.notes = [] := by decide +kernel
  have htexts : (Program.ofList [b]).bundles.map Bundle.text =
      (Program.ofList [c]).bundles.map Bundle.text := by simp [Program.ofList, htext]
  have hlines : kernel.programLines = kernel'.programLines := by
    simp [kernel, kernel', Kernel.programLines, Program.ofList, Program.size, htext]
  exact ⟨htext, (listing_unambiguous.1 _ _ hops hops' htext).1,
    listing_unambiguous.2.1 _ _ hnotes hnotes' htexts, hlines,
    listing_unambiguous.2.2 kernel kernel' hnotes hnotes' hlines⟩

/-- A note can look like two. -/
example : (Bundle.ofOps [.note "left, # right"]).text =
    (Bundle.ofOps [.note "left", .note "right"]).text := by
  decide +kernel

end TreeWalk
