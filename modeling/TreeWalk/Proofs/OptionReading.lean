import Mathlib.Data.List.TakeWhile
import Mathlib.Data.Nat.Digits.Defs
import Mathlib.Tactic.FinCases
import Mathlib.Tactic.Ring
import TreeWalk.CommandLine.Options

/-!
# What an argument is read as

An argument names an option or it does not, and how the reading goes on depends on that alone. A
number behind an equals sign is taken as if it were the next argument.
-/

namespace TreeWalk

namespace Decimal

/-- One or more digits, behind a plus sign or not, that stand for a number in base ten. -/
def Denotes (text : String) (n : Nat) : Prop :=
  ∃ digits : List Char, digits ≠ [] ∧ (∀ c ∈ digits, c.isDigit = true) ∧
    (text.toList = digits ∨ text.toList = '+' :: digits) ∧
    n = Nat.ofDigits 10 (digits.map fun c => c.toNat - '0'.toNat).reverse

theorem valueOf_eq_ofDigits (digits : List Char) :
    valueOf digits = Nat.ofDigits 10 (digits.map fun c => c.toNat - '0'.toNat).reverse := by
  rw [valueOf, Nat.ofDigits_eq_foldr, List.foldr_reverse, List.foldl_map]
  congr 1
  funext n c
  push_cast
  ring

def unsigned : List Char → List Char
  | '+' :: rest => rest
  | chars => chars

theorem unsigned_cases (chars : List Char) :
    chars = unsigned chars ∨ chars = '+' :: unsigned chars := by
  unfold unsigned
  split
  · exact .inr rfl
  · exact .inl rfl

theorem unsigned_of_digits {digits : List Char} (h : ∀ c ∈ digits, c.isDigit = true) :
    unsigned digits = digits := by
  unfold unsigned
  split
  · exact absurd (h '+' List.mem_cons_self) (by decide)
  · rfl

theorem read?_eq_some_iff {limit n : Nat} {text : String} :
    read? limit text = some n ↔ Denotes text n ∧ n < limit := by
  have hread : read? limit text =
      if (unsigned text.toList).isEmpty || !(unsigned text.toList).all Char.isDigit then none
      else if valueOf (unsigned text.toList) < limit then some (valueOf (unsigned text.toList))
      else none := rfl
  simp only [hread, Option.ite_none_left_eq_some, Option.ite_none_right_eq_some,
    Option.some.injEq, Bool.not_eq_true, Bool.or_eq_false_iff, List.isEmpty_eq_false_iff,
    Bool.not_eq_false', List.all_eq_true]
  constructor
  · rintro ⟨⟨hne, hdigits⟩, hlt, rfl⟩
    exact ⟨⟨_, hne, hdigits, unsigned_cases _, valueOf_eq_ofDigits _⟩, hlt⟩
  · rintro ⟨⟨digits, hne, hdigits, htext, rfl⟩, hlt⟩
    have hunsigned : unsigned text.toList = digits := by
      rcases htext with htext | htext
      · rw [htext, unsigned_of_digits hdigits]
      · rw [htext, unsigned]
    rw [← valueOf_eq_ofDigits] at hlt ⊢
    rw [hunsigned]
    exact ⟨⟨hne, hdigits⟩, hlt, rfl⟩

end Decimal

namespace Options

/-! ## Names and inline values -/

def IsLong (name : String) : Prop := ['-', '-'] <+: name.toList

instance : DecidablePred IsLong := fun name => inferInstanceAs (Decidable (_ <+: name.toList))

/-- The argument is the name, or a long name with a value behind an equals sign. -/
def Spells (name argument : String) : Prop :=
  argument = name ∨ IsLong name ∧ ∃ value, argument = name ++ "=" ++ value

theorem splitInline_of_not_mem {argument : String} (h : '=' ∉ argument.toList) :
    splitInline argument = (argument, none) := by
  have hdrop : argument.toList.dropWhile (· ≠ '=') = [] := by
    rw [List.dropWhile_eq_nil_iff]
    intro c hc
    exact decide_eq_true (ne_of_mem_of_not_mem hc h)
  unfold splitInline
  rw [hdrop]

theorem splitInline_assign {name value : String} (hlong : IsLong name)
    (hname : '=' ∉ name.toList) : splitInline (name ++ "=" ++ value) = (name, some value) := by
  have hchars : (name ++ "=" ++ value).toList = name.toList ++ '=' :: value.toList := by simp
  have hplain : ∀ c ∈ name.toList, decide (c ≠ '=') = true := by
    intro c hc
    exact decide_eq_true (ne_of_mem_of_not_mem hc hname)
  have htake : (name.toList ++ '=' :: value.toList).takeWhile (· ≠ '=') = name.toList := by
    rw [List.takeWhile_append_of_pos hplain]
    simp
  have hdrop : (name.toList ++ '=' :: value.toList).dropWhile (· ≠ '=') = '=' :: value.toList := by
    rw [List.dropWhile_append_of_pos hplain]
    simp
  obtain ⟨rest, hrest⟩ := hlong
  unfold splitInline
  rw [hchars]
  dsimp only
  rw [htake, hdrop, String.ofList_toList, ← hrest]
  simp

theorem splitInline_cases (argument : String) :
    splitInline argument = (argument, none) ∨ ∃ name value, IsLong name ∧
      argument = name ++ "=" ++ value ∧ splitInline argument = (name, some value) := by
  unfold splitInline
  dsimp only
  split
  · rename_i c value rest hdrop htake
    have hc : c = '=' := by
      have hhead := List.head?_dropWhile_not (fun c : Char => decide (c ≠ '=')) argument.toList
      rw [hdrop] at hhead
      simpa using hhead
    have hjoin := List.takeWhile_append_dropWhile (p := fun c : Char => decide (c ≠ '='))
      (l := argument.toList)
    rw [hdrop, hc] at hjoin
    refine .inr ⟨_, _, ?_, ?_, rfl⟩
    · rw [IsLong, String.toList_ofList, htake]
      exact ⟨rest, rfl⟩
    · apply String.toList_inj.mp
      simpa using hjoin.symm
  · exact .inl rfl

theorem eq_of_splitInline_none {argument name : String} (h : splitInline argument = (name, none)) :
    argument = name := by
  rcases splitInline_cases argument with hsplit | ⟨_, _, -, -, hsplit⟩
  · cases h.symm.trans hsplit
    rfl
  · cases h.symm.trans hsplit

theorem eq_of_splitInline_some {argument name value : String}
    (h : splitInline argument = (name, some value)) : argument = name ++ "=" ++ value := by
  rcases splitInline_cases argument with hsplit | ⟨_, _, -, hargument, hsplit⟩
  · cases h.symm.trans hsplit
  · cases h.symm.trans hsplit
    exact hargument

def switchNames : List String :=
  ["-E", "-q", "--quiet", "--unit", "--dump-program", "--dump-scratch"]

/-- The names of the options that end the reading. -/
def stopNames : List String := ["-h", "--help", "-V", "--version"]

theorem exists_ofName?_switch_iff {name : String} :
    (∃ s, Flag.ofName? name = some (.switch s)) ↔ name ∈ switchNames := by
  constructor
  · rintro ⟨s, hs⟩
    unfold Flag.ofName? at hs
    split at hs <;> simp_all [switchNames]
  · intro h
    fin_cases h <;> exact ⟨_, rfl⟩

theorem ofName?_stop_iff {name : String} :
    Flag.ofName? name = some .help ∨ Flag.ofName? name = some .version ↔ name ∈ stopNames := by
  constructor
  · intro h
    unfold Flag.ofName? at h
    split at h <;> simp_all [stopNames]
  · intro h
    fin_cases h <;> simp [Flag.ofName?]

theorem ofName?_number_iff {name : String} {option : NumberOption} :
    Flag.ofName? name = some (.number option) ↔ name = option.flag := by
  constructor
  · intro h
    unfold Flag.ofName? at h
    split at h <;> cases h <;> rfl
  · rintro rfl
    cases option <;> rfl

theorem chars_of_ofName? {name : String} {f : Flag} (h : Flag.ofName? name = some f) :
    name.toList.head? = some '-' ∧ '=' ∉ name.toList := by
  unfold Flag.ofName? at h
  split at h
  case h_15 => cases h
  all_goals decide

/-! ## One argument -/

def flagOf (argument : String) : Option Flag := Flag.ofName? (splitInline argument).1

theorem flagOf_eq_some_iff {argument : String} {f : Flag} :
    flagOf argument = some f ↔ ∃ name, Flag.ofName? name = some f ∧ Spells name argument := by
  constructor
  · intro h
    rcases splitInline_cases argument with hsplit | ⟨name, value, hlong, hargument, hsplit⟩
    · exact ⟨argument, by simpa [flagOf, hsplit] using h, .inl rfl⟩
    · exact ⟨name, by simpa [flagOf, hsplit] using h, .inr ⟨hlong, value, hargument⟩⟩
  · rintro ⟨name, hname, rfl | ⟨hlong, value, rfl⟩⟩
    · rw [flagOf, splitInline_of_not_mem (chars_of_ofName? hname).2, hname]
    · rw [flagOf, splitInline_assign hlong (chars_of_ofName? hname).2, hname]

theorem isLong_flag (option : NumberOption) : IsLong option.flag := by
  cases option <;> decide

theorem flagOf_flag (option : NumberOption) : flagOf option.flag = some (.number option) :=
  flagOf_eq_some_iff.mpr ⟨_, ofName?_number_iff.mpr rfl, .inl rfl⟩

theorem flagOf_flag_assign (option : NumberOption) (text : String) :
    flagOf (option.flag ++ "=" ++ text) = some (.number option) :=
  flagOf_eq_some_iff.mpr ⟨_, ofName?_number_iff.mpr rfl, .inr ⟨isLong_flag option, text, rfl⟩⟩

variable {o : Options} {argument : String} {rest : List String}

theorem readNumber_eq_ok_iff {r : Options} {option : NumberOption} {text : String} :
    readNumber o option text = .ok r ↔
      ∃ n, (Decimal.Denotes text n ∧ n < Size.limit) ∧ r = o.setNumber n option := by
  simp only [← Decimal.read?_eq_some_iff]
  unfold readNumber
  cases Decimal.read? Size.limit text with
  | none => simp
  | some n => simp [eq_comm]

theorem readNumber_bind_eq_ok {r : Options} {option : NumberOption} {text : String}
    {f : Options → Except UsageError Options} (h : readNumber o option text >>= f = .ok r) :
    ∃ o', readNumber o option text = .ok o' ∧ f o' = .ok r := by
  cases hread : readNumber o option text with
  | error e => simp [hread, bind, Except.bind] at h
  | ok o' =>
    rw [hread] at h
    exact ⟨o', rfl, h⟩

theorem parseInto_help (h : flagOf argument = some .help) :
    parseInto o (argument :: rest) = .ok { o with action := .printHelp } := by
  unfold flagOf at h
  simp [parseInto, h]

theorem parseInto_version (h : flagOf argument = some .version) :
    parseInto o (argument :: rest) = .ok { o with action := .printVersion } := by
  unfold flagOf at h
  simp [parseInto, h]

theorem parseInto_switch {s : Switch} (h : flagOf argument = some (.switch s)) :
    parseInto o (argument :: rest) = parseInto (o.turnOn s) rest := by
  unfold flagOf at h
  simp [parseInto, h]

theorem parseInto_next (option : NumberOption) (value : String) :
    parseInto o (option.flag :: value :: rest) =
      readNumber o option value >>= fun o => parseInto o rest := by
  have hname : Flag.ofName? option.flag = some (.number option) := ofName?_number_iff.mpr rfl
  have hsplit := splitInline_of_not_mem (chars_of_ofName? hname).2
  simp [parseInto, hsplit, hname]

theorem parseInto_inline (option : NumberOption) (value : String) :
    parseInto o ((option.flag ++ "=" ++ value) :: rest) =
      readNumber o option value >>= fun o => parseInto o rest := by
  have hname : Flag.ofName? option.flag = some (.number option) := ofName?_number_iff.mpr rfl
  have hsplit : splitInline (option.flag ++ "=" ++ value) = (option.flag, some value) :=
    splitInline_assign (isLong_flag option) (chars_of_ofName? hname).2
  simp [parseInto, hsplit, hname]

end Options

end TreeWalk
