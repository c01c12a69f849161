import TreeWalk.Proofs.OptionReading

/-!
# Arguments in two parts

If nothing in the first part ends the reading, the second part is read as if it stood alone, and
what it says is merged into what the first part says. Both spellings of a number say the same.
-/

namespace TreeWalk

namespace Options

/-- What two parts say together. A number is that of the second part if it gives one, and a switch
is on if either part turns it on. -/
def merge (first second : Options) : Options where
  action := second.action
  height := second.height.or first.height
  rounds := second.rounds.or first.rounds
  batch := second.batch.or first.batch
  seed := second.seed.or first.seed
  unit := first.unit || second.unit
  dumpProgram := first.dumpProgram || second.dumpProgram
  dumpScratch := first.dumpScratch || second.dumpScratch
  ignoreEnvironment := first.ignoreEnvironment || second.ignoreEnvironment
  quiet := first.quiet || second.quiet

theorem merge_empty {first : Options} (h : first.action = .run) : first.merge {} = first := by
  cases first
  simp_all [merge]

theorem merge_turnOn (first o : Options) (s : Switch) :
    first.merge (o.turnOn s) = (first.merge o).turnOn s := by
  cases s <;> simp [merge, turnOn]

theorem merge_setNumber (first o : Options) (n : Nat) (option : NumberOption) :
    first.merge (o.setNumber n option) = (first.merge o).setNumber n option := by
  cases option <;> simp [merge, setNumber]

theorem readNumber_merge_bind {first o : Options} {f : Options → Except UsageError Options}
    (hf : ∀ o, f (first.merge o) = (f o).map first.merge) (option : NumberOption)
    (value : String) :
    readNumber (first.merge o) option value >>= f =
      (readNumber o option value >>= f).map first.merge := by
  unfold readNumber
  cases Decimal.read? Size.limit value with
  | none => rfl
  | some n =>
    dsimp only
    rw [← merge_setNumber]
    exact hf _

/-- Whatever is set before the reading can also be merged behind it. The induction is on the
reading, which is the same for all options that are set before. -/
theorem parseInto_merge (first o : Options) (arguments : List String) :
    parseInto (first.merge o) arguments = (parseInto o arguments).map first.merge := by
  fun_induction parseInto o arguments with
  | case1 o => rw [parseInto, Except.map]
  | case2 o argument rest name inline hsplit hname => simp [parseInto, hsplit, hname, Except.map]
  | case3 o argument rest name inline hsplit hname =>
    simp [parseInto, hsplit, hname, Except.map, merge]
  | case4 o argument rest name inline hsplit hname =>
    simp [parseInto, hsplit, hname, Except.map, merge]
  | case5 o argument rest name inline hsplit s hname ih =>
    rw [merge_turnOn] at ih
    simp [parseInto, hsplit, hname, ih]
  | case6 o argument rest name option hname value hsplit ih =>
    simp only [parseInto, hsplit, hname]
    exact readNumber_merge_bind ih option value
  | case7 o argument name option hname hsplit => simp [parseInto, hsplit, hname, Except.map]
  | case8 o argument name option hname value rest hsplit ih =>
    simp only [parseInto, hsplit, hname]
    exact readNumber_merge_bind ih option value

theorem parseInto_append {o r : Options} {xs : List String} (ys : List String)
    (h : parseInto o xs = .ok r) (hrun : r.action = .run) :
    parseInto o (xs ++ ys) = parseInto r ys := by
  fun_induction parseInto o xs with
  | case1 o =>
    cases h
    rfl
  | case2 o argument rest name inline hsplit hname => cases h
  | case3 o argument rest name inline hsplit hname =>
    cases h
    cases hrun
  | case4 o argument rest name inline hsplit hname =>
    cases h
    cases hrun
  | case5 o argument rest name inline hsplit s hname ih =>
    simp only [List.cons_append, parseInto, hsplit, hname]
    exact ih h
  | case6 o argument rest name option hname value hsplit ih =>
    simp only [List.cons_append, parseInto, hsplit, hname]
    obtain ⟨o', hread, hrest⟩ := readNumber_bind_eq_ok h
    rw [hread]
    exact ih o' hrest
  | case7 o argument name option hname hsplit => cases h
  | case8 o argument name option hname value rest hsplit ih =>
    simp only [List.cons_append, parseInto, hsplit, hname]
    obtain ⟨o', hread, hrest⟩ := readNumber_bind_eq_ok h
    rw [hread]
    exact ih o' hrest

/-- The parts of the arguments are read one by one and merged; an error of the second part is the
error of both. A number may follow its option as the next argument or behind an equals sign,
whatever its text. -/
theorem parse_append_merge {xs : List String} {r : Options} (hxs : parse xs = .ok r)
    (hrun : r.action = .run) (ys : List String) :
    parse (xs ++ ys) = (parse ys).map r.merge ∧
    ∀ (option : NumberOption) (value : String),
      parse (xs ++ [option.flag, value] ++ ys) =
        parse (xs ++ [option.flag ++ "=" ++ value] ++ ys) := by
  have hparts (zs : List String) : parse (xs ++ zs) = (parse zs).map r.merge := by
    rw [parse, parseInto_append zs hxs hrun, parse, ← parseInto_merge, merge_empty hrun]
  constructor
  · exact hparts ys
  · intro option value
    have hspellings : parse ([option.flag, value] ++ ys) =
        parse ([option.flag ++ "=" ++ value] ++ ys) :=
      (parseInto_next option value).trans (parseInto_inline option value).symm
    rw [List.append_assoc, hparts, hspellings, List.append_assoc, hparts]

/-- The later seed counts, also where it is followed by help, and a value may look like an
option. -/
theorem parse_append_merge_seeds :
    let r : Options := { seed := some 1, quiet := true }
    parse ["--seed", "1", "-q"] = .ok r ∧ r.action = .run ∧
      parse (["--seed", "1", "-q"] ++ ["--seed=2", "--help", "--bogus"]) =
        .ok { action := .printHelp, seed := some 2, quiet := true } ∧
      parse (["--seed", "1", "-q"] ++ ["--height", "--a=b"] ++ []) =
        parse (["--seed", "1", "-q"] ++ ["--height=--a=b"] ++ []) := by
  intro r
  have hxs : parse ["--seed", "1", "-q"] = .ok r := by decide +kernel
  have hys : parse ["--seed=2", "--help", "--bogus"] =
      .ok { action := .printHelp, seed := some 2 } := by decide +kernel
  have hparts := (parse_append_merge hxs rfl ["--seed=2", "--help", "--bogus"]).1
  have hspellings := (parse_append_merge hxs rfl []).2 .height "--a=b"
  rw [hys] at hparts
  exact ⟨hxs, rfl, hparts, hspellings⟩

end Options

end TreeWalk
