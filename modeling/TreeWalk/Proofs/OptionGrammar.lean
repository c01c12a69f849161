import TreeWalk.Proofs.OptionReading

/-!
# The grammar of the options

The arguments that are read without an error are the sentences of a small grammar, in which an
option that takes no number may carry a value behind an equals sign. Nobody looks at that value.
-/

namespace TreeWalk

namespace Options

def IsSize (text : String) : Prop := ∃ n, Decimal.Denotes text n ∧ n < Size.limit

/-- A sequence of options, up to the end or to an option that ends the reading, whatever stands
behind it. `Spelt` says how the name of an option that takes no number may stand in an argument. -/
inductive Sentence (Spelt : String → String → Prop) : List String → Prop
  | done : Sentence Spelt []
  | stop {name argument : String} (rest : List String) (hname : name ∈ stopNames)
      (hspelt : Spelt name argument) : Sentence Spelt (argument :: rest)
  | switch {name argument : String} {rest : List String} (hname : name ∈ switchNames)
      (hspelt : Spelt name argument) (hrest : Sentence Spelt rest) :
      Sentence Spelt (argument :: rest)
  | next {option : NumberOption} {text : String} {rest : List String} (hsize : IsSize text)
      (hrest : Sentence Spelt rest) : Sentence Spelt (option.flag :: text :: rest)
  | inline {option : NumberOption} {text : String} {rest : List String} (hsize : IsSize text)
      (hrest : Sentence Spelt rest) : Sentence Spelt ((option.flag ++ "=" ++ text) :: rest)

/-- A documented sequence of options: names stand as they are. -/
def IsDocumented (arguments : List String) : Prop :=
  Sentence (fun name argument => argument = name) arguments

def CarriesIgnored (argument : String) : Prop :=
  ∃ name ∈ switchNames ++ stopNames, IsLong name ∧ ∃ value, argument = name ++ "=" ++ value

def Stops (argument : String) : Prop := ∃ name ∈ stopNames, Spells name argument

/-- Whatever is read is a sentence. -/
theorem sentence_of_parseInto {o r : Options} {arguments : List String}
    (h : parseInto o arguments = .ok r) : Sentence Spells arguments := by
  fun_induction parseInto o arguments generalizing r with
  | case1 o => exact .done
  | case2 o argument rest name inline hsplit hname => cases h
  | case3 o argument rest name inline hsplit hname =>
    have hflag : flagOf argument = some .help := by rw [flagOf, hsplit, hname]
    obtain ⟨stop, hstop, hspells⟩ := flagOf_eq_some_iff.mp hflag
    exact .stop rest (ofName?_stop_iff.mp (.inl hstop)) hspells
  | case4 o argument rest name inline hsplit hname =>
    have hflag : flagOf argument = some .version := by rw [flagOf, hsplit, hname]
    obtain ⟨stop, hstop, hspells⟩ := flagOf_eq_some_iff.mp hflag
    exact .stop rest (ofName?_stop_iff.mp (.inr hstop)) hspells
  | case5 o argument rest name inline hsplit s hname ih =>
    have hflag : flagOf argument = some (.switch s) := by rw [flagOf, hsplit, hname]
    obtain ⟨switch, hswitch, hspells⟩ := flagOf_eq_some_iff.mp hflag
    exact .switch (exists_ofName?_switch_iff.mp ⟨s, hswitch⟩) hspells (ih h)
  | case6 o argument rest name option hname value hsplit ih =>
    obtain ⟨o', hread, hrest⟩ := readNumber_bind_eq_ok h
    obtain ⟨n, hn, -⟩ := readNumber_eq_ok_iff.mp hread
    rw [eq_of_splitInline_some hsplit, ofName?_number_iff.mp hname]
    exact .inline ⟨n, hn⟩ (ih o' hrest)
  | case7 o argument name option hname hsplit => cases h
  | case8 o argument name option hname value rest hsplit ih =>
    obtain ⟨o', hread, hrest⟩ := readNumber_bind_eq_ok h
    obtain ⟨n, hn, -⟩ := readNumber_eq_ok_iff.mp hread
    rw [eq_of_splitInline_none hsplit, ofName?_number_iff.mp hname]
    exact .next ⟨n, hn⟩ (ih o' hrest)

theorem exists_parseInto {arguments : List String} (h : Sentence Spells arguments) (o : Options) :
    ∃ r, parseInto o arguments = .ok r := by
  induction h generalizing o with
  | done => exact ⟨o, by rw [parseInto]⟩
  | stop rest hname hspelt =>
    rcases ofName?_stop_iff.mpr hname with hflag | hflag
    · exact ⟨_, parseInto_help (flagOf_eq_some_iff.mpr ⟨_, hflag, hspelt⟩)⟩
    · exact ⟨_, parseInto_version (flagOf_eq_some_iff.mpr ⟨_, hflag, hspelt⟩)⟩
  | switch hname hspelt hrest ih =>
    obtain ⟨s, hs⟩ := exists_ofName?_switch_iff.mpr hname
    rw [parseInto_switch (flagOf_eq_some_iff.mpr ⟨_, hs, hspelt⟩)]
    exact ih _
  | @next option text rest hsize hrest ih =>
    obtain ⟨n, hn⟩ := hsize
    have hread : readNumber o option text = .ok (o.setNumber n option) :=
      readNumber_eq_ok_iff.mpr ⟨n, hn, rfl⟩
    rw [parseInto_next, hread]
    exact ih _
  | @inline option text rest hsize hrest ih =>
    obtain ⟨n, hn⟩ := hsize
    have hread : readNumber o option text = .ok (o.setNumber n option) :=
      readNumber_eq_ok_iff.mpr ⟨n, hn, rfl⟩
    rw [parseInto_inline, hread]
    exact ih _

/-! ## Values that nobody looks at -/

theorem stops_iff {argument : String} :
    Stops argument ↔ flagOf argument = some .help ∨ flagOf argument = some .version := by
  simp only [flagOf_eq_some_iff, Stops, ← ofName?_stop_iff, or_and_right, exists_or]

theorem flagOf_of_carriesIgnored {argument : String} (h : CarriesIgnored argument) :
    (∃ s, flagOf argument = some (.switch s)) ∨ Stops argument := by
  obtain ⟨name, hname, hlong, value, rfl⟩ := h
  have hspells : Spells name (name ++ "=" ++ value) := .inr ⟨hlong, value, rfl⟩
  rcases List.mem_append.mp hname with hswitch | hstop
  · obtain ⟨s, hs⟩ := exists_ofName?_switch_iff.mpr hswitch
    exact .inl ⟨s, flagOf_eq_some_iff.mpr ⟨name, hs, hspells⟩⟩
  · exact .inr ⟨name, hstop, hspells⟩

theorem flagOf_eq_none_of_isSize {text : String} (h : IsSize text) : flagOf text = none := by
  rw [Option.eq_none_iff_forall_ne_some]
  intro f hf
  obtain ⟨name, hname, hspells⟩ := flagOf_eq_some_iff.mp hf
  obtain ⟨rest, hrest⟩ := List.head?_eq_some_iff.mp (chars_of_ofName? hname).1
  have hdash : text.toList.head? = some '-' := by
    rcases hspells with rfl | ⟨-, value, rfl⟩ <;> simp [hrest]
  obtain ⟨n, ⟨digits, hne, hdigits, htext | htext, -⟩, -⟩ := h
  · rw [htext] at hdash
    exact absurd (hdigits '-' (List.mem_of_head? hdash)) (by decide)
  · simp [htext] at hdash

def IgnoresNone (arguments : List String) : Prop :=
  ∀ before argument rest, arguments = before ++ argument :: rest →
    (∀ a ∈ before, ¬ Stops a) → ¬ CarriesIgnored argument

theorem ignoresNone_cons {argument : String} {rest : List String} :
    IgnoresNone (argument :: rest) ↔
      ¬ CarriesIgnored argument ∧ (¬ Stops argument → IgnoresNone rest) := by
  constructor
  · intro h
    refine ⟨h [] argument rest rfl (by simp), ?_⟩
    rintro hstops before a after rfl hbefore
    exact h (argument :: before) a after rfl (by simpa [hstops] using hbefore)
  · rintro ⟨hargument, hrest⟩ before a after heq hbefore
    cases before with
    | nil =>
      obtain ⟨rfl, -⟩ := List.cons.inj heq
      exact hargument
    | cons b before =>
      obtain ⟨rfl, rfl⟩ := List.cons.inj heq
      rw [List.forall_mem_cons] at hbefore
      exact hrest hbefore.1 before a after rfl hbefore.2

theorem not_carriesIgnored_of_mem {name : String} (h : name ∈ switchNames ++ stopNames) :
    ¬ CarriesIgnored name := by
  have hplain : '=' ∉ name.toList := by fin_cases h <;> decide
  rintro ⟨long, -, -, value, rfl⟩
  simp at hplain

theorem not_carriesIgnored_of_flagOf {argument : String}
    (hswitch : ∀ s, flagOf argument ≠ some (.switch s)) (hgoes : ¬ Stops argument) :
    ¬ CarriesIgnored argument := by
  intro hcarries
  rcases flagOf_of_carriesIgnored hcarries with ⟨s, hs⟩ | hstops
  · exact hswitch s hs
  · exact hgoes hstops

theorem not_carriesIgnored_of_number {argument : String} {option : NumberOption}
    (h : flagOf argument = some (.number option)) : ¬ CarriesIgnored argument :=
  not_carriesIgnored_of_flagOf (by simp [h]) (by simp [stops_iff, h])

theorem not_carriesIgnored_of_isSize {text : String} (h : IsSize text) :
    ¬ CarriesIgnored text := by
  have hflag := flagOf_eq_none_of_isSize h
  exact not_carriesIgnored_of_flagOf (by simp [hflag]) (by simp [stops_iff, hflag])

theorem eq_of_spells {name argument : String} (hname : name ∈ switchNames ++ stopNames)
    (hspells : Spells name argument) (h : ¬ CarriesIgnored argument) : argument = name := by
  rcases hspells with heq | hassign
  · exact heq
  · exact absurd ⟨name, hname, hassign⟩ h

theorem ignoresNone_of_documented {arguments : List String} (h : IsDocumented arguments) :
    IgnoresNone arguments := by
  induction h with
  | done =>
    intro before argument rest heq
    simp at heq
  | @stop name argument rest hname hspelt =>
    subst hspelt
    have hstops : Stops argument := ⟨argument, hname, .inl rfl⟩
    exact ignoresNone_cons.mpr ⟨not_carriesIgnored_of_mem (List.mem_append_right _ hname),
      fun hgoes => absurd hstops hgoes⟩
  | @switch name argument rest hname hspelt hrest ih =>
    subst hspelt
    exact ignoresNone_cons.mpr
      ⟨not_carriesIgnored_of_mem (List.mem_append_left _ hname), fun _ => ih⟩
  | @next option text rest hsize hrest ih =>
    have htext := ignoresNone_cons.mpr ⟨not_carriesIgnored_of_isSize hsize, fun _ => ih⟩
    exact ignoresNone_cons.mpr ⟨not_carriesIgnored_of_number (flagOf_flag option), fun _ => htext⟩
  | @inline option text rest hsize hrest ih =>
    exact ignoresNone_cons.mpr
      ⟨not_carriesIgnored_of_number (flagOf_flag_assign option text), fun _ => ih⟩

theorem documented_of_ignoresNone {arguments : List String} (h : Sentence Spells arguments)
    (hignores : IgnoresNone arguments) : IsDocumented arguments := by
  induction h with
  | done => exact .done
  | stop rest hname hspelt =>
    have hargument := (ignoresNone_cons.mp hignores).1
    exact .stop rest hname (eq_of_spells (List.mem_append_right _ hname) hspelt hargument)
  | @switch name argument rest hname hspelt hrest ih =>
    obtain ⟨hargument, hbehind⟩ := ignoresNone_cons.mp hignores
    obtain ⟨s, hs⟩ := exists_ofName?_switch_iff.mpr hname
    have hflag : flagOf argument = some (.switch s) := flagOf_eq_some_iff.mpr ⟨name, hs, hspelt⟩
    have hgoes : ¬ Stops argument := by simp [stops_iff, hflag]
    exact .switch hname (eq_of_spells (List.mem_append_left _ hname) hspelt hargument)
      (ih (hbehind hgoes))
  | @next option text rest hsize hrest ih =>
    have hgoes : ¬ Stops option.flag := by simp [stops_iff, flagOf_flag]
    have hgoes' : ¬ Stops text := by simp [stops_iff, flagOf_eq_none_of_isSize hsize]
    obtain ⟨-, htext⟩ := ignoresNone_cons.mp hignores
    exact .next hsize (ih ((ignoresNone_cons.mp (htext hgoes)).2 hgoes'))
  | @inline option text rest hsize hrest ih =>
    have hgoes : ¬ Stops (option.flag ++ "=" ++ text) := by simp [stops_iff, flagOf_flag_assign]
    exact .inline hsize (ih ((ignoresNone_cons.mp hignores).2 hgoes))

theorem Sentence.mono {Spelt Spelt' : String → String → Prop} {arguments : List String}
    (himp : ∀ name argument, Spelt name argument → Spelt' name argument)
    (h : Sentence Spelt arguments) : Sentence Spelt' arguments := by
  induction h with
  | done => exact .done
  | stop rest hname hspelt => exact .stop rest hname (himp _ _ hspelt)
  | switch hname hspelt _ ih => exact .switch hname (himp _ _ hspelt) ih
  | next hsize _ ih => exact .next hsize ih
  | inline hsize _ ih => exact .inline hsize ih

/-- The reading goes on as if the value were not there. -/
theorem parseInto_ignores {name : String} (hname : name ∈ switchNames ++ stopNames)
    (hlong : IsLong name) (o : Options) (value : String) (rest : List String) :
    parseInto o ((name ++ "=" ++ value) :: rest) = parseInto o (name :: rest) := by
  have hflags (f : Flag) (hf : Flag.ofName? name = some f) :
      flagOf (name ++ "=" ++ value) = some f ∧ flagOf name = some f :=
    ⟨flagOf_eq_some_iff.mpr ⟨name, hf, .inr ⟨hlong, value, rfl⟩⟩,
      flagOf_eq_some_iff.mpr ⟨name, hf, .inl rfl⟩⟩
  rcases List.mem_append.mp hname with hswitch | hstop
  · obtain ⟨s, hs⟩ := exists_ofName?_switch_iff.mpr hswitch
    rw [parseInto_switch (hflags _ hs).1, parseInto_switch (hflags _ hs).2]
  · rcases ofName?_stop_iff.mpr hstop with hhelp | hversion
    · rw [parseInto_help (hflags _ hhelp).1, parseInto_help (hflags _ hhelp).2]
    · rw [parseInto_version (hflags _ hversion).1, parseInto_version (hflags _ hversion).2]

/-- The arguments that are accepted are the sentences of the grammar in which an option that takes
no number may carry a value. The documented ones are those of them in which no such value is read.
Where there is one, the reading goes on as if it were not there. -/
theorem parse_accepts_iff (arguments : List String) :
    ((∃ o, parse arguments = .ok o) ↔ Sentence Spells arguments) ∧
    (IsDocumented arguments ↔ (∃ o, parse arguments = .ok o) ∧ IgnoresNone arguments) ∧
    ∀ name ∈ switchNames ++ stopNames, IsLong name → ∀ o value,
      parseInto o ((name ++ "=" ++ value) :: arguments) = parseInto o (name :: arguments) := by
  have haccepts : (∃ o, parse arguments = .ok o) ↔ Sentence Spells arguments := by
    constructor
    · rintro ⟨o, ho⟩
      exact sentence_of_parseInto ho
    · intro h
      exact exists_parseInto h {}
  refine ⟨haccepts, ?_, ?_⟩
  · rw [haccepts]
    constructor
    · intro h
      exact ⟨h.mono fun _ _ heq => .inl heq, ignoresNone_of_documented h⟩
    · rintro ⟨h, hignores⟩
      exact documented_of_ignoresNone h hignores
  · exact fun name hname hlong o value => parseInto_ignores hname hlong o value arguments

/-- A value for a switch makes no difference in front of a number and an option that ends the
reading. -/
theorem parse_accepts_iff_unit :
    let rest := ["--height", "+4", "-V", "--bogus"]
    "--unit" ∈ switchNames ++ stopNames ∧ IsLong "--unit" ∧
      Sentence Spells ("--unit=5" :: rest) ∧
      parse ("--unit=5" :: rest) = parse ("--unit" :: rest) := by
  intro rest
  have hname : "--unit" ∈ switchNames ++ stopNames := by decide
  have hlong : IsLong "--unit" := by decide
  have haccepted : parse ("--unit=5" :: rest) =
      .ok { action := .printVersion, height := some 4, unit := true } := by decide +kernel
  have hsentence := (parse_accepts_iff ("--unit=5" :: rest)).1.mp ⟨_, haccepted⟩
  have hsame := (parse_accepts_iff rest).2.2 "--unit" hname hlong {} "5"
  exact ⟨hname, hlong, hsentence, hsame⟩

/-- A number with a plus sign, a switch and an option behind which nothing is read. -/
example : IsDocumented ["--height", "+4", "-q", "-V", "--bogus"] := by
  have hdigits : ∀ c ∈ ['4'], c.isDigit = true := List.forall_mem_singleton.mpr rfl
  have hsize : IsSize "+4" := ⟨4, ⟨['4'], List.cons_ne_nil _ _, hdigits, .inr rfl, rfl⟩, by decide⟩
  have hstop : IsDocumented ["-V", "--bogus"] := .stop _ (by decide) rfl
  have hswitch : IsDocumented ["-q", "-V", "--bogus"] := .switch (by decide) rfl hstop
  exact @Sentence.next _ .height _ _ hsize hswitch

/-- A switch is accepted with any value and turned on, which is not documented. -/
theorem switch_takes_value :
    parse ["--unit=5"] = .ok { unit := true } ∧ ¬ IsDocumented ["--unit=5"] := by
  have hcarries : CarriesIgnored "--unit=5" := ⟨"--unit", by decide, by decide, "5", rfl⟩
  constructor
  · rfl
  · intro h
    exact (ignoresNone_cons.mp (ignoresNone_of_documented h)).1 hcarries

end Options

end TreeWalk
