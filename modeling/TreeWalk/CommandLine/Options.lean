import TreeWalk.Word
import TreeWalk.Text.Decimal
import TreeWalk.Text.Quoted

/-!
# Command-line options

Arguments are read from left to right. A number follows its option as the next argument or, behind
an equals sign, in the same one. Asking for help or for the version ends the reading.
-/

namespace TreeWalk

/-- What is asked for. -/
inductive Action where
  | run | printVersion | printHelp
  deriving DecidableEq, Repr

/-- What the arguments say. A number that is not given is left open. -/
structure Options where
  action : Action := .run
  height : Option Nat := none
  rounds : Option Nat := none
  batch : Option Nat := none
  seed : Option Nat := none
  unit : Bool := false
  dumpProgram : Bool := false
  dumpScratch : Bool := false
  ignoreEnvironment : Bool := false
  quiet : Bool := false
  deriving DecidableEq, Repr

/-- What is wrong with the arguments. -/
inductive UsageError where
  | missingValue (flag : String)
  | invalidValue (flag value : String)
  | unknownFlag (flag : String)
  | unexpectedArgument (argument : String)
  deriving DecidableEq, Repr

def UsageError.message : UsageError → String
  | missingValue flag => s!"Argument expected for the {flag} option"
  | invalidValue flag value => s!"Invalid value for {flag}: " ++ Quoted.encode value
  | unknownFlag flag => "Unknown option: " ++ flag
  | unexpectedArgument argument => "Unexpected argument: " ++ argument

/-- Options that take a number. -/
inductive NumberOption where
  | height | rounds | batch | seed
  deriving DecidableEq, Repr

def NumberOption.flag : NumberOption → String
  | height => "--height"
  | rounds => "--rounds"
  | batch => "--batch"
  | seed => "--seed"

inductive Switch where
  | ignoreEnvironment | quiet | unit | dumpProgram | dumpScratch
  deriving DecidableEq, Repr

/-- What the name of an option means. -/
inductive Flag where
  | help
  | version
  | switch (s : Switch)
  | number (n : NumberOption)
  deriving DecidableEq, Repr

def Flag.ofName? : String → Option Flag
  | "-h" | "--help" => some help
  | "-V" | "--version" => some version
  | "-E" => some (switch .ignoreEnvironment)
  | "-q" | "--quiet" => some (switch .quiet)
  | "--unit" => some (switch .unit)
  | "--dump-program" => some (switch .dumpProgram)
  | "--dump-scratch" => some (switch .dumpScratch)
  | "--height" => some (number .height)
  | "--rounds" => some (number .rounds)
  | "--batch" => some (number .batch)
  | "--seed" => some (number .seed)
  | _ => none

namespace Options

def turnOn (o : Options) : Switch → Options
  | .ignoreEnvironment => { o with ignoreEnvironment := true }
  | .quiet => { o with quiet := true }
  | .unit => { o with unit := true }
  | .dumpProgram => { o with dumpProgram := true }
  | .dumpScratch => { o with dumpScratch := true }

def setNumber (o : Options) (n : Nat) : NumberOption → Options
  | .height => { o with height := some n }
  | .rounds => { o with rounds := some n }
  | .batch => { o with batch := some n }
  | .seed => { o with seed := some n }

/-- Name and inline value of an argument. Only a name with two dashes has one. -/
def splitInline (argument : String) : String × Option String :=
  let name := argument.toList.takeWhile (· ≠ '=')
  match argument.toList.dropWhile (· ≠ '='), name with
  | _ :: value, '-' :: '-' :: _ => (String.ofList name, some (String.ofList value))
  | _, _ => (argument, none)

/-- Take a value of a number option. -/
def readNumber (o : Options) (option : NumberOption) (value : String) :
    Except UsageError Options :=
  match Decimal.read? Size.limit value with
  | some n => .ok (o.setNumber n option)
  | none => .error (.invalidValue option.flag value)

/-- The error for an argument that is not an option. -/
def reject (argument : String) : UsageError :=
  match argument.toList with
  | '-' :: _ => .unknownFlag argument
  | _ => .unexpectedArgument argument

/-- Read the arguments into options that are already set. -/
def parseInto (o : Options) : List String → Except UsageError Options
  | [] => .ok o
  | argument :: rest =>
    let (name, inline) := splitInline argument
    match Flag.ofName? name with
    | none => .error (reject argument)
    | some .help => .ok { o with action := .printHelp }
    | some .version => .ok { o with action := .printVersion }
    | some (.switch s) => parseInto (o.turnOn s) rest
    | some (.number option) =>
      match inline with
      | some value => do
        let o ← readNumber o option value
        parseInto o rest
      | none =>
        match rest with
        | [] => .error (.missingValue option.flag)
        | value :: rest => do
          let o ← readNumber o option value
          parseInto o rest

def parse (arguments : List String) : Except UsageError Options := parseInto {} arguments

/-- The lines that explain the options. -/
def helpLines : List String :=
  ["usage: arbor [option] ...",
   "",
   "Builds the tree-walk kernel, runs it on the simulated machine and checks it",
   "against the reference at every pause.",
   "",
   "Options:",
   "  --height <n>      forest height (default 10)",
   "  --rounds <n>      rounds of the walk (default 16)",
   "  --batch <n>       lanes in the batch, a multiple of 8 (default 256)",
   "  --seed <n>        workload seed (default 123)",
   "  --unit            one operation per bundle",
   "  --dump-program    print the packed program",
   "  --dump-scratch    print the scratch map",
   "  -q, --quiet       only report failures",
   "  -E                ignore ARBOR_* environment variables",
   "  -h, --help        print this help and exit",
   "  -V, --version     print the version and exit",
   "",
   "Environment:",
   "  ARBOR_HEIGHT, ARBOR_ROUNDS, ARBOR_BATCH, ARBOR_SEED, ARBOR_UNIT",
   "                    defaults for the options above",
   "  ARBOR_LOG         log filter (default info)"]

end Options

end TreeWalk
