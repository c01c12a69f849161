import TreeWalk.CommandLine.Options
import TreeWalk.Kernel.Build

/-!
# Settings

Where the options leave something open the environment decides, unless it is to be ignored, and
then the usual workload.
-/

namespace TreeWalk

namespace Blank

/-- The property `White_Space`. -/
def ranges : List CodeRange :=
  [(0x9, 0xD), (0x20, 0x20), (0x85, 0x85), (0xA0, 0xA0), (0x1680, 0x1680), (0x2000, 0x200A),
   (0x2028, 0x2029), (0x202F, 0x202F), (0x205F, 0x205F), (0x3000, 0x3000)]

def isBlank (c : Char) : Bool :=
  CodeRange.cover ranges c

/-- Leave out blank characters at both ends. -/
def trim (text : String) : String :=
  let front := text.toList.dropWhile isBlank
  String.ofList (front.reverse.dropWhile isBlank).reverse

end Blank

/-- The value of each environment variable that is set. -/
abbrev Environment := String → Option String

structure Settings where
  height : Nat := 10
  rounds : Nat := 16
  batch : Nat := 256
  seed : Nat := 123
  mode : Packing.Mode := .wide
  dumpProgram : Bool := false
  dumpScratch : Bool := false
  quiet : Bool := false
  deriving DecidableEq, Repr

namespace Settings

/-- The environment variables that are looked at. -/
def variableNames : List String :=
  ["ARBOR_HEIGHT", "ARBOR_ROUNDS", "ARBOR_BATCH", "ARBOR_SEED", "ARBOR_UNIT"]

/-- A variable's number. A variable that holds none counts as not set. -/
def numberIn (environment : Environment) (name : String) : Option Nat :=
  (environment name).bind fun text => Decimal.read? Size.limit (Blank.trim text)

/-- Whether a variable is set to something other than the empty text and zero. -/
def switchIn (environment : Environment) (name : String) : Bool :=
  match environment name with
  | some text => text ≠ "" && text ≠ "0"
  | none => false

/-- Settle what the options leave open. -/
def resolve (o : Options) (environment : Environment) : Settings :=
  let environment : Environment := if o.ignoreEnvironment then fun _ => none else environment
  let usual : Settings := {}
  let number (given : Option Nat) (name : String) (default : Nat) : Nat :=
    (given.or (numberIn environment name)).getD default
  { height := number o.height "ARBOR_HEIGHT" usual.height
    rounds := number o.rounds "ARBOR_ROUNDS" usual.rounds
    batch := number o.batch "ARBOR_BATCH" usual.batch
    seed := number o.seed "ARBOR_SEED" usual.seed
    mode := if o.unit || switchIn environment "ARBOR_UNIT" then .unit else .wide
    dumpProgram := o.dumpProgram
    dumpScratch := o.dumpScratch
    quiet := o.quiet }

def buildConfig (s : Settings) : BuildConfig := { mode := s.mode }

def workload (s : Settings) : Workload := ⟨s.height, s.batch, s.rounds⟩

end Settings

end TreeWalk
