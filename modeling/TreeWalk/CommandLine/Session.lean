import TreeWalk.CommandLine.CheckedRun
import TreeWalk.Text.Utf8

/-!
# A whole session

From the arguments and the environment to the exit code and the texts that are written.
-/

namespace TreeWalk

/-- The version that is printed. -/
def version : String := "0.1.0"

structure Session where
  exitCode : Nat
  stdout : String
  stderr : String
  deriving DecidableEq, Repr

namespace Session

def unlines (texts : List String) : String := String.join (texts.map (· ++ "\n"))

/-- The line that tells of a success. -/
def summary (s : Settings) (r : Report) : String :=
  s!"height {s.height} batch {s.batch} rounds {s.rounds}: {r.cycles} cycles " ++
    s!"({r.speedup 2}x), {r.stats.bundles} bundles, {r.stats.scratchUsed} words"

def errorLine (f : Failure) : String := "arbor: " ++ f.message

/-- Do the checked run that the settings describe. -/
def ofSettings (s : Settings) : Session :=
  let ⟨lines, result⟩ := CheckedRun.run s
  match result with
  | .ok r => ⟨0, unlines (lines ++ if s.quiet then [] else [summary s r]), ""⟩
  | .error f => ⟨f.exitCode, unlines lines, unlines [errorLine f]⟩

/-- Do what the arguments ask for. -/
def perform (arguments : List String) (environment : Environment) : Session :=
  match Options.parse arguments with
  | .error e =>
    let f := Failure.usage e
    ⟨f.exitCode, "", unlines [errorLine f, "Try `arbor -h' for more information."]⟩
  | .ok o =>
    match o.action with
    | .printHelp => ⟨0, unlines Options.helpLines, ""⟩
    | .printVersion => ⟨0, unlines ["arbor " ++ version], ""⟩
    | .run => ofSettings (.resolve o environment)

/-- Do what the arguments ask for, as the bytes of each stand on the command line. -/
def performBytes (arguments : List (List Nat)) (environment : Environment) : Session :=
  perform (arguments.map Utf8.toText) environment

theorem performBytes_encode (arguments : List String) (environment : Environment) :
    performBytes (arguments.map Utf8.encode) environment = perform arguments environment := by
  have htexts : (arguments.map Utf8.encode).map Utf8.toText = arguments := by
    rw [List.map_map]
    exact List.map_id'' Utf8.toText_encode arguments
  rw [performBytes, htexts]

end Session

end TreeWalk
