import TreeWalk.CommandLine.Session

/-!
# The program

Reads arguments and environment, writes the session's texts and ends with its exit code.
-/

namespace TreeWalk

/-- The variables of `Settings.variableNames` that are set. -/
def readEnvironment : List String → IO (List (String × String))
  | [] => pure []
  | name :: rest => do
    let value ← IO.getEnv name
    let more ← readEnvironment rest
    pure (match value with
      | some text => (name, text) :: more
      | none => more)

end TreeWalk

def main (arguments : List String) : IO UInt32 := do
  let environment ← TreeWalk.readEnvironment TreeWalk.Settings.variableNames
  let session := TreeWalk.Session.performBytes (arguments.map TreeWalk.Utf8.encode)
    fun name => environment.lookup name
  IO.print session.stdout
  IO.eprint session.stderr
  pure (UInt32.ofNat session.exitCode)
