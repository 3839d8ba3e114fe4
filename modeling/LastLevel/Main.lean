import LastLevel.CommandLine.Run
/-!
# The program

Reads the files that the arguments name, runs, and prints.
-/

open LastLevel CommandLine

/-- Reads a file as far as that is possible. -/
def loadFile (path : String) : IO (Except String ByteArray) :=
  try
    return .ok (← IO.FS.readBinFile path)
  catch e =>
    return .error (toString e)

def main (args : List String) : IO UInt32 := do
  let paths := match Options.ofArguments? args with
    | some o => o.traces ++ o.config.toList
    | none => []
  let contents ← paths.mapM fun path => return (path, ← loadFile path)
  let outcome := run args fun path => (contents.lookup path).getD (.error "not read")
  IO.print outcome.output
  match outcome.ending with
  | .failed causes => IO.eprintln (describe causes)
  | .misused =>
    IO.eprintln "usage: --trace FILE... [--config FILE] [--cores N] [--slice-kib N,...] [--owned N,...] [--dump]"
  | _ => pure ()
  return UInt32.ofNat outcome.ending.code
