import ChainLedger.CommandLine

/-!
# The program

Reads the files and variables that a command line asks for, and prints what
comes of it.
-/

open ChainLedger

/-- What a path leads to. -/
def readPath (path : String) : IO CommandLine.File := do
  try
    return .text (← IO.FS.readFile path)
  catch
    | .noFileOrDirectory .. => return .missing
    | _ => return .directory

/-- Runs the program and returns its exit code. -/
def main (words : List String) : IO UInt32 := do
  let files ← (CommandLine.paths words).mapM fun path => return (path, ← readPath path)
  let values ← Variable.names.mapM fun name => return (name, ← IO.getEnv name)
  let e := CommandLine.run words
    (fun name => (values.lookup name).join)
    (fun path => (files.lookup path).getD .missing)
  IO.print e.output
  if let some text := e.failure? then IO.eprintln ("Error: " ++ text)
  return e.code.toUInt32
