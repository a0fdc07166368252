import PatternInference.CommandLine.Run

open PatternInference PatternInference.CommandLine

def readFile (name : String) : IO (Except ReadFailure ByteArray) := do
  try
    return .ok (← IO.FS.readBinFile name)
  catch
    | .noFileOrDirectory .. => return .error .notFound
    | .inappropriateType .. => return .error .isDirectory
    | e => return .error (.other (toString e))

def main (args : List String) : IO UInt32 := do
  let tool := if (← IO.appPath).fileName == some Tool.dump.name then Tool.dump else .pattern
  let inputs? := if wantsHelp args then none else (Settings.read {} args).toOption.map (·.files)
  let reads ← (inputs?.getD []).filter (· != "-") |>.mapM fun name => return (name, ← readFile name)
  let asks := inputs?.any fun names => names.isEmpty || names.contains "-"
  let stdin ← if asks then (← IO.getStdin).readBinToEnd else pure .empty
  let result := run tool args stdin fun name => (reads.lookup name).getD (.error .notFound)
  IO.print result.stdout
  IO.eprint result.stderr
  return result.code.toUInt32
