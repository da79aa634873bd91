import SetSequent.CommandLine.Report

/-!
# The command

Reads the arguments, reads the problem file, prints the report.
-/

namespace SetSequent.CommandLine

def usage : String :=
  "usage: setsequent [--help] [--no-pull] [--max-splits N] [--decidable NAME] [--certificate] "
    ++ "[--crosscheck] [--timeout SECONDS] [--log-level LEVEL] file"

/-- What stands under a name in the file system. -/
def readSource (path : String) : IO Source := do
  try
    return .file (← IO.FS.readBinFile (tidyPath path))
  catch
    | .noFileOrDirectory .. => return .missing
    | .inappropriateType .. => return .directory
    | e => throw e

def runRequest (r : Request) : IO UInt32 := do
  match r.run (← readSource r.file) with
  | .error .invalidBytes =>
    IO.eprintln "the file is not UTF-8"
    return 1
  | .error (.emptySetting option) =>
    IO.eprintln (option.longName ++ " has no value")
    return 1
  | .ok report =>
    IO.print report.output
    report.errors.forM fun line => IO.eprintln line
    return report.exitCode.toUInt32

end SetSequent.CommandLine

open SetSequent.CommandLine in
def main (arguments : List String) : IO UInt32 := do
  match Request.ofArguments arguments with
  | .error refusal =>
    IO.eprintln usage
    return refusal.exitCode.toUInt32
  | .ok request => runRequest request
