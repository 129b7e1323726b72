import Chronicle.CommandLine

namespace Chronicle.CommandLine

/-- The number of a failure. Some come with their sign turned. -/
def number (code : UInt32) : Nat :=
  if code.toNat < 0x80000000 then code.toNat else 0x100000000 - code.toNat

/-- A failure without a known number counts as one of input and output. -/
def readError : IO.Error → ReadError
  | .noFileOrDirectory _ code _ => .ofNumber (number code)
  | .permissionDenied _ code _ => .ofNumber (number code)
  | .inappropriateType _ code _ => .ofNumber (number code)
  | .invalidArgument _ code _ => .ofNumber (number code)
  | _ => .failed 5

def readText (path : String) : IO (Except ReadError String) := do
  try
    match String.fromUTF8? (← IO.FS.readBinFile path) with
    | some text => return .ok text
    | none => return .error .notText
  catch e =>
    return .error (readError e)

end Chronicle.CommandLine

open Chronicle.CommandLine in
def main (args : List String) : IO UInt32 := do
  let report ← match plan args with
    | .finish report => pure report
    | .read path report => do pure (report (← readText path))
  if report.messages.isEmpty && report.status != 0 then
    IO.eprintln "usage: chronicle [OPTIONS] [FILE]"
  for message in report.messages do
    IO.println message
  return report.status.toUInt32
