import Script.Command

/-!
# The program

Reads the script that the command line names, writes the report on it, and exits with its status.
-/

namespace Script

/-- More steps than a run can take in practice. -/
def stepLimit : Nat := 0x4000000000000000

/-- The contents of a file, if it can be read. -/
def readFile? (path : String) : IO (Option ByteArray) := do
  try
    let bytes ← IO.FS.readBinFile path
    pure (some bytes)
  catch _ => pure none

end Script

open Script in
/-- The command line. -/
def main (args : List String) : IO UInt32 := do
  let report ← match Options.ofArgs? args with
    | none => pure (some .usage)
    | some o => o.execute stepLimit <$> readFile? o.script
  match report with
  | none => pure 1
  | some r =>
    let output ← IO.getStdout
    output.putStr r.output
    output.flush
    pure r.status.toUInt32
