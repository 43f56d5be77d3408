/-
The command line: reads the arguments, the file of the signature and
standard input, and writes what the run answers.
-/
import LogicalForm.Batch.Run

namespace LogicalForm.Batch

/-- Writes the output of a run and returns its code. -/
def emit (out : Output) : IO UInt32 := do
  (← IO.getStdout).putStr out.stdout
  (← IO.getStderr).putStr out.stderr
  return out.code.toUInt32

end LogicalForm.Batch

open LogicalForm.Batch

/-- The program: what the arguments ask for, done. -/
def main (args : List String) : IO UInt32 := do
  match Command.ofArgs {} args with
  | .help => emit ⟨helpText, "", 0⟩
  | .version => emit ⟨versionText, "", 0⟩
  | .misuse arg => emit ⟨"", "error: unexpected argument `" ++ arg ++ "`\n", 2⟩
  | .run o =>
    let signature ← o.signature.mapM fun file => IO.FS.readFile file
    let input ← (← IO.getStdin).readToEnd
    emit (run o signature input)
