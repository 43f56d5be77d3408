/-
A run of the batch program over a text. Lines that open with a
parenthesis are forms, all others are skipped; lines are numbered from
one and skipped lines count. A form is read, or with its neighbour
applied, and each outcome is one line: the display of the form on
standard output, or the cause of failure with the number of the line on
standard error. A faulty signature ends the run before any line is read.
-/
import LogicalForm.Batch.Options
import LogicalForm.Batch.Pairing
import LogicalForm.Context.Signature

namespace LogicalForm.Batch

-- ================================================================ lines

/-- A line without the carriage return at its end. -/
def dropReturn (line : List Char) : List Char :=
  if line.getLast? = some '\r' then line.dropLast else line

/-- Lines without the carriage return before the line feed. The last line
has no line feed behind it and is left as it is. -/
def chomp : List (List Char) → List (List Char)
  | [] => []
  | [last] => [last]
  | line :: next :: rest => dropReturn line :: chomp (next :: rest)

/-- The lines of a text with their numbers. -/
def numberedLines (input : String) : List (Nat × List Char) :=
  ((chomp (Text.lines input.toList)).zipIdx 1).map fun l => (l.2, l.1)

/-- The lines that hold a form: those that open with a parenthesis. -/
def formLines (input : String) : List (Nat × List Char) :=
  (numberedLines input).filter fun l => l.2.head? = some '('

/-- What is made of each line that holds a form. -/
def read (c : Context) (input : String) : List (Nat × Outcome) :=
  (formLines input).map fun l => (l.1, (Form.parse c (String.ofList l.2)).result)

/-- The outcomes that a run reports, each with the number of its line. -/
def outcomes (o : Options) (c : Context) (input : String) : List (Nat × Outcome) :=
  if o.apply then pairAll none (read c input) else read c input

-- =============================================================== output

/-- What a run writes, and the code that it ends with. -/
structure Output where
  stdout : String
  stderr : String
  code : Nat
  deriving DecidableEq, Repr

/-- The marker that the options choose. -/
def Options.marker (o : Options) : Marker := if o.ascii then .word else .letter

/-- The line that an outcome puts on standard output. -/
def stdoutLine (m : Marker) : Nat × Outcome → String
  | (_, .ok f) => f.render m ++ "\n"
  | (_, .error _) => ""

/-- The line that an outcome puts on standard error. -/
def stderrLine : Nat × Outcome → String
  | (_, .ok _) => ""
  | (n, .error e) =>
    "line " ++ String.ofList (Text.digits n) ++ ": " ++ e.message ++ "\n"

/-- The run over a text under a context. -/
def runUnder (o : Options) (c : Context) (input : String) : Output :=
  let reports := outcomes o c input
  { stdout := String.join (reports.map (stdoutLine o.marker))
    stderr := String.join (reports.map stderrLine)
    code := 0 }

/-- The run over a text with the text of a signature, if there is one. -/
def run (o : Options) (signature : Option String) (input : String) : Output :=
  match signature with
  | none => runUnder o .empty input
  | some text =>
    match Context.ofSignature text with
    | .ok c => runUnder o c input
    | .error fault => ⟨"", "Error: " ++ fault.record ++ "\n", 1⟩

end LogicalForm.Batch
