/-
Pairs of forms: the first of two is a function, the second its argument.
A form that could not be read still takes its place, so one faulty line
never moves the pairs behind it. A fault is reported where it stands, and
an argument whose function was faulty is left without a result.
-/
import LogicalForm.Form.Reduction

namespace LogicalForm.Batch

/-- What has been made of a line: a form, or the cause of failure. -/
abbrev Outcome := Except Error Form

/-- What is waiting for its argument: nothing, or what has been made of
the first line of a pair. -/
abbrev Waiting := Option Outcome

/-- What a line contributes to a run in pairs, and what waits after it. -/
def pair : Waiting → Outcome → Option Outcome × Waiting
  | none, .ok f => (none, some (.ok f))
  | none, .error e => (some (.error e), some (.error e))
  | some (.ok f), .ok a => (some (f.apply a).result, none)
  | some (.ok _), .error e => (some (.error e), none)
  | some (.error _), .ok _ => (none, none)
  | some (.error _), .error e => (some (.error e), none)

/-- The outcomes of lines taken in pairs, each with the number of the
line that it is reported for. -/
def pairAll : Waiting → List (Nat × Outcome) → List (Nat × Outcome)
  | _, [] => []
  | w, (n, x) :: rest =>
    match pair w x with
    | (some y, w) => (n, y) :: pairAll w rest
    | (none, w) => pairAll w rest

end LogicalForm.Batch
