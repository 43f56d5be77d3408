/-
What reading, typing and reduction report while they work. Events are
data: a run hands back the list of the events it met, in order, and their
levels and wording are computed from them afterwards.
-/
import LogicalForm.Term.Printer

namespace LogicalForm

/-- An event of a run. -/
inductive Event where
  /-- The suffix of a constant names no type; it is taken as an entity. -/
  | oddSuffix (text : String)
  /-- Nothing in the term determines the type of the variable. -/
  | unclassified (v : Var) (t : Term)
  /-- The bound variables of the term are about to be shifted. -/
  | renumbering (bound : List Var) (t : Term) (offset : Nat)
  /-- The function is about to be applied to the renumbered argument. -/
  | applying (function argument : Term)
  /-- The function is about to be composed with the argument. -/
  | composing (function argument : Term)
  deriving DecidableEq, Repr

/-- How much an event matters. -/
inductive Level where
  | warn
  | debug
  | trace
  deriving DecidableEq, Repr

/-- The name of a level. -/
def Level.name : Level → String
  | warn => "WARN"
  | debug => "DEBUG"
  | trace => "TRACE"

namespace Event

/-- The level of an event: what may be a mistake in the input is a
warning. -/
def level : Event → Level
  | oddSuffix _ | unclassified .. => .warn
  | applying .. | composing .. => .debug
  | renumbering .. => .trace

/-- The display of a set of variables, given in ascending order. -/
def varSet (vs : List Var) : String :=
  let items := vs.map fun v => "Var(" ++ String.ofList (Text.digits v.index) ++ ")"
  "\x7b" ++ ", ".intercalate items ++ "\x7d"

/-- The wording of an event. -/
def message : Event → String
  | oddSuffix text =>
    "unrecognized type suffix in `" ++ text ++ "`, typing it as an entity"
  | unclassified v t =>
    "cannot classify the type of " ++ v.render ++ " in `" ++ t.render .word ++ "`"
  | renumbering bound t offset =>
    "renumbering " ++ varSet bound ++ " of `" ++ t.render .word ++ "` by " ++
      String.ofList (Text.digits offset)
  | applying function argument =>
    "applying `" ++ function.render .word ++ "` to `" ++ argument.render .word ++ "`"
  | composing function argument =>
    "composing `" ++ function.render .word ++ "` with `" ++ argument.render .word ++ "`"

end Event

end LogicalForm
