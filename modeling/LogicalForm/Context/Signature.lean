/-
Signatures: contexts written as text. A line holds a name and a type with
blanks between them; a number sign opens a comment, and a line with
nothing else is skipped. A name that is a dollar sign and an index stands
for that variable, every other name for a symbol. Lines are taken in
order, a later entry replaces an earlier one for the same name, and the
first faulty line is the one reported.
-/
import LogicalForm.Context.Basic

namespace LogicalForm

namespace Signature

open Text

-- =============================================================== faults

/-- What is wrong with a line of a signature. -/
inductive Fault where
  /-- The second of its two fields spells no type. -/
  | type (cause : Ty.Malformed)
  /-- It has other than two fields. -/
  | fields (line : String)
  deriving DecidableEq, Repr

/-- The fault as a cause of failure. -/
def Fault.toError : Fault → Error
  | type cause => .malformedType cause
  | fields line => .malformedSignature line

/-- The fault written as a record with quoted fields. -/
def Fault.record : Fault → String
  | type cause =>
    "MalformedType \x7b text: " ++ quoted cause.text ++ ", reason: " ++
      quoted cause.fault.message ++ " \x7d"
  | fields line =>
    "MalformedSignature \x7b line: " ++ quoted line ++ ", reason: " ++
      quoted "expected `symbol type`" ++ " \x7d"

-- ================================================================ lines

/-- What a line of a signature states. -/
inductive Entry where
  | var (v : Var) (type : Ty)
  | symbol (name : String) (type : Ty)
  deriving DecidableEq, Repr

/-- The context with what an entry states, whatever it said before. -/
def Entry.addTo (c : Context) : Entry → Context
  | var v type => c.insertVar v type
  | symbol name type => c.insertSymbol name type

/-- The variable that a name stands for: a dollar sign, a plus sign or
none, and the digits of an index, leading zeros allowed. -/
def varOfName? (name : List Char) : Option Var :=
  match name with
  | '$' :: '+' :: ds => index? ds
  | '$' :: ds => index? ds
  | _ => none
where
  /-- The variable whose index the digits spell. -/
  index? (ds : List Char) : Option Var :=
    ((decimal? ds).filter (· ≤ Var.maxIndex)).map Var.mk

/-- The line without its comment and the blanks around the rest. -/
def content (line : List Char) : List Char :=
  trim (line.takeWhile (· != '#'))

/-- What a line states, `none` if it has no content. -/
def entry? (line : List Char) : Except Fault (Option Entry) :=
  match fields (content line) with
  | [] => .ok none
  | [name, type] =>
    match Ty.parse (String.ofList type) with
    | .error cause => .error (.type cause)
    | .ok type =>
      match varOfName? name with
      | some v => .ok (some (.var v type))
      | none => .ok (some (.symbol (String.ofList name) type))
  | _ => .error (.fields (String.ofList (content line)))

/-- The context after one more line. -/
def addLine (c : Context) (line : List Char) : Except Fault Context :=
  match entry? line with
  | .error fault => .error fault
  | .ok none => .ok c
  | .ok (some entry) => .ok (entry.addTo c)

end Signature

/-- The context that a signature states. -/
def Context.ofSignature (text : String) : Except Signature.Fault Context :=
  (Text.lines text.toList).foldlM Signature.addLine Context.empty

end LogicalForm
