/-
What can go wrong, as causes. Each cause carries the types, variables and
terms that it is about, and `Error.message` is the one place where a
cause gets its wording.
-/
import LogicalForm.Term.Printer
import LogicalForm.Ty.Reader

namespace LogicalForm

-- ====================================================== malformed forms

/-- Why a text or a token is no form. -/
inductive Malformation where
  /-- The text has nothing but blanks. -/
  | empty
  /-- The parentheses of the text do not match. -/
  | unbalanced
  /-- The text goes on where a single form is complete. -/
  | trailing
  /-- A list has no items. -/
  | emptyList
  /-- A lambda list has another shape than variable, type and body. -/
  | lambdaShape
  /-- A binder list does not go on with a single word. -/
  | binderShape
  /-- A word stands for a variable and is not `$` with digits. -/
  | noVariable
  /-- The index of a variable is too large. -/
  | indexOutOfRange
  deriving DecidableEq, Repr

/-- The wording of a malformation. -/
def Malformation.message : Malformation → String
  | empty => "empty input"
  | unbalanced => "unbalanced parentheses"
  | trailing => "trailing tokens after a complete expression"
  | emptyList => "empty list"
  | lambdaShape => "lambda expects a variable, a type and a body"
  | binderShape => "binder expects a variable in first position"
  | noVariable => "expected a variable `$N`"
  | indexOutOfRange => "variable index out of range"

-- ================================================================ causes

/-- The causes of failure. -/
inductive Error where
  /-- A text spells no type. -/
  | malformedType (cause : Ty.Malformed)
  /-- A text, or one word of it, is no form. -/
  | malformedForm (text : String) (cause : Malformation)
  /-- A line of a signature has other than two fields. -/
  | malformedSignature (line : String)
  /-- Nothing states a type for the atom. -/
  | untypedAtom (a : Atom)
  /-- Nothing determines the type of the head of an application. -/
  | unresolvableHead (head : Term)
  /-- A function expects another type than its argument has. -/
  | typeMismatch (expected found : Ty) (function argument : Term)
  /-- The term has the unknown type where a known one is needed. -/
  | unknownType (t : Term)
  /-- The head has arguments left and its type takes none. -/
  | notAFunction (head : Term) (type : Ty)
  /-- Only a lambda can be composed with another form. -/
  | notALambda (t : Term)
  /-- A form headed by a binder takes no argument. -/
  | notApplicable (t : Term)
  /-- The shift would take the variable past the largest index. -/
  | variableOverflow (v : Var) (offset : Nat)
  deriving DecidableEq, Repr

namespace Error

/-- The display of a term in a message. -/
def shown (t : Term) : String := t.render .word

/-- The wording of a cause. -/
def message : Error → String
  | malformedType cause => cause.message
  | malformedForm text cause =>
    "malformed expression `" ++ text ++ "`: " ++ cause.message
  | malformedSignature line =>
    "malformed signature line `" ++ line ++ "`: expected `symbol type`"
  | untypedAtom a =>
    "atom `" ++ a.render ++
      "` has neither a registered type nor an inline `symbol:type` annotation"
  | unresolvableHead head =>
    "cannot resolve the type of `" ++ shown head ++ "` used as a function"
  | typeMismatch expected found function argument =>
    "type mismatch: `" ++ shown function ++ "` expects `" ++ expected.render ++
      "`, but `" ++ shown argument ++ "` has type `" ++ found.render ++ "`"
  | unknownType t =>
    "`" ++ shown t ++
      "` has an unknown type and cannot be used as a function or a function result"
  | notAFunction head type =>
    "`" ++ shown head ++ "` of type `" ++ type.render ++
      "` is applied to an argument but is not a function"
  | notALambda t => "`" ++ shown t ++ "` is not a lambda abstraction"
  | notApplicable t => "`" ++ shown t ++ "` cannot be applied to an argument"
  | variableOverflow v offset =>
    "variable `" ++ v.render ++ "` cannot be shifted by " ++
      String.ofList (Text.digits offset)

end Error

end LogicalForm
