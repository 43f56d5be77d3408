/-
Reading the type notation. A type is a code or `<domain,codomain>`, and
separators may stand around each of its parts. The grammar tries a
function type first and a code where there is none, so a text that spells
no type is refused in the words of the last code that was tried, at the
place where the type had to start.
-/
import LogicalForm.Text.Rule
import LogicalForm.Ty.Basic

namespace LogicalForm

namespace Ty

open Text Rule

-- ============================================================== grammar

/-- An atomic type is written by its code. -/
def atomicRule : Rule Ty :=
  alt (value entity (char 'e'))
    (alt (value truth (char 't')) (value count (char 'i')))

/-- A function type is written by its two halves, which `self` reads, with
a comma between them and angle brackets around them. -/
def funcRule (self : Rule Ty) : Rule Ty :=
  map (fun halves => func halves.1 halves.2)
    (delimited (pair (char '<') multispace0)
      (separatedPair self (pair multispace0 (pair (char ',') multispace0)) self)
      (pair multispace0 (char '>')))

/-- A type is a function type or an atomic type. -/
def rule : Rule Ty := fix fun self => alt (funcRule self) atomicRule

-- =============================================================== reader

/-- A text that was to be a type, with the refusal of its grammar. -/
structure Malformed where
  text : String
  fault : Refusal
  deriving DecidableEq, Repr

/-- The wording of a malformed type. -/
def Malformed.message (m : Malformed) : String :=
  "malformed type `" ++ m.text ++ "`: " ++ m.fault.message

/-- The type that a text spells. -/
def parse (text : String) : Except Malformed Ty :=
  match (whole rule).run text.toList with
  | .ok (t, _) => .ok t
  | .error fault => .error ⟨text, fault⟩

end Ty

end LogicalForm
