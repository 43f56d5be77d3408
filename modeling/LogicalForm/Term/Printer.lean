/-
The display of terms. Every shape but an atom is a parenthesised list of
its parts with one space between two of them. A lambda opens with its
marker, which comes in two spellings, and nothing else depends on the
choice of the marker.
-/
import LogicalForm.Term.Basic
import LogicalForm.Text.Decimal

namespace LogicalForm

/-- The spelling of the word that opens a lambda: `lambda`, or the Greek
letter. -/
inductive Marker where
  | word
  | letter
  deriving DecidableEq, Repr, Inhabited

/-- The characters of a marker. -/
def Marker.chars : Marker → List Char
  | word => ['l', 'a', 'm', 'b', 'd', 'a']
  | letter => ['λ']

/-- The characters of a variable: a dollar sign and its index. -/
def Var.chars (v : Var) : List Char := '$' :: Text.digits v.index

/-- The display of a variable. -/
def Var.render (v : Var) : String := String.ofList v.chars

/-- The characters of an atom: a variable, the name of a built-in, or the
text of a constant. -/
def Atom.chars : Atom → List Char
  | var v => v.chars
  | builtin b => b.name.toList
  | const text _ => text.toList

/-- The display of an atom. -/
def Atom.render (a : Atom) : String := String.ofList a.chars

namespace Term

mutual
/-- The characters of a term, with lambdas opened by the marker. -/
def chars (m : Marker) : Term → List Char
  | .atom a => a.chars
  | .lambda v type body =>
    '(' :: (m.chars ++ ' ' :: (v.chars ++ ' ' :: (type.chars ++
      ' ' :: (chars m body ++ [')']))))
  | .binder op v args =>
    '(' :: (op.name.toList ++ ' ' :: (v.chars ++ argChars m args))
  | .app head args => '(' :: (chars m head ++ argChars m args)
/-- The characters of arguments, a space before each, and of the
parenthesis that closes their list. -/
def argChars (m : Marker) : List Term → List Char
  | [] => [')']
  | t :: ts => ' ' :: (chars m t ++ argChars m ts)
end

/-- The display of a term. -/
def render (m : Marker) (t : Term) : String := String.ofList (t.chars m)

@[simp] theorem toList_render (m : Marker) (t : Term) :
    (t.render m).toList = t.chars m :=
  String.toList_ofList

end Term

end LogicalForm
