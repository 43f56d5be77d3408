/-
Reading terms. A word is a variable, a built-in or a constant; a group is
an abstraction, a binder or an application, and the word that a group
opens with decides which. Parts are read from the left to the right, so
the first mistake in the text is the one reported.

A constant may state its type behind a single colon, by a code or in the
type notation. Any other suffix is reported and read as an entity.
-/
import LogicalForm.Sexp.Reader
import LogicalForm.Traced

namespace LogicalForm

-- ================================================================ words

/-- The variable that a word names: a dollar sign and digits. The largest
index is kept free, so that every variable has a next one. -/
def Var.ofWord (w : List Char) : Except Error Var :=
  match w with
  | '$' :: ds =>
    match Text.decimal? ds with
    | some n =>
      if n < Var.maxIndex then .ok ⟨n⟩
      else .error (.malformedForm (String.ofList w) .indexOutOfRange)
    | none => .error (.malformedForm (String.ofList w) .noVariable)
  | _ => .error (.malformedForm (String.ofList w) .noVariable)

/-- What follows the colon of a text that has exactly one. -/
def Atom.suffix? (cs : List Char) : Option (List Char) :=
  match cs.dropWhile (· != ':') with
  | [] => none
  | _ :: suffix => if suffix.contains ':' then none else some suffix

/-- The constant with that text. -/
def Atom.constant (text : String) : Traced Atom :=
  match suffix? text.toList with
  | none => pure (.const text none)
  | some suffix =>
    if suffix.head? = some '<' then
      match Ty.parse (String.ofList suffix) with
      | .ok type => pure (.const text (some type))
      | .error cause => throw (.malformedType cause)
    else
      match Ty.ofCode? suffix with
      | some type => pure (.const text (some type))
      | none => do
        Traced.report (.oddSuffix text)
        return .const text (some .entity)

/-- The atom that a word names. -/
def Atom.ofWord (w : List Char) : Traced Atom :=
  if w.head? = some '$' then Atom.var <$> Traced.ofExcept (Var.ofWord w)
  else
    match Builtin.ofName? (String.ofList w) with
    | some b => pure (.builtin b)
    | none => constant (String.ofList w)

/-- The word opens a lambda: it is one of the two markers, or a
backslash. -/
def isLambdaWord (w : List Char) : Bool :=
  w = Marker.word.chars || w = Marker.letter.chars || w = ['\\']

/-- The binder that a word names. -/
def Builtin.binderOfWord? (w : List Char) : Option Builtin :=
  (ofName? (String.ofList w)).filter isBinder

-- ================================================================ terms

namespace Term

mutual
/-- The term that an s-expression of `text` writes. -/
def ofSexp (text : String) : Sexp → Traced Term
  | .word w => .atom <$> Atom.ofWord w
  | .group [] => throw (.malformedForm text .emptyList)
  | .group (.word w :: rest) =>
    if isLambdaWord w then
      match rest with
      | [.word v, .word type, body] => do
        let v ← Traced.ofExcept (Var.ofWord v)
        let type ← Traced.ofExcept ((Ty.parse (String.ofList type)).mapError .malformedType)
        let body ← ofSexp text body
        return .lambda v type body
      | _ => throw (.malformedForm text .lambdaShape)
    else
      match Builtin.binderOfWord? w with
      | some op =>
        match rest with
        | .word v :: args => do
          let v ← Traced.ofExcept (Var.ofWord v)
          let args ← ofSexps text args
          return .binder op v args
        | _ => throw (.malformedForm text .binderShape)
      | none => do
        let head ← Atom.ofWord w
        let args ← ofSexps text rest
        return .app (.atom head) args
  | .group (.group items :: rest) => do
    let head ← ofSexp text (.group items)
    let args ← ofSexps text rest
    return .app head args
/-- The terms that s-expressions of `text` write, in order. -/
def ofSexps (text : String) : List Sexp → Traced (List Term)
  | [] => pure []
  | s :: ss => do
    let t ← ofSexp text s
    let ts ← ofSexps text ss
    return t :: ts
end

/-- The term that a text writes. -/
def parse (text : String) : Traced Term :=
  match Sexp.ofChars text.toList with
  | .ok s => ofSexp text s
  | .error cause => throw (.malformedForm text cause)

end Term

end LogicalForm
