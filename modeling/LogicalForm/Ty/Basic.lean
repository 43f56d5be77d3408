/-
The simple types of logical forms: entities, truth values, counts, and
functions between types. One more type stands for a type that could not
be determined; it has a display of its own but no notation that can be
read, so `Ty.Known` marks the types that a text can spell.
-/
namespace LogicalForm

/-- A simple type. -/
inductive Ty where
  /-- An individual. -/
  | entity
  /-- A truth value. -/
  | truth
  /-- A number of individuals, or a sum over them. -/
  | count
  /-- A function from the domain to the codomain. -/
  | func (domain codomain : Ty)
  /-- The placeholder for a type that could not be determined. -/
  | unknown
  deriving DecidableEq, Repr, Inhabited

namespace Ty

-- ================================================================ codes

/-- The atomic type whose code is the letter. -/
def ofLetter? : Char → Option Ty
  | 'e' => some entity
  | 't' => some truth
  | 'i' => some count
  | _ => none

/-- The atomic type whose code is the whole text. -/
def ofCode? (cs : List Char) : Option Ty :=
  match cs with
  | [c] => ofLetter? c
  | _ => none

/-- The three types that have a code. -/
def isAtomic : Ty → Bool
  | entity | truth | count => true
  | func .. | unknown => false

-- ============================================================ functions

/-- What a function type yields; other types yield nothing. -/
def codomain? : Ty → Option Ty
  | func _ c => some c
  | _ => none

/-- The number of nodes of the type. -/
def size : Ty → Nat
  | func d c => d.size + c.size + 1
  | _ => 1

/-- Even an atomic type counts for one. -/
theorem size_pos (t : Ty) : 0 < t.size := by
  cases t <;> simp [size]

/-- The placeholder occurs nowhere in the type. -/
def Known : Ty → Prop
  | unknown => False
  | func d c => d.Known ∧ c.Known
  | _ => True

/-- Whether the placeholder occurs nowhere in the type, decided along it. -/
def decideKnown : (t : Ty) → Decidable t.Known
  | unknown => isFalse id
  | entity | truth | count => isTrue trivial
  | func d c =>
    match decideKnown d, decideKnown c with
    | isTrue hd, isTrue hc => isTrue ⟨hd, hc⟩
    | isFalse hd, _ => isFalse fun h => hd h.1
    | _, isFalse hc => isFalse fun h => hc h.2

instance : DecidablePred Known := decideKnown

-- ============================================================== display

/-- The characters of the display: an atomic type is its code, a function
type is `<domain,codomain>`, and the placeholder is a question mark. -/
def chars : Ty → List Char
  | entity => ['e']
  | truth => ['t']
  | count => ['i']
  | unknown => ['?']
  | func d c => '<' :: (d.chars ++ ',' :: (c.chars ++ ['>']))

/-- The display of a type. -/
def render (t : Ty) : String := String.ofList t.chars

@[simp] theorem toList_render (t : Ty) : t.render.toList = t.chars :=
  String.toList_ofList

end Ty

end LogicalForm
