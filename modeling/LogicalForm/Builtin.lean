/-
The built-in vocabulary: quantifiers, connectives, comparisons and
arithmetic. Each built-in has one name and one result type whatever its
arguments are, and some of them bind an entity variable in their first
argument position. Distinct built-ins have distinct names, so a name
determines the built-in (`ofName?_eq_some_iff`).
-/
import LogicalForm.Ty.Basic

namespace LogicalForm

/-- A built-in predicate, connective or quantifier. -/
inductive Builtin where
  | argmin
  | argmax
  | the
  | existential
  | and
  | not
  | or
  | greater
  | less
  | count
  | sum
  deriving DecidableEq, Repr, Inhabited

namespace Builtin

/-- The whole vocabulary, in its order of presentation. -/
def all : List Builtin :=
  [argmin, argmax, the, existential, and, not, or, greater, less, count, sum]

/-- The list of the built-ins is complete. -/
theorem mem_all (b : Builtin) : b ∈ all := by
  cases b <;> decide

-- ================================================================ names

/-- The name that a form uses for the built-in. -/
def name : Builtin → String
  | argmin => "argmin"
  | argmax => "argmax"
  | the => "the"
  | existential => "exists"
  | and => "and"
  | not => "not"
  | or => "or"
  | greater => ">"
  | less => "<"
  | count => "count"
  | sum => "sum"

/-- The built-in of that name. Names are compared exactly. -/
def ofName? (s : String) : Option Builtin := all.find? fun b => b.name == s

/-- A built-in is found under its own name. -/
theorem ofName?_name (b : Builtin) : ofName? b.name = some b := by
  cases b <;> decide

/-- A name finds the built-in that it names and no other. -/
theorem ofName?_eq_some_iff {s : String} {b : Builtin} :
    ofName? s = some b ↔ b.name = s := by
  constructor
  · intro h
    simpa using List.find?_some h
  · rintro rfl
    exact ofName?_name b

-- ============================================================== meaning

/-- The type of every application of the built-in. -/
def resultType : Builtin → Ty
  | argmin | argmax | the => .entity
  | existential | and | not | or | greater | less => .truth
  | count | sum => .count

/-- Whether the built-in binds an entity variable in its first argument
position. -/
def isBinder : Builtin → Bool
  | argmin | argmax | the | existential | count => true
  | and | not | or | greater | less | sum => false

/-- What a built-in yields is known before anything is inferred. -/
theorem resultType_known (b : Builtin) : b.resultType.Known := by
  cases b <;> trivial

end Builtin

end LogicalForm
