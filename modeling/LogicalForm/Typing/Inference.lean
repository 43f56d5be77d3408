/-
Inference of types. Only the spine of lambdas is followed: a binder and
an application of a built-in have the result type of the built-in
whatever their arguments are, and any other application takes as many
codomains from the type of its head as there are arguments. The arguments
themselves are never looked at.
-/
import LogicalForm.Context.Basic

namespace LogicalForm

-- ========================================================== applications

/-- What is left of the type of a head after so many arguments. -/
def Ty.afterArgs (head : Term) : Ty → Nat → Except Error Ty
  | t, 0 => .ok t
  | .func _ c, n + 1 => afterArgs head c n
  | .unknown, _ + 1 => .error (.unresolvableHead head)
  | t, _ + 1 => .error (.notAFunction head t)

namespace Context

/-- The type of an atom by itself. A registered symbol counts before the
type that a constant states, and a built-in has no other type than a
registered one. -/
def inferAtom (c : Context) (a : Atom) : Except Error Ty :=
  let type? :=
    match a with
    | .var v => c.var? v
    | .builtin b => c.symbol? b.name
    | .const text stated => (c.symbol? text).or stated
  match type? with
  | some type => .ok type
  | none => .error (.untypedAtom a)

/-- The type of an atom applied to so many arguments. A constant that
states an atomic type has it as its result type. -/
def inferAtomHead (c : Context) (a : Atom) (arity : Nat) : Except Error Ty :=
  match a with
  | .builtin b => .ok b.resultType
  | .var v =>
    match c.var? v with
    | none | some .unknown => .error (.unknownType (.atom a))
    | some type => type.afterArgs (.atom a) arity
  | .const text stated =>
    match c.symbol? text, stated with
    | some type, _ => type.afterArgs (.atom a) arity
    | none, some type =>
      if type.isAtomic then .ok type else type.afterArgs (.atom a) arity
    | none, none => .error (.unresolvableHead (.atom a))

/-- The type of a term. -/
def infer (c : Context) : Term → Except Error Ty
  | .atom a => c.inferAtom a
  | .lambda _ type body =>
    match c.infer body with
    | .error e => .error e
    | .ok .unknown => .error (.unknownType body)
    | .ok codomain => .ok (.func type codomain)
  | .binder op _ _ => .ok op.resultType
  | .app (.atom a) args => c.inferAtomHead a args.length
  | .app head args =>
    match c.infer head with
    | .error e => .error e
    | .ok type => type.afterArgs head args.length

/-- An abstraction has a function type over the type of its body. -/
theorem infer_lambda_eq_ok {c : Context} {v : Var} {type t : Ty} {body : Term}
    (h : c.infer (.lambda v type body) = .ok t) :
    ∃ codomain, c.infer body = .ok codomain ∧ t = .func type codomain := by
  rw [infer] at h
  split at h
  · cases h
  · cases h
  · rename_i codomain _ hbody
    exact ⟨codomain, hbody, by cases h; rfl⟩

end Context

end LogicalForm
