/-
Application and composition of forms. Application is the step of
`applyStep` with application itself inside. The recursion is unfolded as
often as the size of the type of the function allows: an application
inside the step is at a smaller type, so this is never too little, and
unfolding further, whatever stands below, changes nothing
(`Form.applyWithin_eq_apply` and `Form.apply_eq` in
`LogicalForm.Form.Termination`).
-/
import LogicalForm.Form.Substitution

namespace LogicalForm

namespace Form

/-- Application unfolded `n` times, with `last` below. -/
def applyWithin (last : Application) : Nat → Application
  | 0 => last
  | n + 1 => applyStep (applyWithin last n)

/-- The application that refuses every argument. -/
def refuse : Application := fun f _ => throw (.notApplicable f.term)

/-- Applies the form `f` to the form `a`: an abstraction is reduced, and
so are the applications that its variable heads. -/
def apply (f a : Form) : Traced Form := applyWithin refuse f.type.size f a

/-- Composes the abstraction `f` with the form `a`: under the lambda of
`f`, `a` is applied to the body. The result is an abstraction over the
same variable. -/
def compose (f a : Form) : Traced Form :=
  match f.term with
  | .lambda v type body => do
    Traced.report (.composing f.term a.term)
    let inner ← ofTerm f.context body
    let outer ← a.renumber (max f.freshIndex a.freshIndex)
    let applied ← apply outer inner
    ofTerm (f.context.merge applied.context) (.lambda v type applied.term)
  | t => throw (.notALambda t)

end Form

end LogicalForm
