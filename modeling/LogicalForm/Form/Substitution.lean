/-
Hereditary substitution of a form for a variable. Where the variable is
the head of an application, the form is applied to the substituted
arguments one after the other, and the result of that stands in place of
the application. Application of forms is a parameter here; what is done
with it is one step of a recursion that is closed elsewhere.

A lambda over the same variable shadows it and is left as it is. A binder
does not shadow: it keeps its own variable, and its arguments are
substituted all the same.
-/
import LogicalForm.Form.Renumber

namespace LogicalForm

namespace Form

/-- How a form is applied to another. -/
abbrev Application := Form → Form → Traced Form

/-- Applies a form to terms one after the other, each typed in the
context `c` when its turn comes. -/
def applyAll (apply : Application) (c : Context) (f : Form) :
    List Term → Traced Form
  | [] => pure f
  | t :: ts => do
    let a ← ofTerm c t
    let g ← apply f a
    applyAll apply c g ts

mutual
/-- The term with the form `arg` substituted for the variable `v`; terms
that `arg` is applied to are typed in the context `c`. -/
def substitute (apply : Application) (c : Context) (v : Var) (arg : Form) :
    Term → Traced Term
  | .atom a => pure (if a = .var v then arg.term else .atom a)
  | .lambda w type body =>
    if w = v then pure (.lambda w type body)
    else do
      let body ← substitute apply c v arg body
      return .lambda w type body
  | .binder op w args => do
    let args ← substituteAll apply c v arg args
    return .binder op w args
  | .app head args => do
    let args ← substituteAll apply c v arg args
    if head = .ofVar v then
      let result ← applyAll apply c arg args
      return result.term
    else
      let head ← substitute apply c v arg head
      return .app head args
/-- The terms with the form `arg` substituted for the variable `v`. -/
def substituteAll (apply : Application) (c : Context) (v : Var) (arg : Form) :
    List Term → Traced (List Term)
  | [] => pure []
  | t :: ts => do
    let t ← substitute apply c v arg t
    let ts ← substituteAll apply c v arg ts
    return t :: ts
end

/-- One step of application. The bound variables of the argument first
move above all variables of both forms. An abstraction then takes an
argument of exactly its declared type, and the argument is substituted in
its body; its own variable leaves the context. An atom or an application
becomes the head of a new application, and a form headed by a binder
takes no argument. -/
def applyStep (apply : Application) (f a : Form) : Traced Form := do
  let arg ← a.renumber (max f.freshIndex a.freshIndex)
  Traced.report (.applying f.term arg.term)
  match f.term with
  | .lambda v type body =>
    if arg.type = type then
      let t ← substitute apply f.context v arg body
      ofTerm ((f.context.eraseVar v).merge arg.context) t
    else throw (.typeMismatch type arg.type f.term a.term)
  | .binder .. => throw (.notApplicable f.term)
  | .atom _ | .app .. =>
    ofTerm (f.context.merge arg.context) (.app f.term [arg.term])

end Form

end LogicalForm
