/-
Forms: terms with their types. A form holds a term, a context that speaks
of exactly its variables and is unchanged by registering the term again,
and the type that the context gives the term. Every index in it is below
the largest one, so there is always a variable that does not occur in it
(`freshVar_not_mem_vars`).

A form is built by registering and inferring (`Form.ofTerm`). Doing so
again gives the same form (`result_ofTerm_self`).
-/
import LogicalForm.Term.Reader
import LogicalForm.Typing.Inference
import LogicalForm.Typing.Registration

namespace LogicalForm

/-- A typed term with its context. -/
structure Form where
  term : Term
  context : Context
  type : Ty
  registered : context.register term = context
  typed : context.infer term = .ok type
  inRange : term.freshIndex ≤ Var.maxIndex

namespace Form

/-- A form is determined by its term and its context. -/
theorem ext_term {f g : Form} (ht : f.term = g.term)
    (hc : f.context = g.context) : f = g := by
  obtain ⟨t, c, ty, _, hty, _⟩ := f
  obtain ⟨t', c', ty', _, hty', _⟩ := g
  cases ht
  cases hc
  have h : ty = ty' := Except.ok.inj (hty.symm.trans hty')
  cases h
  rfl

instance : DecidableEq Form := fun f g =>
  if h : f.term = g.term ∧ f.context = g.context then
    isTrue (ext_term h.1 h.2)
  else isFalse fun e => h ⟨congrArg term e, congrArg context e⟩

-- ============================================================= building

/-- Types a term: registers its variables from the context, infers its
type, and makes sure that an index is left above them. -/
def ofTerm (c : Context) (t : Term) : Traced Form := do
  Traced.reportAll ((c.unclassified t).map fun v => .unclassified v t)
  match h : (c.register t).infer t with
  | .error e => throw e
  | .ok type =>
    if hr : t.freshIndex ≤ Var.maxIndex then
      return ⟨t, c.register t, type, c.register_register t, h, hr⟩
    else throw (.variableOverflow ⟨t.freshIndex - 1⟩ 1)

/-- Reads and types a text. -/
def parse (c : Context) (text : String) : Traced Form := do
  let t ← Term.parse text
  ofTerm c t

-- ================================================================ views

/-- The first index above all variables of the form. -/
def freshIndex (f : Form) : Nat := f.term.freshIndex

/-- The first variable above all variables of the form. -/
def freshVar (f : Form) : Var := ⟨f.freshIndex⟩

/-- The variables that the form binds somewhere, ascending. -/
def boundVars (f : Form) : List Var := f.term.boundVars

/-- The form is an abstraction. -/
def isLambda (f : Form) : Bool := f.term.isLambda

/-- The form is an atom. -/
def isAtom (f : Form) : Bool := f.term.isAtom

/-- The display of a form is that of its term. -/
def render (m : Marker) (f : Form) : String := f.term.render m

/-- Every index of a form is below the largest possible one. -/
theorem index_lt (f : Form) : ∀ v ∈ f.term.vars, v.index < Var.maxIndex :=
  Term.freshIndex_le_iff.1 f.inRange

/-- No variable of the term reaches the fresh index. -/
theorem index_lt_freshIndex {f : Form} {v : Var} (h : v ∈ f.term.vars) :
    v.index < f.freshIndex :=
  Term.freshIndex_le_iff.1 (Nat.le_refl f.term.freshIndex) v h

/-- The fresh variable is new to the term. -/
theorem freshVar_not_mem_vars (f : Form) : f.freshVar ∉ f.term.vars := by
  intro h
  exact Nat.lt_irrefl _ (index_lt_freshIndex h)

/-- The context of a form speaks of exactly the variables of its term. -/
theorem isSome_var? {f : Form} {v : Var} :
    (f.context.var? v).isSome ↔ v ∈ f.term.vars := by
  have hiff := Context.isSome_var?_register (c := f.context) (t := f.term)
    (v := v)
  rwa [f.registered] at hiff

/-- The context says nothing of a variable that the term does not mention.
-/
theorem var?_eq_none {f : Form} {v : Var} (h : v ∉ f.term.vars) :
    f.context.var? v = none := by
  rw [← Option.not_isSome_iff_eq_none, isSome_var?]
  exact h

/-- The variables of the context are exactly those of the term. -/
theorem mem_keys_iff {f : Form} {v : Var} :
    v ∈ f.context.vars.keys ↔ v ∈ f.term.vars :=
  Table.mem_keys_iff.trans isSome_var?

-- ============================================================ retyping

/-- A form is built if its term has a type under its own variables and an
index is left above them. -/
theorem result_ofTerm (c : Context) (t : Term) :
    (ofTerm c t).result
      = match h : (c.register t).infer t with
        | .error e => .error e
        | .ok type =>
          if hr : t.freshIndex ≤ Var.maxIndex then
            .ok ⟨t, c.register t, type, c.register_register t, h, hr⟩
          else .error (.variableOverflow ⟨t.freshIndex - 1⟩ 1) := by
  rw [ofTerm, Traced.result_bind, Traced.result_reportAll]
  show (match h : (c.register t).infer t with | .error e => _ | .ok type => _ :
    Traced Form).result = _
  split
  · rfl
  · split <;> rfl

/-- A term whose type is inferred makes a form if an index is left above
its variables. -/
theorem result_ofTerm_of_infer {c : Context} {t : Term} {τ : Ty}
    (h : (c.register t).infer t = .ok τ) :
    (ofTerm c t).result
      = if hr : t.freshIndex ≤ Var.maxIndex then
          .ok ⟨t, c.register t, τ, c.register_register t, h, hr⟩
        else .error (.variableOverflow ⟨t.freshIndex - 1⟩ 1) := by
  rw [result_ofTerm]
  split
  · rename_i e he
    rw [h] at he
    cases he
  · rename_i type htype
    cases Except.ok.inj (h.symm.trans htype)
    rfl

/-- What building a form from a term succeeds with. -/
theorem result_ofTerm_eq_ok {c : Context} {t : Term} {f : Form}
    (h : (ofTerm c t).result = .ok f) :
    f.term = t ∧ f.context = c.register t := by
  rw [result_ofTerm] at h
  split at h
  · cases h
  · split at h
    · cases h
      exact ⟨rfl, rfl⟩
    · cases h

/-- Typing the term of a form in its own context gives the form back. -/
theorem result_ofTerm_self (f : Form) :
    (ofTerm f.context f.term).result = .ok f := by
  have htyped : (f.context.register f.term).infer f.term = .ok f.type := by
    rw [f.registered]
    exact f.typed
  rw [result_ofTerm_of_infer htyped, dif_pos f.inRange]
  exact congrArg Except.ok (ext_term rfl f.registered)

end Form

end LogicalForm
