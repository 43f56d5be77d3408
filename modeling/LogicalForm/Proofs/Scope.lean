/-
Lexical scope over terms: which variables occur free, which binders stand
between a free occurrence and the root, and where a binder hides a
variable that substitution reaches all the same.

# Two readings of a binder

A lambda and a binder both bind lexically, so `freeVars` and `covers`
treat them alike. Substitution does not: it stops at a lambda over its
own variable and goes on under a binder of it. `traps` marks the terms on
which the two readings part, those in which a binder of `v` has `v` free
in its scope. Off that set a term without `v` free has nothing to
substitute.

# What the counts are for

`covers y t` lists the binders that have a free `y` in their scope. A
substitution for `y` captures exactly the free variables of the argument
that are in this list, so a bound on its indices is what keeps capture
out (`Proofs.Hygiene`).
-/
import LogicalForm.Term.Occurrences

namespace LogicalForm

namespace Term

-- ====================================================== occurrences

@[simp] theorem mem_vars_atom {v : Var} {a : Atom} :
    v ∈ (Term.atom a).vars ↔ a = .var v := by
  cases a <;> simp [vars, visits, eq_comm]

@[simp] theorem mem_vars_lambda {v w : Var} {type : Ty} {body : Term} :
    v ∈ (Term.lambda w type body).vars ↔ v = w ∨ v ∈ body.vars := by
  simp [vars, visits]

@[simp] theorem mem_vars_binder {v w : Var} {op : Builtin} {args : List Term} :
    v ∈ (Term.binder op w args).vars ↔ v = w ∨ ∃ t ∈ args, v ∈ t.vars := by
  simp [vars, visits]
  grind

@[simp] theorem mem_vars_app {v : Var} {head : Term} {args : List Term} :
    v ∈ (Term.app head args).vars
      ↔ v ∈ head.vars ∨ ∃ t ∈ args, v ∈ t.vars := by
  simp [vars, visits]
  grind

theorem forall_mem_vars_lambda {P : Var → Prop} {w : Var} {type : Ty}
    {body : Term} :
    (∀ v ∈ (Term.lambda w type body).vars, P v)
      ↔ P w ∧ ∀ v ∈ body.vars, P v := by
  simp only [mem_vars_lambda, forall_eq_or_imp]

theorem forall_mem_vars_binder {P : Var → Prop} {w : Var} {op : Builtin}
    {args : List Term} :
    (∀ v ∈ (Term.binder op w args).vars, P v)
      ↔ P w ∧ ∀ t ∈ args, ∀ v ∈ t.vars, P v := by
  simp only [mem_vars_binder, forall_eq_or_imp]
  grind

theorem forall_mem_vars_app {P : Var → Prop} {head : Term} {args : List Term} :
    (∀ v ∈ (Term.app head args).vars, P v)
      ↔ (∀ v ∈ head.vars, P v) ∧ ∀ t ∈ args, ∀ v ∈ t.vars, P v := by
  simp only [mem_vars_app]
  grind

@[simp] theorem binders_atom (a : Atom) : (Term.atom a).binders = [] := by
  cases a <;> rfl

@[simp] theorem mem_binders_lambda {v w : Var} {type : Ty} {body : Term} :
    v ∈ (Term.lambda w type body).binders ↔ v = w ∨ v ∈ body.binders := by
  simp [binders, visits, Site.binds]

@[simp] theorem mem_binders_binder {v w : Var} {op : Builtin}
    {args : List Term} :
    v ∈ (Term.binder op w args).binders
      ↔ v = w ∨ ∃ t ∈ args, v ∈ t.binders := by
  simp [binders, visits, Site.binds]
  grind

@[simp] theorem mem_binders_app {v : Var} {head : Term} {args : List Term} :
    v ∈ (Term.app head args).binders
      ↔ v ∈ head.binders ∨ ∃ t ∈ args, v ∈ t.binders := by
  simp [binders, visits]
  grind

/-- A bound variable occurs: its binder mentions it. -/
theorem mem_vars_of_mem_binders {v : Var} {t : Term} (h : v ∈ t.binders) :
    v ∈ t.vars := by
  obtain ⟨o, ho, rfl⟩ := List.mem_map.1 h
  exact List.mem_map.2 ⟨o, (List.mem_filter.1 ho).1, rfl⟩

-- =================================================== free variables

mutual
/-- The variables that occur outside the scope of every binder of their
own, in order and with repetitions. -/
def freeVars : Term → List Var
  | .atom (.var v) => [v]
  | .atom _ => []
  | .lambda v _ body => (freeVars body).filter (· ≠ v)
  | .binder _ v args => (freeVarsAll args).filter (· ≠ v)
  | .app head args => freeVars head ++ freeVarsAll args
/-- The free variables of a list of terms. -/
def freeVarsAll : List Term → List Var
  | [] => []
  | t :: ts => freeVars t ++ freeVarsAll ts
end

@[simp] theorem freeVarsAll_eq_flatMap (ts : List Term) :
    freeVarsAll ts = ts.flatMap freeVars := by
  induction ts with
  | nil => rfl
  | cons t ts ih => rw [freeVarsAll, ih, List.flatMap_cons]

@[simp] theorem mem_freeVars_atom {v : Var} {a : Atom} :
    v ∈ (Term.atom a).freeVars ↔ a = .var v := by
  cases a <;> simp [freeVars, eq_comm]

@[simp] theorem mem_freeVars_lambda {v w : Var} {type : Ty} {body : Term} :
    v ∈ (Term.lambda w type body).freeVars ↔ v ∈ body.freeVars ∧ v ≠ w := by
  simp [freeVars]

@[simp] theorem mem_freeVars_binder {v w : Var} {op : Builtin}
    {args : List Term} :
    v ∈ (Term.binder op w args).freeVars
      ↔ (∃ t ∈ args, v ∈ t.freeVars) ∧ v ≠ w := by
  simp [freeVars]

@[simp] theorem mem_freeVars_app {v : Var} {head : Term} {args : List Term} :
    v ∈ (Term.app head args).freeVars
      ↔ v ∈ head.freeVars ∨ ∃ t ∈ args, v ∈ t.freeVars := by
  simp [freeVars]

/-- A free variable is one of the variables of the term. -/
theorem mem_vars_of_mem_freeVars {v : Var} {t : Term} (h : v ∈ t.freeVars) :
    v ∈ t.vars := by
  induction t with
  | atom a => simpa using h
  | lambda w type body ih =>
      rw [mem_freeVars_lambda] at h
      exact mem_vars_lambda.2 (.inr (ih h.1))
  | binder op w args ih =>
      obtain ⟨⟨t, ht, hv⟩, -⟩ := mem_freeVars_binder.1 h
      exact mem_vars_binder.2 (.inr ⟨t, ht, ih t ht hv⟩)
  | app head args ihHead ihArgs =>
      rcases mem_freeVars_app.1 h with hv | ⟨t, ht, hv⟩
      · exact mem_vars_app.2 (.inl (ihHead hv))
      · exact mem_vars_app.2 (.inr ⟨t, ht, ihArgs t ht hv⟩)

/-- No variable occurs free. -/
def Closed (t : Term) : Prop := t.freeVars = []

instance (t : Term) : Decidable t.Closed := inferInstanceAs (Decidable (_ = _))

/-- A term is closed if no variable is free in it. -/
theorem closed_iff {t : Term} : t.Closed ↔ ∀ v, v ∉ t.freeVars :=
  List.eq_nil_iff_forall_not_mem

-- ================================================== covering binders

mutual
/-- The binders that have `y` free in their scope. -/
def covers (y : Var) : Term → List Var
  | .atom _ => []
  | .lambda w _ body =>
    if w ≠ y ∧ y ∈ freeVars body then w :: covers y body else []
  | .binder _ w args =>
    if w ≠ y ∧ y ∈ freeVarsAll args then w :: coversAll y args else []
  | .app head args => covers y head ++ coversAll y args
/-- The covering binders in a list of terms. -/
def coversAll (y : Var) : List Term → List Var
  | [] => []
  | t :: ts => covers y t ++ coversAll y ts
end

@[simp] theorem coversAll_eq_flatMap (y : Var) (ts : List Term) :
    coversAll y ts = ts.flatMap (covers y) := by
  induction ts with
  | nil => rfl
  | cons t ts ih => rw [coversAll, ih, List.flatMap_cons]

@[simp] theorem covers_atom (y : Var) (a : Atom) :
    (Term.atom a).covers y = [] := rfl

/-- A lambda covers a variable that is free below it, and so do the covers
in its body. -/
@[simp] theorem mem_covers_lambda {x y w : Var} {type : Ty} {body : Term} :
    x ∈ (Term.lambda w type body).covers y
      ↔ (w ≠ y ∧ y ∈ body.freeVars) ∧ (x = w ∨ x ∈ body.covers y) := by
  rw [covers]
  split
  · rename_i h
    simp [h]
  · rename_i h
    simp only [List.not_mem_nil, false_iff]
    exact fun hx => h hx.1

@[simp] theorem mem_covers_binder {x y w : Var} {op : Builtin}
    {args : List Term} :
    x ∈ (Term.binder op w args).covers y
      ↔ (w ≠ y ∧ ∃ t ∈ args, y ∈ t.freeVars)
        ∧ (x = w ∨ ∃ t ∈ args, x ∈ t.covers y) := by
  rw [covers, freeVarsAll_eq_flatMap, coversAll_eq_flatMap]
  split
  · rename_i h
    rw [List.mem_flatMap] at h
    simp [h]
  · rename_i h
    rw [List.mem_flatMap] at h
    simp only [List.not_mem_nil, false_iff]
    exact fun hx => h hx.1

@[simp] theorem mem_covers_app {x y : Var} {head : Term} {args : List Term} :
    x ∈ (Term.app head args).covers y
      ↔ x ∈ head.covers y ∨ ∃ t ∈ args, x ∈ t.covers y := by
  simp [covers]

/-- Only what occurs free is covered. -/
theorem mem_freeVars_of_mem_covers {x y : Var} {t : Term}
    (h : x ∈ t.covers y) : y ∈ t.freeVars := by
  induction t with
  | atom a => simp at h
  | lambda w type body ih =>
      obtain ⟨⟨hw, hy⟩, -⟩ := mem_covers_lambda.1 h
      exact mem_freeVars_lambda.2 ⟨hy, Ne.symm hw⟩
  | binder op w args ih =>
      obtain ⟨⟨hw, hy⟩, -⟩ := mem_covers_binder.1 h
      exact mem_freeVars_binder.2 ⟨hy, Ne.symm hw⟩
  | app head args ihHead ihArgs =>
      rcases mem_covers_app.1 h with hx | ⟨t, ht, hx⟩
      · exact mem_freeVars_app.2 (.inl (ihHead hx))
      · exact mem_freeVars_app.2 (.inr ⟨t, ht, ihArgs t ht hx⟩)

/-- What covers is a binder of the term. -/
theorem mem_binders_of_mem_covers {x y : Var} {t : Term}
    (h : x ∈ t.covers y) : x ∈ t.binders := by
  induction t with
  | atom a => simp at h
  | lambda w type body ih =>
      obtain ⟨-, rfl | hx⟩ := mem_covers_lambda.1 h
      · exact mem_binders_lambda.2 (.inl rfl)
      · exact mem_binders_lambda.2 (.inr (ih hx))
  | binder op w args ih =>
      obtain ⟨-, rfl | ⟨t, ht, hx⟩⟩ := mem_covers_binder.1 h
      · exact mem_binders_binder.2 (.inl rfl)
      · exact mem_binders_binder.2 (.inr ⟨t, ht, ih t ht hx⟩)
  | app head args ihHead ihArgs =>
      rcases mem_covers_app.1 h with hx | ⟨t, ht, hx⟩
      · exact mem_binders_app.2 (.inl (ihHead hx))
      · exact mem_binders_app.2 (.inr ⟨t, ht, ihArgs t ht hx⟩)

-- ====================================================== trapped scopes

mutual
/-- Somewhere outside the lambdas over `v`, a binder of `v` has `v` free
in its scope. -/
def traps (v : Var) : Term → Bool
  | .atom _ => false
  | .lambda w _ body => w ≠ v && traps v body
  | .binder _ w args =>
    (w = v && (freeVarsAll args).contains v) || trapsAny v args
  | .app head args => traps v head || trapsAny v args
/-- Some term of the list traps the variable. -/
def trapsAny (v : Var) : List Term → Bool
  | [] => false
  | t :: ts => traps v t || trapsAny v ts
end

@[simp] theorem trapsAny_eq_any (v : Var) (ts : List Term) :
    trapsAny v ts = ts.any (traps v) := by
  induction ts with
  | nil => rfl
  | cons t ts ih => rw [trapsAny, ih, List.any_cons]

/-- Below a lambda over the variable itself, nothing counts as a trap. -/
theorem traps_lambda_eq_false {v w : Var} {type : Ty} {body : Term} :
    (Term.lambda w type body).traps v = false
      ↔ (w ≠ v → body.traps v = false) := by
  rw [traps]
  by_cases h : w = v <;> simp [h]

/-- A binder of the variable is a trap if it has the variable free in its
scope. -/
theorem traps_binder_eq_false {v w : Var} {op : Builtin} {args : List Term} :
    (Term.binder op w args).traps v = false
      ↔ (w = v → ∀ t ∈ args, v ∉ t.freeVars)
        ∧ ∀ t ∈ args, t.traps v = false := by
  rw [traps, freeVarsAll_eq_flatMap, trapsAny_eq_any]
  by_cases h : w = v <;> simp [h]

theorem traps_app_eq_false {v : Var} {head : Term} {args : List Term} :
    (Term.app head args).traps v = false
      ↔ head.traps v = false ∧ ∀ t ∈ args, t.traps v = false := by
  rw [traps, trapsAny_eq_any]
  simp

end Term

end LogicalForm
