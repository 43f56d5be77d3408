/-
The types of the variables of a term. The first occurrence of a variable
decides its type: a context that knows the variable wins, then the type
that a lambda states, and a binder makes its variable an entity. A
variable that none of these classify gets the unknown type, which the
context can never force, since a variable that it holds unknown counts as
not known to it.

Registering a term twice is the same as registering it once
(`register_register`), so a registered context may serve again as the
context to register from.
-/
import LogicalForm.Context.Basic
import LogicalForm.Term.Occurrences

namespace LogicalForm

-- ======================================================= classification

/-- The type that a site gives to the variable that occurs there. -/
def Site.type : Site → Ty
  | lambda type => type
  | binder => .entity
  | atom => .unknown

namespace Context

/-- The type of a variable, where the context knows it. -/
def known? (c : Context) (v : Var) : Option Ty :=
  match c.var? v with
  | some .unknown => none
  | type? => type?

/-- The type of a variable by its first occurrence: what the context
knows, else what the site gives. -/
def classify (c : Context) (o : Visit) : Ty := (c.known? o.var).getD o.site.type

/-- The context of exactly the variables of the term, each classified by
its first occurrence, with the symbols of `c`. -/
def register (c : Context) (t : Term) : Context :=
  ⟨.ofList (t.visits.map fun o => (o.var, c.classify o)), c.symbols⟩

end Context

namespace Visit

/-- The first occurrences of the variables, in order. -/
def firsts : List Visit → List Visit
  | [] => []
  | o :: os => o :: (firsts os).filter (·.var ≠ o.var)

end Visit

/-- The variables of the term that nothing classifies: unknown to the
context, and occurring first as an atom. -/
def Context.unclassified (c : Context) (t : Term) : List Var :=
  ((Visit.firsts t.visits).filter fun o =>
    o.site = .atom && (c.known? o.var).isNone).map Visit.var

-- ============================================================= look-ups

namespace Context

@[simp] theorem symbols_register (c : Context) (t : Term) :
    (c.register t).symbols = c.symbols := rfl

/-- A registered context classifies each variable by its first visit. -/
theorem var?_register (c : Context) (t : Term) (v : Var) :
    (c.register t).var? v
      = (t.visits.find? fun o => o.var = v).map c.classify := by
  show (Table.ofList _).find? v = _
  rw [Table.find?_ofList]
  induction t.visits with
  | nil => rfl
  | cons o os ih =>
    rw [List.map_cons, Entries.lookup_cons_eq, ih, List.find?_cons]
    by_cases h : v = o.var
    · simp [h]
    · have hne : o.var ≠ v := fun e => h e.symm
      simp [h, hne]

/-- A registered context speaks of exactly the variables of the term. -/
theorem isSome_var?_register {c : Context} {t : Term} {v : Var} :
    ((c.register t).var? v).isSome ↔ v ∈ t.vars := by
  rw [var?_register, Option.isSome_map, List.find?_isSome]
  simp [Term.vars]

theorem known?_of_unknown {c : Context} {v : Var}
    (h : c.var? v = some .unknown) : c.known? v = none := by
  simp only [known?, h]

theorem known?_of_ne {c : Context} {v : Var} {type : Ty}
    (h : c.var? v = some type) (ht : type ≠ .unknown) :
    c.known? v = some type := by
  rw [known?, h]
  split
  · rename_i e
    exact absurd (Option.some.inj e) ht
  · rfl

theorem ne_unknown_of_known? {c : Context} {v : Var} {type : Ty}
    (h : c.known? v = some type) : type ≠ .unknown := by
  rintro rfl
  rw [known?] at h
  split at h
  · cases h
  · rename_i hne
    exact hne h

/-- After registration the first occurrence of a variable is classified as
it was before. -/
theorem classify_register {c : Context} {t : Term} {v : Var} {o : Visit}
    (h : t.visits.find? (fun o => o.var = v) = some o) :
    (c.register t).classify o = c.classify o := by
  have hv : o.var = v := Term.var_of_find? h
  have hvar : (c.register t).var? o.var = some (c.classify o) := by
    rw [hv, var?_register, h]
    rfl
  by_cases hu : c.classify o = .unknown
  · rw [classify, known?_of_unknown (hu ▸ hvar), hu]
    rw [classify] at hu
    cases hk : c.known? o.var with
    | none =>
      rw [hk] at hu
      exact hu
    | some type =>
      rw [hk] at hu
      exact absurd hu (ne_unknown_of_known? hk)
  · rw [classify, known?_of_ne hvar hu]
    rfl

/-- Registering again changes nothing. -/
theorem register_register (c : Context) (t : Term) :
    (c.register t).register t = c.register t := by
  refine ext_lookups (fun v => ?_) fun _ => rfl
  rw [var?_register, var?_register]
  cases h : t.visits.find? fun o => o.var = v with
  | none => rfl
  | some o => exact congrArg some (classify_register h)

end Context

end LogicalForm
