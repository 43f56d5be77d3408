/-
When an application is bound to succeed. `FullyTyped` says of a form that
it is typed throughout and that no index serves two of its variables,
`Apart` of two forms that neither binds an index of the other. An
abstraction whose parameter has the type of such an argument is then
applied to it without failing, if its parameter heads no application or if
the run is `Orderly`.

# The context of the run

`Progress` asks for one context that types all that comes up. If there are
no calls, it is that of both operands, the argument moved
(`runsIn_of_plain`): the free variables of the operands have their types
from the context that both were built in. Otherwise it is put together from
all types in the run (`runsIn_of_orderly`).

Main statement: `typed_application_succeeds`. That covering is needed is
`nested_use_loses_type`, a clear run of closed forms in which no index has
two types.
-/
import LogicalForm.Proofs.Progress

namespace LogicalForm

namespace Form

open Traced (Safe)

-- ============================================================= operands

/-- The form is typed throughout, and no index is bound twice in it or
both bound and free. -/
structure FullyTyped (g : Form) : Prop where
  typed : g.context.fullType? g.term = some g.type
  once : g.term.binders.Nodup
  split : ∀ x ∈ g.term.binders, x ∉ g.term.freeVars

instance (g : Form) : Decidable g.FullyTyped :=
  decidable_of_iff
    (g.context.fullType? g.term = some g.type ∧ g.term.binders.Nodup
      ∧ ∀ x ∈ g.term.binders, x ∉ g.term.freeVars)
    ⟨fun h => ⟨h.1, h.2.1, h.2.2⟩, fun h => ⟨h.1, h.2, h.3⟩⟩

/-- The forms bind no index in common, and neither binds a free variable
of the other. -/
structure Apart (f a : Form) : Prop where
  bound : ∀ x ∈ f.term.binders, x ∉ a.term.binders
  left : ∀ x ∈ f.term.freeVars, x ∉ a.term.binders
  right : ∀ x ∈ a.term.freeVars, x ∉ f.term.binders

instance (f a : Form) : Decidable (Apart f a) :=
  decidable_of_iff
    ((∀ x ∈ f.term.binders, x ∉ a.term.binders)
      ∧ (∀ x ∈ f.term.freeVars, x ∉ a.term.binders)
      ∧ ∀ x ∈ a.term.freeVars, x ∉ f.term.binders)
    ⟨fun h => ⟨h.1, h.2.1, h.2.2⟩, fun h => ⟨h.1, h.2, h.3⟩⟩

/-- Every variable of a fully typed form has a known type. -/
theorem FullyTyped.known?_var {g : Form} (h : g.FullyTyped) {v : Var}
    (hv : v ∈ g.term.vars) : ∃ σ, g.context.known? v = some σ :=
  Context.known?_of_fullType? h.typed hv

/-- A free variable has its type from the context in which the form was
built. -/
theorem FullyTyped.known?_of_mem_freeVars {c : Context} {g : Form}
    (h : g.FullyTyped) (hg : g.context = c.register g.term) {v : Var}
    (hv : v ∈ g.term.freeVars) : g.context.var? v = c.known? v := by
  obtain ⟨σ, hσ⟩ := h.known?_var (Term.mem_vars_of_mem_freeVars hv)
  rw [(Context.known?_eq_some.1 hσ).1]
  rw [hg] at hσ
  rcases Context.known?_register hσ with hc | hdecl
  · exact hc.symm
  · exact absurd hv (h.split v (Term.mem_binders_iff.2 ⟨σ, hdecl⟩))

-- ======================================================== orderly runs

/-- The given variables, with the types that the context of the form has
for them. -/
def typings (g : Form) (vs : List Var) : List (Var × Ty) :=
  vs.filterMap fun v => (g.context.var? v).map fun type => (v, type)

/-- A given variable counts with the type that the context has for it. -/
theorem mem_typings {g : Form} {vs : List Var} {v : Var} {type : Ty}
    (hv : v ∈ vs) (h : g.context.var? v = some type) :
    (v, type) ∈ g.typings vs :=
  List.mem_filterMap.2 ⟨v, hv, by rw [h]; rfl⟩

/-- The types of the variables of the function and of the free variables
of the argument, and those at which the run binds variables. -/
def runTypes (f a : Form) : List (Var × Ty) :=
  f.typings f.term.vars ++ a.typings a.term.freeVars ++ runDeclarations f a

/-- No index has two types while `f` is applied to `a`. -/
def OneTyped (f a : Form) : Prop :=
  ∀ p ∈ runTypes f a, ∀ q ∈ runTypes f a, p.1 = q.1 → p.2 = q.2

instance (f a : Form) : Decidable (OneTyped f a) :=
  inferInstanceAs (Decidable (∀ p ∈ runTypes f a,
    ∀ q ∈ runTypes f a, p.1 = q.1 → p.2 = q.2))

/-- No index is misread in the run, nested parameters are covered, and no
index has two types. -/
structure Orderly (f a : Form) : Prop where
  clear : ClearRun f a
  covered : CoveredRun f a
  oneTyped : OneTyped f a

instance (f a : Form) : Decidable (Orderly f a) :=
  decidable_of_iff (ClearRun f a ∧ CoveredRun f a ∧ OneTyped f a)
    ⟨fun h => ⟨h.1, h.2.1, h.2.2⟩, fun h => ⟨h.1, h.2, h.3⟩⟩

/-- The context of all types in the run. -/
def runContext (f a : Form) : Context :=
  ⟨.ofList (runTypes f a), f.context.symbols⟩

/-- The context of a run has every variable at the one type that it has in
the run. -/
theorem var?_runContext {f a : Form} (h : OneTyped f a) {p : Var × Ty}
    (hp : p ∈ runTypes f a) : (runContext f a).var? p.1 = some p.2 := by
  show (Table.ofList (runTypes f a)).find? p.1 = some p.2
  rw [Table.find?_ofList]
  exact lookup_of_uniform h hp

/-- A plain form applies its parameter to nothing, so it nests nothing in
it. -/
theorem Plain.nestsParameter {f : Form} (h : f.Plain) :
    f.term.nestsParameter = false := by
  cases hterm : f.term with
  | lambda v type body =>
      rw [Term.nestsParameter, Bool.eq_false_iff]
      intro hnests
      have hheads := h v type body hterm
      rw [Term.heads_of_nests hnests] at hheads
      cases hheads
  | _ => rfl

section

variable {f a : Form} (hf : f.FullyTyped) (ha : a.FullyTyped)
  (hsymbols : a.context.symbols = f.context.symbols)

include hf ha hsymbols

/-- An orderly run has a context that types all of it. -/
theorem runsIn_of_orderly (h : Orderly f a) :
    ∃ d, Settled d f ∧ Movable d a ∧ RunsIn d f a := by
  have hvar := fun p hp => var?_runContext h.oneTyped (p := p) hp
  refine ⟨runContext f a, .of_fullType? rfl ?_ hf.typed,
    ⟨hsymbols, ?_, ha.typed⟩, h.clear, h.covered, ?_⟩
  · intro v hv
    obtain ⟨σ, hσ⟩ := hf.known?_var hv
    have hσv := (Context.known?_eq_some.1 hσ).1
    rw [hσv]
    refine (hvar (v, σ) ?_).symm
    exact List.mem_append_left _ (List.mem_append_left _ (mem_typings hv hσv))
  · intro v hv hbound
    obtain ⟨σ, hσ⟩ := ha.known?_var hv
    have hσv := (Context.known?_eq_some.1 hσ).1
    have hfree := Term.mem_freeVars_of_not_mem_binders hv hbound
    rw [hσv]
    refine (hvar (v, σ) ?_).symm
    exact List.mem_append_left _ (List.mem_append_right _ (mem_typings hfree hσv))
  · exact moves_of_runDeclarations fun p hp =>
      hvar p (List.mem_append_right _ hp)

/-- Where the parameter heads nothing, the contexts of both operands
together type the run. -/
theorem runsIn_of_plain {c : Context} (hfc : f.context = c.register f.term)
    (hac : a.context = c.register a.term) (hapart : Apart f a)
    (hplain : f.Plain) :
    ∃ d, Settled d f ∧ Movable d a ∧ RunsIn d f a := by
  have hsame : (f.context.merge (movedContext f a)).symbols
      = f.context.symbols := Context.symbols_merge hsymbols
  refine ⟨f.context.merge (movedContext f a), .of_fullType? hsame.symm ?_ hf.typed,
    ⟨hsymbols.trans hsame.symm, ?_, ha.typed⟩, ?_, ?_, ?_⟩
  · intro v hv
    obtain ⟨σ, hσ⟩ := hf.known?_var hv
    rw [Context.var?_merge_of_known? hσ, (Context.known?_eq_some.1 hσ).1]
  · intro v hv hbound
    have hfree := Term.mem_freeVars_of_not_mem_binders hv hbound
    have hmoved := var?_movedContext (f := f) hv
    rw [relocate_of_not_mem hbound] at hmoved
    by_cases hfv : v ∈ f.term.vars
    · -- both have it free, so both have it from where they were built
      have hfreef := Term.mem_freeVars_of_not_mem_binders hfv (hapart.right v hfree)
      obtain ⟨σ, hσ⟩ := hf.known?_var hfv
      rw [Context.var?_merge_of_known? hσ, ha.known?_of_mem_freeVars hac hfree,
        ← hf.known?_of_mem_freeVars hfc hfreef, (Context.known?_eq_some.1 hσ).1]
    · rw [Context.var?_merge_of_none (var?_eq_none hfv), hmoved]
  · exact clearRun_of_plain hplain (Term.spread_of_nodup hf.once) ha.split
  · intro p hp hnests
    cases hp with
    | nested hp _ => exact absurd hp hplain.not_mem_calls
    | itself =>
        rw [hplain.nestsParameter] at hnests
        cases hnests
  · intro p hp arg harg q hq
    cases hp with
    | nested hp _ => exact absurd hp hplain.not_mem_calls
    | itself =>
        have hle : offset f a ≤ q.1.index :=
          le_index_of_mem_binders_moved harg (Term.mem_binders_iff.2 ⟨q.2, hq⟩)
        have hnot : q.1 ∉ f.term.vars := by
          intro hmem
          have hlt := index_lt_offset_left (a := a) hmem
          omega
        have htyped : (movedContext f a).fullType? arg.term = some a.type := by
          rw [term_moved harg]
          exact fullType?_movedContext ha.typed
        rw [Context.var?_merge_of_none (var?_eq_none hnot)]
        exact Context.agreesWith_of_fullType? htyped q hq

end

-- ========================================================= main theorem

/-- An abstraction applied to an argument of the type of its parameter,
both typed throughout, built in one context and apart, gives a form of its
codomain or runs out of indices. The parameter heads no application, or
the run is orderly. -/
theorem typed_application_succeeds {c : Context} {s t : Term} {f a : Form}
    {v : Var} {type : Ty} {body : Term} (hf : (ofTerm c s).result = .ok f)
    (ha : (ofTerm c t).result = .ok a) (hftyped : f.FullyTyped)
    (hatyped : a.FullyTyped) (hapart : Apart f a)
    (hterm : f.term = .lambda v type body) (htype : a.type = type)
    (hsafe : f.Plain ∨ Orderly f a) :
    (∃ r, (apply f a).result = .ok r ∧ f.type = .func type r.type)
      ∨ ∃ w n, (apply f a).result = .error (.variableOverflow w n) := by
  have hfc := context_ofTerm hf
  have hac := context_ofTerm ha
  have hsymbols : a.context.symbols = f.context.symbols := by
    rw [hfc, hac]
    rfl
  have hrun : ∃ d, Settled d f ∧ Movable d a ∧ RunsIn d f a := by
    rcases hsafe with hplain | horderly
    · exact runsIn_of_plain hftyped hatyped hsymbols hfc hac hapart hplain
    · exact runsIn_of_orderly hftyped hatyped hsymbols horderly
  obtain ⟨d, hfd, had, hrun⟩ := hrun
  obtain ⟨κ, hκ⟩ : ∃ κ, f.type = .func type κ := by
    have htyped := hftyped.typed
    rw [hterm] at htyped
    obtain ⟨-, κ, -, hκ⟩ := Context.fullType?_lambda_eq_some.1 htyped
    exact ⟨κ, hκ.symm⟩
  rcases progresses_of_runsIn hrun hfd had κ (htype ▸ hκ) with
    ⟨r, hr, -, hrtype⟩ | hover
  · exact .inl ⟨r, hr, hrtype ▸ hκ⟩
  · exact .inr hover

/-- The argument uses its own parameter within itself and has a free
variable, which the context knows and the function has as well. -/
theorem nested_application_succeeds :
    ∃ s, (Term.parse "(lambda $0 <<e,e>,e> ($0 (lambda $5 e (h:e $5 $3))))").result
        = .ok s
      ∧ ∃ t, (Term.parse "(lambda $1 <e,e> ($1 ($1 $3)))").result = .ok t
      ∧ ∃ f, (ofTerm (Context.empty.insertVar ⟨3⟩ .entity) s).result = .ok f
      ∧ ∃ a, (ofTerm (Context.empty.insertVar ⟨3⟩ .entity) t).result = .ok a
      ∧ ((∃ r, (apply f a).result = .ok r
          ∧ f.type = .func (.func (.func .entity .entity) .entity) r.type)
        ∨ ∃ w n, (apply f a).result = .error (.variableOverflow w n)) := by
  have hrun : ∃ s, (Term.parse
          "(lambda $0 <<e,e>,e> ($0 (lambda $5 e (h:e $5 $3))))").result = .ok s
      ∧ ∃ t, (Term.parse "(lambda $1 <e,e> ($1 ($1 $3)))").result = .ok t
      ∧ ∃ f, (ofTerm (Context.empty.insertVar ⟨3⟩ .entity) s).result = .ok f
      ∧ ∃ a, (ofTerm (Context.empty.insertVar ⟨3⟩ .entity) t).result = .ok a
      ∧ f.FullyTyped ∧ a.FullyTyped ∧ Apart f a
      ∧ f.term = .lambda ⟨0⟩ (.func (.func .entity .entity) .entity)
          (.app (.ofVar ⟨0⟩) [.lambda ⟨5⟩ .entity
            (.app (.atom (.const "h:e" (some .entity)))
              [.ofVar ⟨5⟩, .ofVar ⟨3⟩])])
      ∧ a.type = .func (.func .entity .entity) .entity ∧ Orderly f a := by
    decide +kernel
  obtain ⟨s, hs, t, ht, f, hf, a, ha, hftyped, hatyped, hapart, hterm, htype,
    horderly⟩ := hrun
  exact ⟨s, hs, t, ht, f, hf, a, ha,
    typed_application_succeeds hf ha hftyped hatyped hapart hterm htype
      (.inr horderly)⟩

/-- The argument uses its parameter within itself, and what replaces it has
a variable of the function: the inner application is typed in the context
of the argument, which does not have that variable. -/
theorem nested_use_loses_type :
    ∃ f, (parse .empty
          "(lambda $0 <<e,e>,e> (lambda $5 <e,e> ($0 $5)))").result = .ok f
      ∧ ∃ a, (parse .empty "(lambda $1 <e,e> ($1 ($1 k:e)))").result = .ok a
      ∧ f.term.isLambda = true ∧ a.term.isLambda = true
      ∧ f.FullyTyped ∧ a.FullyTyped ∧ Apart f a
      ∧ f.type = .func a.type (.func (.func .entity .entity) .entity)
      ∧ ClearRun f a ∧ OneTyped f a
      ∧ (apply f a).result = .error (.unknownType (.ofVar ⟨5⟩)) := by
  decide +kernel

end Form

end LogicalForm
