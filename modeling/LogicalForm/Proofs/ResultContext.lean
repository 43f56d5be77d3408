/-
What the context of a result says. Application types its result in the
context of the function, with the parameter taken out, completed by the
context of the moved argument (`context_apply`). Composition types its
result in the context of the first form, completed by that of the
application which it makes of the second form to the body of the first.

# Symbols

The first form wins and the second completes it, in both operations. In a
composition the application inside merges the other way round, with the
second form before the first, but the entries of the first form are put
on top once more (`symbol?_compose`).

# Variables

Registration leaves an entry for each variable that occurs in the result
and for no other. It asks the merged context first, so a known type of the
function stays, and where the function says nothing a known type of the
argument does (`var?_apply_of_function`, `var?_apply_of_argument`). An
entry without a known type says nothing to registration, but it is an
entry: it keeps that of the argument out.
-/
import LogicalForm.Proofs.TypePreservation

namespace LogicalForm

/-- The variable of an abstraction. -/
def Term.parameter? : Term → Option Var
  | .lambda v _ _ => some v
  | _ => none

/-- Only an abstraction has a parameter. -/
theorem Term.parameter?_eq_none {t : Term} (h : t.isLambda = false) :
    t.parameter? = none := by
  cases t with
  | lambda v type body => cases h
  | _ => rfl

namespace Form

variable {f a arg r : Form}

-- ============================================================== symbols

/-- The move of an argument leaves its symbols as they are. -/
theorem symbols_moved (h : (moved f a).result = .ok arg) :
    arg.context.symbols = a.context.symbols := by
  rw [context_moved h]
  rfl

/-- The context of a function outside of its abstraction. -/
def outerContext (f : Form) : Context :=
  match f.term.parameter? with
  | some v => f.context.eraseVar v
  | none => f.context

/-- The parameter is a variable, so the outer context has all symbols. -/
theorem symbols_outerContext (f : Form) :
    f.outerContext.symbols = f.context.symbols := by
  unfold outerContext
  split <;> rfl

/-- The outer context has all variables but the parameter. -/
theorem var?_outerContext (f : Form) (v : Var) :
    f.outerContext.var? v
      = if f.term.parameter? = some v then none else f.context.var? v := by
  unfold outerContext
  cases f.term.parameter? with
  | none => rfl
  | some w =>
      rw [Context.var?_eraseVar]
      by_cases h : v = w
      · rw [if_pos h, if_pos (congrArg some h.symm)]
      · rw [if_neg h, if_neg fun hw => h (Option.some.inj hw).symm]

/-- The context that types the result of an application. -/
theorem context_apply (harg : (moved f a).result = .ok arg)
    (hr : (apply f a).result = .ok r) :
    r.context = (f.outerContext.merge arg.context).register r.term := by
  obtain ⟨arg', harg', hcases⟩ := apply_eq_ok hr
  cases Except.ok.inj (harg.symm.trans harg')
  unfold outerContext
  rcases hcases with ⟨v, type, body, t, hterm, -, -, h⟩ | ⟨hlam, h⟩
  · rw [hterm]
    exact context_ofTerm h
  · rw [Term.parameter?_eq_none hlam]
    exact context_ofTerm h

/-- The symbols of the function win over those of the argument. -/
theorem symbol?_apply (hr : (apply f a).result = .ok r) (name : String) :
    r.context.symbol? name
      = (f.context.symbol? name).or (a.context.symbol? name) := by
  obtain ⟨arg, harg, -⟩ := apply_eq_ok hr
  have hmerged : r.context.symbol? name
      = (f.outerContext.merge arg.context).symbol? name := by
    rw [context_apply harg hr]
    rfl
  rw [hmerged, Context.symbol?_merge,
    Context.symbol?_congr (symbols_outerContext f),
    Context.symbol?_congr (symbols_moved harg)]

/-- The symbols of the first form win over those of the second. -/
theorem symbol?_compose (hr : (compose f a).result = .ok r) (name : String) :
    r.context.symbol? name
      = (f.context.symbol? name).or (a.context.symbol? name) := by
  obtain ⟨v, type, body, inner, outer, s, -, hinner, houter, hs, hr⟩ :=
    compose_steps hr
  have hin : inner.context.symbol? name = f.context.symbol? name := by
    rw [(result_ofTerm_eq_ok hinner).2]
    rfl
  have hout : outer.context.symbol? name = a.context.symbol? name :=
    Context.symbol?_congr (symbols_moved houter) name
  have hmerged : r.context.symbol? name
      = (f.context.merge s.context).symbol? name := by
    rw [(result_ofTerm_eq_ok hr).2]
    rfl
  rw [hmerged, Context.symbol?_merge, symbol?_apply hs, hin, hout]
  -- `f` is asked again after the second form, when it has no answer
  cases f.context.symbol? name with
  | some type => rfl
  | none => rw [Option.none_or, Option.none_or, Option.or_none]

-- ============================================================ variables

/-- A known type that the function has for a variable other than its
parameter stays. -/
theorem var?_apply_of_function (hr : (apply f a).result = .ok r) {v : Var}
    {type : Ty} (hv : v ∈ r.term.vars) (htype : type ≠ .unknown)
    (hne : f.term.parameter? ≠ some v) (h : f.context.var? v = some type) :
    r.context.var? v = some type := by
  obtain ⟨arg, harg, -⟩ := apply_eq_ok hr
  rw [context_apply harg hr]
  refine var?_register_of_known? hv (Context.known?_of_ne ?_ htype)
  rw [Context.var?_merge, var?_outerContext, if_neg hne, h, Option.some_or]

/-- A known type that the moved argument has for a variable is taken over
where the function has no entry outside of its abstraction. -/
theorem var?_apply_of_argument (harg : (moved f a).result = .ok arg)
    (hr : (apply f a).result = .ok r) {v : Var} {type : Ty}
    (hv : v ∈ r.term.vars) (htype : type ≠ .unknown)
    (hnone : f.context.var? v = none ∨ f.term.parameter? = some v)
    (h : arg.context.var? v = some type) : r.context.var? v = some type := by
  have houter : f.outerContext.var? v = none := by
    rw [var?_outerContext]
    rcases hnone with hnone | hparameter
    · rw [hnone, ite_self]
    · rw [if_pos hparameter]
  rw [context_apply harg hr]
  refine var?_register_of_known? hv (Context.known?_of_ne ?_ htype)
  rw [Context.var?_merge_of_none houter, h]

-- ========================================================= main theorem

/-- The context of an application or a composition has the symbols of both
forms, those of the first before those of the second, and entries for
exactly the variables of the result. In an application every such
variable keeps the known type that the function has for it, unless it is
the parameter; if it is, or if the function has no entry for it, it takes
the known type that the moved argument has for it. -/
theorem result_joins_contexts (f a r : Form) :
    ((apply f a).result = .ok r ∨ (compose f a).result = .ok r →
      (∀ name, r.context.symbol? name
          = (f.context.symbol? name).or (a.context.symbol? name))
        ∧ ∀ v, v ∈ r.context.vars.keys ↔ v ∈ r.term.vars)
      ∧ ((apply f a).result = .ok r →
        ∃ arg, (moved f a).result = .ok arg
          ∧ ∀ v ∈ r.term.vars, ∀ type, type ≠ .unknown →
            (f.context.var? v = some type → f.term.parameter? ≠ some v →
              r.context.var? v = some type)
            ∧ (f.context.var? v = none ∨ f.term.parameter? = some v →
              arg.context.var? v = some type →
              r.context.var? v = some type)) := by
  refine ⟨fun hr => ⟨fun name => ?_, fun _ => mem_keys_iff⟩, fun hr => ?_⟩
  · rcases hr with hr | hr
    · exact symbol?_apply hr name
    · exact symbol?_compose hr name
  · obtain ⟨arg, harg, -⟩ := apply_eq_ok hr
    refine ⟨arg, harg, fun v hv type htype => ⟨fun h hne => ?_, fun hnone h => ?_⟩⟩
    · exact var?_apply_of_function hr hv htype hne h
    · exact var?_apply_of_argument harg hr hv htype hnone h

/-- Both forms register `p`, the argument alone registers `q`, each knows a
free variable, and the argument knows one more, which has the index of the
parameter. -/
theorem overlapping_contexts_join :
    ∃ f, (parse ⟨.ofList [(⟨5⟩, .func .entity .truth)],
          .ofList [("p", .func .entity .truth)]⟩
          "(lambda $0 t (and $0 ($5 k:e) (p k:e)))").result = .ok f
      ∧ ∃ a, (parse ⟨.ofList [(⟨0⟩, .entity), (⟨7⟩, .entity)],
          .ofList [("p", .entity), ("q", .func .entity (.func .entity .truth))]⟩
          "(q $0 $7)").result = .ok a
      ∧ ∃ r, (apply f a).result = .ok r
      ∧ r.context.symbol? "p" = some (.func .entity .truth)
      ∧ r.context.symbol? "q" = some (.func .entity (.func .entity .truth))
      ∧ (∀ v, v ∈ r.context.vars.keys ↔ v ∈ r.term.vars)
      ∧ r.context.var? ⟨5⟩ = some (.func .entity .truth)
      ∧ r.context.var? ⟨7⟩ = some .entity
      ∧ r.context.var? ⟨0⟩ = some .entity := by
  have hrun : ∃ f, (parse ⟨.ofList [(⟨5⟩, .func .entity .truth)],
          .ofList [("p", .func .entity .truth)]⟩
          "(lambda $0 t (and $0 ($5 k:e) (p k:e)))").result = .ok f
      ∧ ∃ a, (parse ⟨.ofList [(⟨0⟩, .entity), (⟨7⟩, .entity)],
          .ofList [("p", .entity), ("q", .func .entity (.func .entity .truth))]⟩
          "(q $0 $7)").result = .ok a
      ∧ ∃ r, (apply f a).result = .ok r
      ∧ (moved f a).result = .ok a
      ∧ f.term.parameter? = some ⟨0⟩
      ∧ (∀ v ∈ [⟨0⟩, ⟨5⟩, ⟨7⟩], v ∈ r.term.vars)
      ∧ f.context.var? ⟨5⟩ = some (.func .entity .truth)
      ∧ f.context.var? ⟨7⟩ = none
      ∧ (∀ v ∈ [⟨0⟩, ⟨7⟩], a.context.var? v = some .entity)
      ∧ f.context.symbol? "p" = some (.func .entity .truth)
      ∧ f.context.symbol? "q" = none
      ∧ a.context.symbol? "q" = some (.func .entity (.func .entity .truth)) := by
    decide +kernel
  obtain ⟨f, hf, a, ha, r, hr, hmoved, hparameter, hvars, hf5, hf7, hfree, hfp,
    hfq, haq⟩ := hrun
  obtain ⟨hjoin, happly⟩ := result_joins_contexts f a r
  obtain ⟨hsymbols, hkeys⟩ := hjoin (.inl hr)
  obtain ⟨arg, harg, htypes⟩ := happly hr
  cases Except.ok.inj (hmoved.symm.trans harg)
  have hentity : Ty.entity ≠ .unknown := nofun
  refine ⟨f, hf, a, ha, r, hr, ?_, ?_, hkeys, ?_, ?_, ?_⟩
  · rw [hsymbols, hfp, Option.some_or]
  · rw [hsymbols, hfq, Option.none_or, haq]
  · refine (htypes ⟨5⟩ (hvars _ (by decide)) _ (Ty.func_ne_unknown _ _)).1 hf5 ?_
    rw [hparameter]
    decide
  · exact (htypes ⟨7⟩ (hvars _ (by decide)) _ hentity).2 (.inl hf7)
      (hfree _ (by decide))
  · exact (htypes ⟨0⟩ (hvars _ (by decide)) _ hentity).2 (.inr hparameter)
      (hfree _ (by decide))

end Form

end LogicalForm
