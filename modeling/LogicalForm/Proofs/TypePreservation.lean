/-
When an application has the codomain of its function as its type. The
result of an application is typed from scratch in a context merged from
both operands, so an entry left over from a variable that is gone may
type another one that has come to have its index. Only the head variable
of the result is ever looked up (`HeadVariable`), which leaves two ways
to be safe.

- The parameter heads no application along the path of inference
  (`Term.curried`). Then the result has the head variable of the body or
  that of the argument, and the operands have no index in common.
- No index is bound at two types, neither in the function nor in the
  moved argument of any application performed (`Uniform`), and the result
  is closed. Then one context types everything in the run.

# The second way

`declared f a` is that context: it gives each variable the one type at
which the run binds it. Against this fixed context reduction preserves
types as usual, by induction along the calls (`typed_apply`), and the
contexts that the run really uses know nothing else (`proper_apply`).

Main statement: `application_preserves_type`. What happens without the
conditions is `stale_entry_changes_type`, a run of closed forms in which
a variable comes to have the index of one that is gone, and its entry.
-/
import LogicalForm.Proofs.HeadVariable
import LogicalForm.Proofs.Renaming

namespace LogicalForm

-- ========================================================== declarations

namespace Term

/-- The variables that a term binds, with the types at which it binds
them. -/
def declarations (t : Term) : List (Var × Ty) :=
  (t.visits.filter (·.site.binds)).map fun o => (o.var, o.site.type)

/-- A term declares a variable where an occurrence introduces it. -/
theorem mem_declarations {t : Term} {p : Var × Ty} :
    p ∈ t.declarations
      ↔ ∃ o ∈ t.visits, o.site.binds = true ∧ (o.var, o.site.type) = p := by
  simp [declarations, and_assoc]

@[simp] theorem declarations_atom (a : Atom) :
    (Term.atom a).declarations = [] := by
  cases a <;> rfl

@[simp] theorem mem_declarations_lambda {v : Var} {type : Ty} {body : Term}
    {p : Var × Ty} :
    p ∈ (Term.lambda v type body).declarations
      ↔ p = (v, type) ∨ p ∈ body.declarations := by
  simp [declarations, visits, Site.binds, Site.type]

@[simp] theorem mem_declarations_binder {op : Builtin} {v : Var}
    {args : List Term} {p : Var × Ty} :
    p ∈ (Term.binder op v args).declarations
      ↔ p = (v, .entity) ∨ ∃ t ∈ args, p ∈ t.declarations := by
  simp [declarations, visits, Site.binds, Site.type]
  grind

@[simp] theorem mem_declarations_app {head : Term} {args : List Term}
    {p : Var × Ty} :
    p ∈ (Term.app head args).declarations
      ↔ p ∈ head.declarations ∨ ∃ t ∈ args, p ∈ t.declarations := by
  simp [declarations, visits]
  grind

/-- The variables that a term binds are those that it declares. -/
theorem mem_binders_iff {t : Term} {v : Var} :
    v ∈ t.binders ↔ ∃ type, (v, type) ∈ t.declarations := by
  constructor
  · intro h
    obtain ⟨o, ho, rfl⟩ := List.mem_map.1 h
    exact ⟨o.site.type, List.mem_map.2 ⟨o, ho, rfl⟩⟩
  · intro h
    obtain ⟨type, h⟩ := h
    obtain ⟨o, ho, hp⟩ := List.mem_map.1 h
    exact List.mem_map.2 ⟨o, ho, congrArg Prod.fst hp⟩

/-- A change of variables takes the declarations along. -/
theorem mem_declarations_mapVars {f : Var → Var} {t : Term} {v : Var}
    {type : Ty} (h : (v, type) ∈ t.declarations) :
    (f v, type) ∈ (t.mapVars f).declarations := by
  obtain ⟨o, ho, hbinds, hp⟩ := mem_declarations.1 h
  refine mem_declarations.2 ⟨o.mapVar f, ?_, hbinds, ?_⟩
  · rw [visits_mapVars]
    exact List.mem_map_of_mem ho
  · cases hp
    rfl

/-- The context gives every variable the type at which the term binds
it. -/
def AgreesWith (d : Context) (t : Term) : Prop :=
  ∀ p ∈ t.declarations, d.var? p.1 = some p.2

theorem agreesWith_lambda {d : Context} {v : Var} {type : Ty} {body : Term} :
    (Term.lambda v type body).AgreesWith d
      ↔ d.var? v = some type ∧ body.AgreesWith d := by
  constructor
  · intro h
    exact ⟨h _ (mem_declarations_lambda.2 (.inl rfl)),
      fun p hp => h p (mem_declarations_lambda.2 (.inr hp))⟩
  · intro h p hp
    obtain ⟨hv, hbody⟩ := h
    rcases mem_declarations_lambda.1 hp with rfl | hp
    · exact hv
    · exact hbody p hp

theorem agreesWith_binder {d : Context} {op : Builtin} {v : Var}
    {args : List Term} :
    (Term.binder op v args).AgreesWith d
      ↔ d.var? v = some .entity ∧ ∀ t ∈ args, t.AgreesWith d := by
  constructor
  · intro h
    refine ⟨h _ (mem_declarations_binder.2 (.inl rfl)), fun t ht p hp => ?_⟩
    exact h p (mem_declarations_binder.2 (.inr ⟨t, ht, hp⟩))
  · intro h p hp
    obtain ⟨hv, hargs⟩ := h
    rcases mem_declarations_binder.1 hp with rfl | ⟨t, ht, hp⟩
    · exact hv
    · exact hargs t ht p hp

theorem agreesWith_app {d : Context} {head : Term} {args : List Term} :
    (Term.app head args).AgreesWith d
      ↔ head.AgreesWith d ∧ ∀ t ∈ args, t.AgreesWith d := by
  constructor
  · intro h
    exact ⟨fun p hp => h p (mem_declarations_app.2 (.inl hp)),
      fun t ht p hp => h p (mem_declarations_app.2 (.inr ⟨t, ht, hp⟩))⟩
  · intro h p hp
    obtain ⟨hhead, hargs⟩ := h
    rcases mem_declarations_app.1 hp with hp | ⟨t, ht, hp⟩
    · exact hhead p hp
    · exact hargs t ht p hp

/-- Inference comes to the parameter as the head of an application. -/
def curried (v : Var) : Term → Bool
  | .atom _ => false
  | .lambda w _ body => w ≠ v && curried v body
  | .binder .. => false
  | .app head args => if head = .ofVar v then !args.isEmpty else curried v head

end Term

namespace Context

/-- A merge of contexts with the same symbols has these. -/
theorem symbols_merge {c d : Context} (h : d.symbols = c.symbols) :
    (c.merge d).symbols = c.symbols := by
  refine Table.ext_find? fun name => ?_
  rw [merge, Table.find?_merge, h, Option.or_self]

/-- What is known on the left stands in a merge. -/
theorem var?_merge_of_known? {c c' : Context} {v : Var} {type : Ty}
    (h : c.known? v = some type) : (c.merge c').var? v = some type := by
  rw [var?_merge, (known?_eq_some.1 h).1, Option.some_or]

theorem var?_merge_of_none {c c' : Context} {v : Var} (h : c.var? v = none) :
    (c.merge c').var? v = c'.var? v := by
  rw [var?_merge, h, Option.none_or]

/-- Whether built-ins are registered is a matter of the symbols. -/
theorem PlainBuiltins.of_symbols {c d : Context} (hc : c.PlainBuiltins)
    (h : d.symbols = c.symbols) : d.PlainBuiltins := by
  intro b
  rw [symbol?_congr h]
  exact hc b

/-- Two contexts that say no more than a third one do so together. -/
theorem Within.merge {c c' d : Context} (hc : c.Within d) (hc' : c'.Within d) :
    (c.merge c').Within d := by
  intro v type h
  obtain ⟨hvar, htype⟩ := known?_eq_some.1 h
  rw [var?_merge] at hvar
  cases hv : c.var? v with
  | none =>
      rw [hv, Option.none_or] at hvar
      exact hc' v type (known?_of_ne hvar htype)
  | some σ =>
      rw [hv, Option.some_or] at hvar
      exact hc v type (known?_of_ne (hv.trans hvar) htype)

/-- A context that forgets a variable says no more than before. -/
theorem Within.eraseVar {c d : Context} (hc : c.Within d) (w : Var) :
    (c.eraseVar w).Within d := by
  intro v type h
  obtain ⟨hvar, htype⟩ := known?_eq_some.1 h
  rw [var?_eraseVar] at hvar
  split at hvar
  · cases hvar
  · exact hc v type (known?_of_ne hvar htype)

/-- Registering adds the declarations of the term and nothing else. -/
theorem known?_register {c : Context} {t : Term} {v : Var} {type : Ty}
    (h : (c.register t).known? v = some type) :
    c.known? v = some type ∨ (v, type) ∈ t.declarations := by
  obtain ⟨hvar, htype⟩ := known?_eq_some.1 h
  rw [var?_register] at hvar
  obtain ⟨o, ho, hclass⟩ := Option.map_eq_some_iff.1 hvar
  have hov : o.var = v := Term.var_of_find? ho
  rw [classify, hov] at hclass
  cases hk : c.known? v with
  | some σ =>
      rw [hk] at hclass
      exact .inl (congrArg some hclass)
  | none =>
      rw [hk] at hclass
      refine .inr (Term.mem_declarations.2
        ⟨o, List.mem_of_find?_eq_some ho, ?_, ?_⟩)
      · cases hs : o.site with
        | atom =>
            rw [hs] at hclass
            exact absurd hclass.symm htype
        | _ => rfl
      · rw [← hov, ← hclass]
        rfl

/-- Registering a term that agrees with a context says no more than that
context. -/
theorem Within.register {c d : Context} (hc : c.Within d) {t : Term}
    (ht : t.AgreesWith d) : (c.register t).Within d := by
  intro v type h
  rcases known?_register h with h | h
  · exact hc v type h
  · exact ht _ h

end Context

namespace Form

-- ======================================================== one substitution

/-- A chain of applications of `arg` to arguments that agree with the
context has the type that the parameter has after as many arguments. -/
def Chains (H : Form × Form → Prop) (d c : Context) (v : Var) (arg : Form) :
    Prop :=
  ∀ args args' g τ, (∀ t ∈ args, t.AgreesWith d) →
    List.Forall₂ (Substituted H c v arg) args args' →
    (∀ p ∈ callsAlong c arg args', H p) →
    (applyAll apply c arg args').result = .ok g → τ ≠ .unknown →
    d.inferAtomHead (.var v) args.length = .ok τ → d.infer g.term = .ok τ

/-- Substituting a form for a variable of its type preserves types,
provided that curried uses of the variable do, if inference comes to
any. -/
theorem infer_of_substituted {H : Form × Form → Prop} {c d : Context}
    {v : Var} {arg : Form} (hplain : d.PlainBuiltins)
    (harg : ∀ σ, d.known? v = some σ → d.infer arg.term = .ok σ)
    {t u : Term} (h : Substituted H c v arg t u)
    (hsafe : t.curried v = false ∨ (t.AgreesWith d ∧ Chains H d c v arg))
    {τ : Ty} (hτ : τ ≠ .unknown) (ht : d.infer t = .ok τ) :
    d.infer u = .ok τ := by
  revert hsafe τ
  refine substitute_induct (P := fun t u =>
    t.curried v = false ∨ (t.AgreesWith d ∧ Chains H d c v arg) →
    ∀ {τ : Ty}, τ ≠ .unknown → d.infer t = .ok τ → d.infer u = .ok τ)
    ?var ?atom ?shadowed ?lambda ?binder ?curried ?headed h
  case var =>
    intro _ τ hτ ht
    have hv := Context.inferAtom_var_eq_ok.1 ht
    exact harg τ (Context.known?_of_ne hv hτ)
  case atom =>
    intro a _ _ τ _ ht
    exact ht
  case shadowed =>
    intro type body _ τ _ ht
    exact ht
  case lambda =>
    intro w type body body' hw _ ih hsafe τ hτ ht
    obtain ⟨codomain, -, rfl⟩ := Context.infer_lambda_eq_ok ht
    obtain ⟨-, hbody, hne⟩ := Context.ne_unknown_of_infer_lambda ht
    refine Context.infer_lambda_of_infer (ih ?_ hne hbody) hne
    rcases hsafe with hc | ⟨hagrees, hchains⟩
    · rw [Term.curried] at hc
      exact .inl (by simpa [hw] using hc)
    · exact .inr ⟨(Term.agreesWith_lambda.1 hagrees).2, hchains⟩
  case binder =>
    intro op w args args' _ _ τ _ ht
    exact ht
  case curried =>
    intro args args' g ih hcalls hg hsafe τ hτ ht
    rcases hsafe with hc | ⟨hagrees, hchains⟩
    · rw [Term.curried, if_pos rfl] at hc
      cases args with
      | nil =>
          cases ih
          cases hg
          obtain ⟨σ, hσ, hafter⟩ := Context.inferAtomHead_var_eq_ok.1 ht
          rw [List.length_nil, Ty.afterArgs_zero] at hafter
          cases hafter
          exact harg τ hσ
      | cons t ts => cases hc
    · exact hchains args args' g τ (Term.agreesWith_app.1 hagrees).2
        (ih.imp fun _ _ h => h.1) hcalls hg hτ ht
  case headed =>
    intro head head' args args' hhead hsub ihHead ihArgs hsafe τ hτ ht
    have hlength : args'.length = args.length := ihArgs.length_eq.symm
    rcases head.exists_atom_or_not with ⟨a, rfl⟩ | hnot
    · have hne : a ≠ .var v := fun e => hhead (by rw [e])
      have hrun := hsub.run
      rw [substitute, if_neg hne] at hrun
      cases hrun
      show d.inferAtomHead a args'.length = .ok τ
      rw [hlength]
      exact ht
    · obtain ⟨σ, hσ, hafter⟩ := Context.infer_app_eq_ok hnot ht
      have hne := Ty.ne_unknown_of_afterArgs hafter hτ
      rw [← hlength] at hafter
      refine Context.infer_app_of_infer hplain (ihHead ?_ hne hσ) hne hafter
      rcases hsafe with hc | ⟨hagrees, hchains⟩
      · rw [Term.curried, if_neg hhead] at hc
        exact .inl hc
      · exact .inr ⟨(Term.agreesWith_app.1 hagrees).1, hchains⟩

-- ====================================================== one context

/-- The form says nothing of variables that the context `d` does not say,
neither in its term nor in its own context. -/
structure Proper (d : Context) (g : Form) : Prop where
  term : g.term.AgreesWith d
  context : g.context.Within d
  symbols : g.context.symbols = d.symbols

/-- What is asked of a form that is about to move: the types of its bound
variables, which the move takes to new indices, come from the term. -/
structure Ready (d : Context) (b : Form) : Prop where
  bound : ∀ v ∈ b.term.binders, ∀ type, b.context.known? v = some type →
    (v, type) ∈ b.term.declarations
  free : ∀ v, v ∉ b.term.binders → ∀ type, b.context.known? v = some type →
    d.var? v = some type
  symbols : b.context.symbols = d.symbols

/-- A proper form is ready to move. -/
theorem Proper.ready {d : Context} {b : Form} (hb : Proper d b) :
    Ready d b := by
  refine ⟨fun v hv type h => ?_, fun v _ type h => hb.context v type h,
    hb.symbols⟩
  obtain ⟨σ, hσ⟩ := Term.mem_binders_iff.1 hv
  have heq := (hb.context v type h).symm.trans (hb.term _ hσ)
  cases heq
  exact hσ

/-- A form that was typed where no variable is known is ready. -/
theorem ready_of_register {c d : Context} {b : Form}
    (hvars : ∀ v, c.var? v = none) (hsymbols : c.symbols = d.symbols)
    (hb : b.context = c.register b.term) : Ready d b := by
  have hdeclared : ∀ v type, b.context.known? v = some type →
      (v, type) ∈ b.term.declarations := by
    intro v type h
    rw [hb] at h
    rcases Context.known?_register h with h | h
    · rw [Context.known?, hvars] at h
      cases h
    · exact h
  refine ⟨fun v _ => hdeclared v, fun v hv type h => ?_, ?_⟩
  · exact absurd (Term.mem_binders_iff.2 ⟨type, hdeclared v type h⟩) hv
  · rw [hb]
    exact hsymbols

/-- Typing a term in a context makes a proper form of it. -/
theorem proper_of_register {c d : Context} {g : Form} (hc : c.Within d)
    (hsymbols : c.symbols = d.symbols) (hterm : g.term.AgreesWith d)
    (hg : g.context = c.register g.term) : Proper d g := by
  refine ⟨hterm, ?_, ?_⟩
  · rw [hg]
    exact hc.register hterm
  · rw [hg]
    exact hsymbols

/-- A move makes a ready form proper, if it agrees with the context at
its new place. -/
theorem proper_of_moved {d : Context} {f b arg : Form} (hb : Ready d b)
    (hterm : arg.term.AgreesWith d) (harg : (moved f b).result = .ok arg) :
    Proper d arg := by
  refine proper_of_register (c := b.context.moved b.boundVars (offset f b))
    (fun w type h => ?_) hb.symbols hterm (context_moved harg)
  obtain ⟨hvar, htype⟩ := Context.known?_eq_some.1 h
  by_cases harrival : ∃ v ∈ b.boundVars, v.shift (offset f b) = w
      ∧ b.context.var? v ≠ none
  · obtain ⟨v, hv, rfl, hentry⟩ := harrival
    obtain ⟨σ, hσ⟩ := Option.ne_none_iff_exists'.1 hentry
    have hmoved : (b.context.moved b.boundVars (offset f b)).var?
        (v.shift (offset f b)) = some σ := Context.var?_moved_shift hv hσ
    have heq := hmoved.symm.trans hvar
    cases heq
    have hbound := Term.mem_boundVars.1 hv
    have hdecl := hb.bound v hbound _ (Context.known?_of_ne hσ htype)
    have hplace := Term.mem_declarations_mapVars (f := relocate f b) hdecl
    rw [relocate_of_mem hbound] at hplace
    rw [← term_moved harg] at hplace
    exact hterm _ hplace
  · have hnone : ∀ v ∈ b.boundVars, v.shift (offset f b) = w →
        b.context.var? v = none := by
      intro v hv hw
      by_contra hentry
      exact harrival ⟨v, hv, hw, hentry⟩
    have hstay := Context.var?_moved_of_no_arrival hnone
    rw [hstay] at hvar
    split at hvar
    · cases hvar
    · rename_i hnot
      refine hb.free w (fun hw => hnot (Term.mem_boundVars.2 hw)) type ?_
      exact Context.known?_of_ne hvar htype

-- ==================================================== along the calls

/-- The moved arguments of all applications performed agree with the
context. -/
def Moves (d : Context) (f a : Form) : Prop :=
  ∀ p, Performs f a p → ∀ arg, (moved p.1 p.2).result = .ok arg →
    arg.term.AgreesWith d

/-- What holds of the moved arguments of a run holds of those of its calls.
-/
theorem Moves.call {d : Context} {f a : Form} {p : Form × Form}
    (h : Moves d f a) (hp : p ∈ calls f a) : Moves d p.1 p.2 :=
  fun q hq => h q (.nested hp hq)

/-- Applying the form to a ready one keeps it proper. -/
def KeepsProper (d : Context) (p : Form × Form) : Prop :=
  Proper d p.1 → Ready d p.2 → ∀ r, (apply p.1 p.2).result = .ok r →
    Proper d r

/-- The calls along a list of terms that agree with the context are of
ready arguments. -/
theorem ready_of_mem_callsAlong {c d : Context} {f : Form} {ts : List Term}
    (hc : c.Within d) (hsymbols : c.symbols = d.symbols)
    (hts : ∀ t ∈ ts, t.AgreesWith d) {p : Form × Form}
    (hp : p ∈ callsAlong c f ts) : Ready d p.2 := by
  obtain ⟨t, ht, hterm⟩ := exists_of_mem_callsAlong hp
  obtain ⟨hpt, hpc⟩ := result_ofTerm_eq_ok hterm
  have hagrees : p.2.term.AgreesWith d := hpt ▸ hts t ht
  exact (proper_of_register hc hsymbols hagrees (by rw [hpc, hpt])).ready

/-- Substitution of a proper form keeps a term in agreement. -/
theorem agreesWith_of_substituted {H : Form × Form → Prop} {c d : Context}
    {v : Var} {arg : Form} (hH : ∀ p, H p → KeepsProper d p)
    (hc : c.Within d) (hsymbols : c.symbols = d.symbols)
    (harg : Proper d arg) {t u : Term} (h : Substituted H c v arg t u)
    (ht : t.AgreesWith d) : u.AgreesWith d := by
  revert ht
  refine substitute_induct (P := fun t u => t.AgreesWith d → u.AgreesWith d)
    ?var ?atom ?shadowed ?lambda ?binder ?curried ?headed h
  case var =>
    intro _
    exact harg.term
  case atom =>
    intro a _ ht
    exact ht
  case shadowed =>
    intro type body ht
    exact ht
  case lambda =>
    intro w type body body' _ _ ih ht
    obtain ⟨hw, hbody⟩ := Term.agreesWith_lambda.1 ht
    exact Term.agreesWith_lambda.2 ⟨hw, ih hbody⟩
  case binder =>
    intro op w args args' ih ht
    obtain ⟨hw, hargs⟩ := Term.agreesWith_binder.1 ht
    refine Term.agreesWith_binder.2 ⟨hw, fun u hu => ?_⟩
    obtain ⟨t, ht, -, hP⟩ := exists_left_of_mem ih hu
    exact hP (hargs t ht)
  case curried =>
    intro args args' g ih hcalls hg ht
    have hargs : ∀ u ∈ args', u.AgreesWith d := by
      intro u hu
      obtain ⟨t, ht', -, hP⟩ := exists_left_of_mem ih hu
      exact hP ((Term.agreesWith_app.1 ht).2 t ht')
    have hg : Proper d g := by
      refine applyAll_keeps (R := Proper d) (fun p hp s hp' hs => ?_) harg hg
      exact hH p (hcalls p hp) hp'
        (ready_of_mem_callsAlong hc hsymbols hargs hp) s hs
    exact hg.term
  case headed =>
    intro head head' args args' _ _ ihHead ihArgs ht
    obtain ⟨hhead, hargs⟩ := Term.agreesWith_app.1 ht
    refine Term.agreesWith_app.2 ⟨ihHead hhead, fun u hu => ?_⟩
    obtain ⟨t, ht, -, hP⟩ := exists_left_of_mem ihArgs hu
    exact hP (hargs t ht)

/-- A run whose moved arguments agree with one context stays with what
that context says. -/
theorem proper_apply {d : Context} {f a : Form} (hmoves : Moves d f a) :
    KeepsProper d (f, a) := by
  refine apply_induct (P := fun f a => Moves d f a → KeepsProper d (f, a))
    (fun f a ih hmoves => ?_) f a hmoves
  show Proper d f → Ready d a → ∀ r, (apply f a).result = .ok r → Proper d r
  intro hf ha r hr
  cases hterm : f.term with
  | lambda v type body =>
      obtain ⟨arg, harg, htype, hsub, hofTerm⟩ := apply_lambda_eq_ok hterm hr
      have hcalls : ∀ p ∈ callsWithin f.context v arg body, KeepsProper d p := by
        rw [← calls_lambda hterm harg htype]
        exact fun p hp => ih p hp (hmoves.call hp)
      have hproper := proper_of_moved ha (hmoves _ (.itself f a) arg harg) harg
      have hbody : body.AgreesWith d := by
        have h := hf.term
        rw [hterm] at h
        exact (Term.agreesWith_lambda.1 h).2
      have hagrees := agreesWith_of_substituted (fun _ h => h) hf.context
        hf.symbols hproper ⟨hsub, hcalls⟩ hbody
      refine proper_of_register ((hf.context.eraseVar v).merge hproper.context)
        ?_ hagrees (result_ofTerm_eq_ok hofTerm).2
      have hsame : arg.context.symbols = (f.context.eraseVar v).symbols :=
        hproper.symbols.trans hf.symbols.symm
      rw [Context.symbols_merge hsame]
      exact hf.symbols
  | _ =>
      have hlam : f.term.isLambda = false := by rw [hterm]; rfl
      obtain ⟨arg, harg, hrterm, hrcontext⟩ := apply_wrap_eq_ok hlam hr
      have hproper := proper_of_moved ha (hmoves _ (.itself f a) arg harg) harg
      refine proper_of_register (hf.context.merge hproper.context) ?_ ?_ hrcontext
      · rw [Context.symbols_merge (hproper.symbols.trans hf.symbols.symm)]
        exact hf.symbols
      · rw [hrterm, Term.agreesWith_app]
        refine ⟨hf.term, fun u hu => ?_⟩
        rw [List.mem_singleton.1 hu]
        exact hproper.term

/-- Applying the form takes the codomain of its type in the context. -/
def KeepsType (d : Context) (p : Form × Form) : Prop :=
  Proper d p.1 → Ready d p.2 → ∀ σ κ r,
    d.infer p.1.term = .ok (.func σ κ) → κ ≠ .unknown →
    (apply p.1 p.2).result = .ok r → d.infer r.term = .ok κ

/-- A chain of applications takes one codomain after the other. -/
theorem infer_applyAll {c d : Context} (hc : c.Within d)
    (hsymbols : c.symbols = d.symbols) {f g : Form} {ts : List Term}
    (hcalls : ∀ p ∈ callsAlong c f ts, KeepsProper d p ∧ KeepsType d p)
    (hf : Proper d f) (hts : ∀ t ∈ ts, t.AgreesWith d)
    (h : (applyAll apply c f ts).result = .ok g) {σ τ : Ty} {head : Term}
    (hσ : d.infer f.term = .ok σ)
    (hafter : σ.afterArgs head ts.length = .ok τ) (hτ : τ ≠ .unknown) :
    d.infer g.term = .ok τ := by
  induction ts generalizing f σ with
  | nil =>
      cases h
      rw [List.length_nil, Ty.afterArgs_zero] at hafter
      cases hafter
      exact hσ
  | cons t ts ih =>
      have hready := fun p hp =>
        ready_of_mem_callsAlong (f := f) hc hsymbols hts (p := p) hp
      obtain ⟨a, ha, h⟩ := Traced.result_bind_eq_ok h
      obtain ⟨s, hs, h⟩ := Traced.result_bind_eq_ok h
      rw [callsAlong_cons ha hs] at hcalls hready
      obtain ⟨⟨hproper, htyped⟩, hcalls⟩ := List.forall_mem_cons.1 hcalls
      have ha' : Ready d a := hready (f, a) (List.mem_cons_self ..)
      have hts' := (List.forall_mem_cons.1 hts).2
      cases σ with
      | func σ κ =>
          have hκ : κ ≠ .unknown := Ty.ne_unknown_of_afterArgs hafter hτ
          exact ih hcalls (hproper hf ha' s hs) hts' h
            (htyped hf ha' σ κ s hσ hκ hs) hafter
      | _ => cases hafter

/-- In a run whose moved arguments agree with one context, application
preserves types in that context. -/
theorem typed_apply {d : Context} (hplain : d.PlainBuiltins) {f a : Form}
    (hmoves : Moves d f a) : KeepsType d (f, a) := by
  refine apply_induct (P := fun f a => Moves d f a → KeepsType d (f, a))
    (fun f a ih hmoves => ?_) f a hmoves
  show Proper d f → Ready d a → ∀ σ κ r, d.infer f.term = .ok (.func σ κ) →
    κ ≠ .unknown → (apply f a).result = .ok r → d.infer r.term = .ok κ
  intro hf ha σ κ r hinfer hκ hr
  cases hterm : f.term with
  | lambda v type body =>
      obtain ⟨arg, harg, htype, hsub, -⟩ := apply_lambda_eq_ok hterm hr
      have hcalls : ∀ p ∈ callsWithin f.context v arg body,
          KeepsProper d p ∧ KeepsType d p := by
        rw [← calls_lambda hterm harg htype]
        intro p hp
        have hrun := hmoves.call hp
        exact ⟨proper_apply hrun, ih p hp hrun⟩
      have hproper := proper_of_moved ha (hmoves _ (.itself f a) arg harg) harg
      rw [hterm] at hinfer
      obtain ⟨-, hbody, -⟩ := Context.ne_unknown_of_infer_lambda hinfer
      have hagrees := hf.term
      rw [hterm] at hagrees
      obtain ⟨hv, hagrees⟩ := Term.agreesWith_lambda.1 hagrees
      have hargtype : ∀ σ, d.known? v = some σ → d.infer arg.term = .ok σ := by
        intro σ hσ
        obtain ⟨hvar, hne⟩ := Context.known?_eq_some.1 hσ
        have heq : type = σ := Option.some.inj (hv.symm.trans hvar)
        have htyped := arg.typed
        rw [htype, heq] at htyped
        exact hproper.context.infer hproper.symbols htyped hne
      refine infer_of_substituted hplain hargtype ⟨hsub, hcalls⟩
        (.inr ⟨hagrees, ?_⟩) hκ hbody
      intro args args' g τ hargs hpairs hcalls hg hτ hhead
      obtain ⟨σ, hσ, hafter⟩ := Context.inferAtomHead_var_eq_ok.1 hhead
      have hargs' : ∀ u ∈ args', u.AgreesWith d := by
        intro u hu
        obtain ⟨t, ht, hsub⟩ := exists_left_of_mem hpairs hu
        exact agreesWith_of_substituted (fun _ h => h.1) hf.context hf.symbols
          hproper hsub (hargs t ht)
      rw [hpairs.length_eq] at hafter
      exact infer_applyAll hf.context hf.symbols hcalls hproper hargs' hg
        (hargtype σ hσ) hafter hτ
  | _ =>
      have hlam : f.term.isLambda = false := by rw [hterm]; rfl
      obtain ⟨arg, harg, hrterm, -⟩ := apply_wrap_eq_ok hlam hr
      have hafter : (Ty.func σ κ).afterArgs f.term [arg.term].length = .ok κ :=
        Ty.afterArgs_zero κ f.term
      rw [hrterm]
      exact Context.infer_app_of_infer hplain hinfer (Ty.func_ne_unknown σ κ) hafter

-- ================================================ uniform declarations

/-- What is declared by the function and by the moved arguments of all
applications performed. -/
def runDeclarations (f a : Form) : List (Var × Ty) :=
  f.term.declarations ++ (performed f a).flatMap fun p =>
    match (moved p.1 p.2).result with
    | .ok arg => arg.term.declarations
    | .error _ => []

/-- No index is bound at two types while `f` is applied to `a`. -/
def Uniform (f a : Form) : Prop :=
  ∀ p ∈ runDeclarations f a, ∀ q ∈ runDeclarations f a, p.1 = q.1 → p.2 = q.2

instance (f a : Form) : Decidable (Uniform f a) :=
  inferInstanceAs (Decidable (∀ p ∈ runDeclarations f a,
    ∀ q ∈ runDeclarations f a, p.1 = q.1 → p.2 = q.2))

/-- The context of all that the run declares. -/
def declared (f a : Form) : Context :=
  ⟨.ofList (runDeclarations f a), f.context.symbols⟩

/-- Where no index has two types, each entry is the one that is found. -/
theorem lookup_of_uniform {es : List (Var × Ty)}
    (h : ∀ p ∈ es, ∀ q ∈ es, p.1 = q.1 → p.2 = q.2) {p : Var × Ty}
    (hp : p ∈ es) : es.lookup p.1 = some p.2 := by
  induction es with
  | nil => cases hp
  | cons e es ih =>
      rw [Entries.lookup_cons_eq]
      by_cases he : p.1 = e.1
      · rw [if_pos he, h p hp e (List.mem_cons_self ..) he]
      · rw [if_neg he]
        refine ih (fun q hq q' hq' => h q (List.mem_cons_of_mem _ hq) q'
          (List.mem_cons_of_mem _ hq')) ?_
        rcases List.mem_cons.1 hp with rfl | hp
        · exact absurd rfl he
        · exact hp

/-- The context of a uniform run has every variable at the type at which it
is declared. -/
theorem var?_declared {f a : Form} (huniform : Uniform f a) {p : Var × Ty}
    (hp : p ∈ runDeclarations f a) : (declared f a).var? p.1 = some p.2 := by
  show (Table.ofList (runDeclarations f a)).find? p.1 = some p.2
  rw [Table.find?_ofList]
  exact lookup_of_uniform huniform hp

/-- The function of a uniform run agrees with the context of the run. -/
theorem agreesWith_declared {f a : Form} (huniform : Uniform f a) :
    f.term.AgreesWith (declared f a) :=
  fun _ hp => var?_declared huniform (List.mem_append_left _ hp)

/-- What the run declares is all that its moved arguments bind. -/
theorem moves_of_runDeclarations {d : Context} {f a : Form}
    (h : ∀ p ∈ runDeclarations f a, d.var? p.1 = some p.2) : Moves d f a := by
  intro q hq arg harg p hp
  refine h p (List.mem_append_right _ ?_)
  refine List.mem_flatMap.2 ⟨q, mem_performed.2 hq, ?_⟩
  rw [harg]
  exact hp

/-- The moved arguments of a uniform run agree with the context of the run.
-/
theorem moves_declared {f a : Form} (huniform : Uniform f a) :
    Moves (declared f a) f a :=
  moves_of_runDeclarations fun _ hp => var?_declared huniform hp

/-- A closed form of a proper context is typed as the context would. -/
theorem infer_of_proper {d : Context} {r : Form} (hr : Proper d r)
    (hclosed : r.term.Closed) : r.context.infer r.term = d.infer r.term := by
  refine Context.infer_congr hr.symbols fun w hw => ?_
  obtain ⟨o, ho, hplace⟩ := Term.exists_find?_headVar hw
  have hov : o.var = w := Term.var_of_find? ho
  have hbinds : o.site.binds = true :=
    hplace.resolve_right (Term.closed_iff.1 hclosed w)
  have hdecl : (w, o.site.type) ∈ r.term.declarations :=
    Term.mem_declarations.2
      ⟨o, List.mem_of_find?_eq_some ho, hbinds, by rw [hov]⟩
  rw [← r.registered, Context.var?_register, ho, Option.map_some,
    Context.classify, hov]
  cases hk : r.context.known? w with
  | none => exact (hr.term _ hdecl).symm
  | some type => exact (hr.context w type hk).symm

/-- Where no index is bound at two types, a closed result has the
codomain of the function. -/
theorem type_of_uniform {c : Context} {f a r : Form} {σ κ : Ty}
    (hvars : ∀ v, c.var? v = none) (hplain : c.PlainBuiltins)
    (hf : f.context = c.register f.term) (ha : a.context = c.register a.term)
    (htype : f.type = .func σ κ) (hκ : κ ≠ .unknown) (huniform : Uniform f a)
    (hr : (apply f a).result = .ok r) (hclosed : r.term.Closed) :
    r.type = κ := by
  have hsymbols : c.symbols = (declared f a).symbols := by
    show c.symbols = f.context.symbols
    rw [hf]
    rfl
  have hwithin : c.Within (declared f a) := by
    intro v type h
    rw [Context.known?, hvars] at h
    cases h
  have hproper : Proper (declared f a) f :=
    proper_of_register hwithin hsymbols (agreesWith_declared huniform) hf
  have hready : Ready (declared f a) a := ready_of_register hvars hsymbols ha
  have hmoves := moves_declared huniform
  have hplain' : (declared f a).PlainBuiltins := hplain.of_symbols hsymbols.symm
  have htyped := f.typed
  rw [htype] at htyped
  have hinfer := hproper.context.infer hproper.symbols htyped
    (Ty.func_ne_unknown σ κ)
  have hresult := typed_apply hplain' hmoves hproper hready σ κ r hinfer hκ hr
  rw [← infer_of_proper (proper_apply hmoves hproper hready r hr) hclosed,
    r.typed] at hresult
  exact Except.ok.inj hresult

-- ================================================= uncurried parameters

/-- Where inference does not come to a curried parameter, the head
variable of the result is that of the body or that of the argument. -/
theorem headVar?_of_substituted {H : Form × Form → Prop} {c : Context}
    {v : Var} {arg : Form} {t u : Term} (h : Substituted H c v arg t u)
    (hcurried : t.curried v = false) (hbound : v ∉ t.binders) {w : Var}
    (hw : u.headVar? = some w) :
    (t.headVar? = some w ∧ w ≠ v)
      ∨ (t.headVar? = some v ∧ arg.term.headVar? = some w) := by
  revert hcurried hbound hw
  refine substitute_induct (P := fun t u => t.curried v = false →
    v ∉ t.binders → u.headVar? = some w →
    (t.headVar? = some w ∧ w ≠ v)
      ∨ (t.headVar? = some v ∧ arg.term.headVar? = some w))
    ?var ?atom ?shadowed ?lambda ?binder ?curried ?headed h
  case var =>
    intro _ _ hw
    exact .inr ⟨rfl, hw⟩
  case atom =>
    intro a ha _ _ hw
    refine .inl ⟨hw, ?_⟩
    intro heq
    subst heq
    cases a with
    | var y =>
        cases hw
        exact ha rfl
    | _ => cases hw
  case shadowed =>
    intro type body _ hbound _
    exact absurd (Term.mem_binders_lambda.2 (.inl rfl)) hbound
  case lambda =>
    intro y type body body' hy _ ih hcurried hbound hw
    rw [Term.curried] at hcurried
    refine ih (by simpa [hy] using hcurried) (fun hv => hbound ?_) hw
    exact Term.mem_binders_lambda.2 (.inr hv)
  case binder =>
    intro op y args args' _ _ _ hw
    cases hw
  case curried =>
    intro args args' g ih _ hg hcurried _ hw
    rw [Term.curried, if_pos rfl] at hcurried
    cases args with
    | nil =>
        cases ih
        cases hg
        exact .inr ⟨rfl, hw⟩
    | cons t ts => cases hcurried
  case headed =>
    intro head head' args args' hhead _ ihHead _ hcurried hbound hw
    rw [Term.curried, if_neg hhead] at hcurried
    exact ihHead hcurried
      (fun hv => hbound (Term.mem_binders_app.2 (.inl hv))) hw

/-- A variable of the term that is known keeps its type in registration. -/
theorem var?_register_of_known? {c : Context} {t : Term} {w : Var} {type : Ty}
    (hw : w ∈ t.vars) (h : c.known? w = some type) :
    (c.register t).var? w = some type := by
  obtain ⟨σ, hσ⟩ := Option.isSome_iff_exists.1
    (Context.isSome_var?_register (c := c).2 hw)
  rw [hσ]
  rw [Context.var?_register] at hσ
  obtain ⟨o, ho, hclass⟩ := Option.map_eq_some_iff.1 hσ
  have hov : o.var = w := Term.var_of_find? ho
  rw [Context.classify, hov, h] at hclass
  rw [← hclass]
  rfl

/-- Where an abstraction is typed, its parameter has the declared type. -/
theorem var?_parameter {c : Context} {v : Var} {type : Ty} {body : Term}
    (hvars : ∀ v, c.var? v = none) :
    (c.register (.lambda v type body)).var? v = some type := by
  have hnone : c.known? v = none := by
    rw [Context.known?, hvars]
  rw [Context.var?_register, Term.visits, List.find?_cons]
  simp [Context.classify, hnone, Site.type]

/-- The head variable of a closed argument, moved, is none of the
function. -/
theorem not_mem_vars_of_headVar_moved {f a arg : Form}
    (harg : (moved f a).result = .ok arg) (hclosed : a.term.Closed) {w : Var}
    (hw : arg.term.headVar? = some w) : w ∉ f.term.vars := by
  have hfree : w ∉ arg.term.freeVars := by
    intro hw
    obtain ⟨y, hy, -⟩ := (mem_freeVars_moved harg).1 hw
    exact Term.closed_iff.1 hclosed y hy
  have hle := le_index_of_mem_binders_moved harg
    (Term.mem_binders_of_headVar? hw hfree)
  intro hmem
  have hlt := index_lt_offset_left (a := a) hmem
  omega

section

variable {H : Form × Form → Prop} {c : Context} {v : Var} {arg : Form}
  {type κ : Ty} {body u : Term}
  (hsymbols : arg.context.symbols = c.symbols) (hv : c.var? v = some type)
  (hargtype : arg.type = type) (hbody : c.infer body = .ok κ)
  (hκ : κ ≠ .unknown)
  (hapart : ∀ w, arg.term.headVar? = some w → c.var? w = none)
  (hsub : Substituted H c v arg body u) (hcurried : body.curried v = false)

include hsymbols hv hargtype hbody hκ hapart hsub hcurried

/-- The contexts of both operands together type what substitution
gives. -/
theorem infer_merge_of_substituted (hplain : c.PlainBuiltins) :
    (c.merge arg.context).infer u = .ok κ := by
  have hmerged := Context.symbols_merge hsymbols
  have hleft : c.Within (c.merge arg.context) :=
    fun _ _ h => Context.var?_merge_of_known? h
  have hargtyped : (c.merge arg.context).infer arg.term = .ok type := by
    have htyped := arg.typed
    rw [hargtype] at htyped
    rw [← htyped]
    exact Context.infer_congr (hmerged.trans hsymbols.symm)
      fun w hw => Context.var?_merge_of_none (hapart w hw)
  refine infer_of_substituted (hplain.of_symbols hmerged) (fun σ hσ => ?_) hsub
    (.inl hcurried) hκ (hleft.infer hmerged.symm hbody hκ)
  have hvar := (Context.known?_eq_some.1 hσ).1
  rw [Context.var?_merge, hv, Option.some_or] at hvar
  cases hvar
  exact hargtyped

/-- The context in which the result is typed gives its head variable the
same type. -/
theorem infer_register_of_substituted (hbound : v ∉ body.binders) :
    (((c.eraseVar v).merge arg.context).register u).infer u
      = (c.merge arg.context).infer u := by
  have herased : ((c.eraseVar v).merge arg.context).symbols = c.symbols :=
    Context.symbols_merge (c := c.eraseVar v) hsymbols
  refine Context.infer_congr
    (herased.trans (Context.symbols_merge hsymbols).symm) fun w hw => ?_
  have hvars := Term.mem_vars_of_headVar? hw
  rcases headVar?_of_substituted hsub hcurried hbound hw with
    ⟨hhead, hne⟩ | ⟨hhead, harghead⟩
  · obtain ⟨σ, hσ⟩ := Context.known?_headVar hbody hκ hhead
    obtain ⟨hvar, hσne⟩ := Context.known?_eq_some.1 hσ
    rw [Context.var?_merge_of_known? hσ]
    refine var?_register_of_known? hvars (Context.known?_of_ne ?_ hσne)
    rw [Context.var?_merge, Context.var?_eraseVar, if_neg hne, hvar,
      Option.some_or]
  · -- the head of the body is the parameter, so its type is known
    obtain ⟨σ, hσ⟩ := Context.known?_headVar hbody hκ hhead
    obtain ⟨hvar, hσne⟩ := Context.known?_eq_some.1 hσ
    have heq : type = σ := Option.some.inj (hv.symm.trans hvar)
    have htyped := arg.typed
    rw [hargtype, heq] at htyped
    obtain ⟨ρ, hρ⟩ := Context.known?_headVar htyped hσne harghead
    obtain ⟨hargvar, hρne⟩ := Context.known?_eq_some.1 hρ
    have hnone := hapart w harghead
    have herase : (c.eraseVar v).var? w = none := by
      rw [Context.var?_eraseVar, hnone, ite_self]
    rw [Context.var?_merge_of_none hnone, hargvar]
    refine var?_register_of_known? hvars (Context.known?_of_ne ?_ hρne)
    rw [Context.var?_merge_of_none herase, hargvar]

end

/-- Where the parameter heads no application on the path of inference,
the result has the codomain of the function. -/
theorem type_of_not_curried {c : Context} {f a r : Form} {v : Var}
    {type κ : Ty} {body : Term} (hvars : ∀ v, c.var? v = none)
    (hplain : c.PlainBuiltins) (hf : f.context = c.register f.term)
    (ha : a.context = c.register a.term) (hclosed : a.term.Closed)
    (hnodup : f.term.binders.Nodup) (hterm : f.term = .lambda v type body)
    (htype : f.type = .func type κ) (hr : (apply f a).result = .ok r)
    (hcurried : body.curried v = false) : r.type = κ := by
  obtain ⟨arg, harg, hargtype, hsub, hofTerm⟩ := apply_lambda_eq_ok hterm hr
  have hsubst : Substituted (fun _ => True) f.context v arg body r.term :=
    ⟨hsub, fun _ _ => trivial⟩
  have hbound : v ∉ body.binders := by
    rw [hterm] at hnodup
    exact (List.nodup_cons.1 hnodup).1
  have hfsymbols : f.context.symbols = c.symbols := by
    rw [hf]
    rfl
  have hsymbols : arg.context.symbols = f.context.symbols := by
    rw [context_moved harg, hfsymbols]
    show a.context.symbols = c.symbols
    rw [ha]
    rfl
  have hv : f.context.var? v = some type := by
    rw [hf, hterm]
    exact var?_parameter hvars
  obtain ⟨-, hbody, hκ⟩ : type = type ∧ f.context.infer body = .ok κ
      ∧ κ ≠ .unknown := by
    have htyped := f.typed
    rw [htype, hterm] at htyped
    exact Context.ne_unknown_of_infer_lambda htyped
  have hapart : ∀ w, arg.term.headVar? = some w → f.context.var? w = none := by
    intro w hw
    rw [← Option.not_isSome_iff_eq_none, hf, Context.isSome_var?_register]
    exact not_mem_vars_of_headVar_moved harg hclosed hw
  have hinfer := infer_merge_of_substituted hsymbols hv hargtype hbody hκ hapart
    hsubst hcurried (hplain.of_symbols hfsymbols)
  have hsame := infer_register_of_substituted hsymbols hv hargtype hbody hκ
    hapart hsubst hcurried hbound
  rw [← hsame, ← (result_ofTerm_eq_ok hofTerm).2, r.typed] at hinfer
  exact Except.ok.inj hinfer

-- ======================================================== main theorem

/-- A form has the given context, registered for its term. -/
theorem context_ofTerm {c : Context} {t : Term} {f : Form}
    (h : (ofTerm c t).result = .ok f) : f.context = c.register f.term := by
  obtain ⟨hterm, hcontext⟩ := result_ofTerm_eq_ok h
  rw [hcontext, hterm]

/-- A form that is read has the given context, registered for its term. -/
theorem context_parse {c : Context} {text : String} {f : Form}
    (h : (parse c text).result = .ok f) : f.context = c.register f.term := by
  obtain ⟨t, -, h⟩ := Traced.result_bind_eq_ok h
  exact context_ofTerm h

/-- Types are preserved when an abstraction is applied to a closed form,
both read in a context of symbols, provided that inference comes to no
curried use of the parameter, or that no index is bound at two types in
the run and the result is closed. -/
theorem application_preserves_type {c : Context} {s t : String} {f a r : Form}
    {v : Var} {type κ : Ty} {body : Term} (hvars : ∀ v, c.var? v = none)
    (hplain : c.PlainBuiltins) (hf : (parse c s).result = .ok f)
    (ha : (parse c t).result = .ok a) (hclosed : a.term.Closed)
    (hnodup : f.term.binders.Nodup) (hterm : f.term = .lambda v type body)
    (htype : f.type = .func type κ) (hr : (apply f a).result = .ok r)
    (hsafe : body.curried v = false ∨ (Uniform f a ∧ r.term.Closed)) :
    r.type = κ := by
  have hfc := context_parse hf
  have hac := context_parse ha
  rcases hsafe with hcurried | ⟨huniform, hrclosed⟩
  · exact type_of_not_curried hvars hplain hfc hac hclosed hnodup hterm htype hr
      hcurried
  · have hκ : κ ≠ .unknown := by
      have htyped := f.typed
      rw [htype, hterm] at htyped
      exact (Context.ne_unknown_of_infer_lambda htyped).2.2
    exact type_of_uniform hvars hplain hfc hac htype hκ huniform hr hrclosed

/-- The parameter is curried, the argument takes two arguments, and every
index keeps one type. -/
theorem curried_application_preserves_type :
    ∃ f, (parse .empty "(lambda $0 <e,<e,t>> ($0 x:e y:e))").result = .ok f
      ∧ ∃ a, (parse .empty "(lambda $1 e (lambda $2 e (p:t $1 $2)))").result
          = .ok a
      ∧ ∃ r, (apply f a).result = .ok r ∧ r.type = .truth := by
  have hrun : ∃ f, (parse .empty "(lambda $0 <e,<e,t>> ($0 x:e y:e))").result
        = .ok f
      ∧ ∃ a, (parse .empty "(lambda $1 e (lambda $2 e (p:t $1 $2)))").result
          = .ok a
      ∧ ∃ r, (apply f a).result = .ok r
      ∧ a.term.Closed ∧ f.term.binders.Nodup
      ∧ f.term = .lambda ⟨0⟩ (.func .entity (.func .entity .truth))
          (.app (.ofVar ⟨0⟩) [.atom (.const "x:e" (some .entity)),
            .atom (.const "y:e" (some .entity))])
      ∧ f.type = .func (.func .entity (.func .entity .truth)) .truth
      ∧ Uniform f a ∧ r.term.Closed := by
    decide +kernel
  obtain ⟨f, hf, a, ha, r, hr, hclosed, hnodup, hterm, htype, huniform, hrc⟩ :=
    hrun
  exact ⟨f, hf, a, ha, r, hr,
    application_preserves_type (fun _ => rfl) (fun _ => rfl) hf ha hclosed
      hnodup hterm htype hr (.inr ⟨huniform, hrc⟩)⟩

/-- Applying the argument to the first of two terms consumes its variable
of type `<t,e>`, the application to the second moves a variable of type
`<t,t>` to the same index, and the entry of the first is still there when
the result is typed. -/
theorem stale_entry_changes_type :
    ∃ f, (parse .empty ("(lambda $0 <<t,e>,<<<t,t>,t>,<<t,t>,t>>> "
          ++ "($0 h:<t,e> (lambda $7 <t,t> ($7 k:t))))")).result = .ok f
      ∧ ∃ a, (parse .empty
          "(lambda $9 <t,e> (lambda $1 <<t,t>,t> $1))").result = .ok a
      ∧ ∃ r, (apply f a).result = .ok r
      ∧ f.term.isLambda = true ∧ f.term.Closed ∧ a.term.Closed
      ∧ f.term.binders.Nodup ∧ a.term.binders.Nodup
      ∧ f.type = .func a.type (.func (.func .truth .truth) .truth)
      ∧ r.type = .func (.func .truth .truth) .entity := by
  decide +kernel

end Form

end LogicalForm
