/-
Composing first and applying then, or applying one after the other. Both
ways lead from the forms `f`, `g` and `a` to the same tree: that of `g`
applied to the tree of `f` applied to `a`. The tree of the composition is
an abstraction over what `g` reduces to on the body of `f`, so the law
says that putting `a` for the parameter commutes with that reduction.

It does because `a` is of an atomic type. Such a form is no abstraction,
so putting it for a variable starts no reduction (`Plug`), and it takes
one argument at most, which only a constant with a stated atomic type or
a registered built-in does (`length_le_one_of_applyAll`).

# When the law holds

- Each of the four steps has to be clear (`ClearSteps`). This is so for
  forms that bind no index twice and apply no parameter
  (`clearSteps_of_plain`).
- No application without arguments may stand on an application: `((x))`
  keeps its outer parentheses when `x` is replaced, but loses the inner
  ones (`Term.stacksEmpty`).

`composition_moves_shared_index` is a run in which the first step is not
clear: the parameter of the first form is bound once more in its body, and
the composition moves both.
-/
import LogicalForm.Proofs.PlainSession
import LogicalForm.Proofs.Plug
import LogicalForm.Proofs.ResultContext

namespace LogicalForm

-- ========================================================= atomic types

namespace Context

/-- What is of an atomic type gives something of an atomic type, if it
takes arguments at all. -/
theorem isAtomic_of_infer_app {c : Context} {head : Term} {args : List Term}
    {type τ : Ty} (hhead : c.infer head = .ok type)
    (htype : type.isAtomic = true) (hargs : args ≠ [])
    (h : c.infer (.app head args) = .ok τ) : τ.isAtomic = true := by
  obtain ⟨x, rest, rfl⟩ := List.exists_cons_of_ne_nil hargs
  have hnone : ∀ t, type.afterArgs t (rest.length + 1) ≠ .ok τ :=
    fun t => Ty.afterArgs_succ_of_isAtomic htype t rest.length
  rcases head.exists_atom_or_not with ⟨a, rfl⟩ | hnot
  · cases a with
    | builtin b =>
        cases h
        exact b.isAtomic_resultType
    | var v =>
        obtain ⟨σ, hσ, hafter⟩ := inferAtomHead_var_eq_ok.1 h
        have hvar := inferAtom_var_eq_ok.1 hhead
        rw [(known?_eq_some.1 hσ).1] at hvar
        cases hvar
        exact absurd hafter (hnone _)
    | const text stated =>
        have hor := inferAtom_const_eq_ok.1 hhead
        have hafter : c.inferAtomHead (.const text stated) (rest.length + 1)
            = .ok τ := h
        unfold inferAtomHead at hafter
        cases hs : c.symbol? text with
        | some σ =>
            rw [hs, Option.some_or] at hor
            cases hor
            simp only [hs] at hafter
            exact absurd hafter (hnone _)
        | none =>
            rw [hs, Option.none_or] at hor
            subst hor
            simp only [hs, htype, if_true] at hafter
            cases hafter
            exact htype
  · obtain ⟨σ, hσ, hafter⟩ := infer_app_eq_ok hnot h
    rw [hhead] at hσ
    cases hσ
    exact absurd hafter (hnone _)

end Context

-- ========================================================== empty stacks

namespace Term

/-- The term is an application. -/
def isApp : Term → Bool
  | app .. => true
  | _ => false

mutual
/-- Somewhere an application without arguments has an application as its
head. -/
def stacksEmpty : Term → Bool
  | .atom _ => false
  | .lambda _ _ body => stacksEmpty body
  | .binder _ _ args => stacksEmptyAny args
  | .app head args =>
    (args.isEmpty && head.isApp) || stacksEmpty head || stacksEmptyAny args
/-- Some term of the list stacks an empty application. -/
def stacksEmptyAny : List Term → Bool
  | [] => false
  | t :: ts => stacksEmpty t || stacksEmptyAny ts
end

@[simp] theorem stacksEmptyAny_eq_any (ts : List Term) :
    stacksEmptyAny ts = ts.any stacksEmpty := by
  induction ts with
  | nil => rfl
  | cons t ts ih => rw [stacksEmptyAny, ih, List.any_cons]

/-- A term and its tree are applications alike. -/
theorem isApp_toScoped (Γ : List Var) (t : Term) :
    (t.toScoped Γ).isApp = t.isApp := by
  cases t with
  | atom a =>
      cases a with
      | var v =>
          rw [toScoped, Scoped.ofVar]
          split <;> rfl
      | _ => rfl
  | _ => rfl

theorem isLambda_toScoped (Γ : List Var) (t : Term) :
    (t.toScoped Γ).isLambda = t.isLambda := by
  cases t with
  | atom a =>
      cases a with
      | var v =>
          rw [toScoped, Scoped.ofVar]
          split <;> rfl
      | _ => rfl
  | _ => rfl

/-- The tree of a term without empty stacks is tight. -/
theorem tight_toScoped {t : Term} (h : t.stacksEmpty = false) (Γ : List Var) :
    (t.toScoped Γ).Tight := by
  induction t generalizing Γ with
  | atom a =>
      cases a with
      | var v =>
          rw [toScoped, Scoped.ofVar]
          split
          · exact .bound _
          · exact .atom _
      | builtin b => exact .atom _
      | const text stated => exact .atom _
  | lambda w type body ih => exact .lambda (ih h _)
  | binder op w args ih =>
      rw [stacksEmpty, stacksEmptyAny_eq_any, List.any_eq_false] at h
      rw [toScoped, toScopedAll_eq_map]
      exact .binder (List.forall_mem_map.2 fun t ht =>
        ih t ht (by simpa using h t ht) _)
  | app head args ihHead ihArgs =>
      rw [stacksEmpty, stacksEmptyAny_eq_any, Bool.or_eq_false_iff,
        Bool.or_eq_false_iff, List.any_eq_false] at h
      obtain ⟨⟨hempty, hhead⟩, hargs⟩ := h
      rw [toScoped, toScopedAll_eq_map]
      refine .app (fun hnil => ?_) (ihHead hhead Γ)
        (List.forall_mem_map.2 fun t ht => ihArgs t ht (by simpa using hargs t ht) Γ)
      rw [List.map_eq_nil_iff.1 hnil] at hempty
      rw [isApp_toScoped]
      simpa using hempty

/-- A variable that does not occur heads nothing. -/
theorem heads_eq_false_of_not_mem {v : Var} {t : Term}
    (hbound : v ∉ t.binders) (hfree : v ∉ t.freeVars) : t.heads v = false := by
  induction t with
  | atom a => rfl
  | lambda w type body ih =>
      refine heads_lambda_eq_false.2 fun hw => ih (fun hv => hbound ?_)
        fun hv => hfree ?_
      · exact mem_binders_lambda.2 (.inr hv)
      · exact mem_freeVars_lambda.2 ⟨hv, hw.symm⟩
  | binder op w args ih =>
      have hw : v ≠ w := fun e => hbound (mem_binders_binder.2 (.inl e))
      refine heads_binder_eq_false.2 fun t ht =>
        ih t ht (fun hv => hbound ?_) fun hv => hfree ?_
      · exact mem_binders_binder.2 (.inr ⟨t, ht, hv⟩)
      · exact mem_freeVars_binder.2 ⟨⟨t, ht, hv⟩, hw⟩
  | app head args ihHead ihArgs =>
      refine heads_app_eq_false.2 ⟨⟨?_, ihHead (fun hv => hbound ?_)
        fun hv => hfree ?_⟩, fun t ht => ihArgs t ht (fun hv => hbound ?_)
        fun hv => hfree ?_⟩
      · rintro rfl
        exact hfree (mem_freeVars_app.2 (.inl (mem_freeVars_atom.2 rfl)))
      · exact mem_binders_app.2 (.inl hv)
      · exact mem_freeVars_app.2 (.inl hv)
      · exact mem_binders_app.2 (.inr ⟨t, ht, hv⟩)
      · exact mem_freeVars_app.2 (.inr ⟨t, ht, hv⟩)

end Term

namespace Form

-- ======================================================== one signature

/-- Applying forms over the same symbols gives one over these symbols. -/
theorem symbols_apply {f a r : Form}
    (hsame : a.context.symbols = f.context.symbols)
    (hr : (apply f a).result = .ok r) :
    r.context.symbols = f.context.symbols := by
  refine Table.ext_find? fun name => ?_
  show r.context.symbol? name = f.context.symbol? name
  rw [symbol?_apply hr, Context.symbol?_congr hsame, Option.or_self]

/-- So does composing them. -/
theorem symbols_compose {f g r : Form}
    (hsame : g.context.symbols = f.context.symbols)
    (hr : (compose f g).result = .ok r) :
    r.context.symbols = f.context.symbols := by
  refine Table.ext_find? fun name => ?_
  show r.context.symbol? name = f.context.symbol? name
  rw [symbol?_compose hr, Context.symbol?_congr hsame, Option.or_self]

-- ==================================================== arguments of atoms

/-- The context of a wrapped form still types the form inside. -/
theorem infer_wrapped {f a r : Form} (hlam : f.term.isLambda = false)
    (hsame : a.context.symbols = f.context.symbols)
    (hr : (apply f a).result = .ok r) (htype : f.type ≠ .unknown) :
    r.context.infer f.term = .ok f.type := by
  obtain ⟨arg, harg, hrterm, hrcontext⟩ := apply_wrap_eq_ok hlam hr
  refine Context.Within.infer (fun v σ h => ?_) (symbols_apply hsame hr).symm
    f.typed htype
  have hmem : v ∈ r.term.vars := by
    have hsome : (f.context.var? v).isSome := by
      rw [(Context.known?_eq_some.1 h).1]
      rfl
    rw [hrterm]
    exact Term.mem_vars_app.2 (.inl (isSome_var?.1 hsome))
  rw [hrcontext]
  refine var?_register_of_known? hmem ?_
  exact Context.known?_of_ne (Context.var?_merge_of_known? h)
    (Context.ne_unknown_of_known? h)

/-- A form of an atomic type takes one argument at most. -/
theorem length_le_one_of_applyAll {c : Context} {arg g : Form} {ts : List Term}
    (hlam : arg.term.isLambda = false) (hatomic : arg.type.isAtomic = true)
    (hsame : arg.context.symbols = c.symbols)
    (h : (applyAll apply c arg ts).result = .ok g) : ts.length ≤ 1 := by
  cases ts with
  | nil => exact Nat.zero_le 1
  | cons x rest =>
      cases rest with
      | nil => exact Nat.le_refl 1
      | cons y rest =>
          obtain ⟨a, ha, h⟩ := Traced.result_bind_eq_ok h
          obtain ⟨s, hs, h⟩ := Traced.result_bind_eq_ok h
          obtain ⟨b, hb, h⟩ := Traced.result_bind_eq_ok h
          obtain ⟨r, hr, -⟩ := Traced.result_bind_eq_ok h
          have htyped : ∀ {b t}, (ofTerm c t).result = .ok b →
              b.context.symbols = arg.context.symbols := by
            intro b t hb
            rw [(result_ofTerm_eq_ok hb).2, Context.symbols_register, hsame]
          obtain ⟨a', -, hsterm, -⟩ := apply_wrap_eq_ok hlam hs
          have hinner := infer_wrapped hlam (htyped ha) hs
            (Ty.known_of_isAtomic hatomic).ne_unknown
          have hstype : s.type.isAtomic = true := by
            have hstyped := s.typed
            rw [hsterm] at hstyped
            exact Context.isAtomic_of_infer_app hinner hatomic
              (List.cons_ne_nil _ _) hstyped
          -- the result of the first argument is an application, and the
          -- type of an application is what its arguments are counted from
          have hslam : s.term.isLambda = false := by rw [hsterm]; rfl
          have hssame := (htyped hb).trans (symbols_apply (htyped ha) hs).symm
          have houter := infer_wrapped hslam hssame hr
            (Ty.known_of_isAtomic hstype).ne_unknown
          obtain ⟨b', -, hrterm, -⟩ := apply_wrap_eq_ok hslam hr
          have hrtyped := r.typed
          rw [hrterm] at hrtyped
          have hatom : s.term.isAtom = false := by rw [hsterm]; rfl
          obtain ⟨σ, hσ, hafter⟩ := Context.infer_app_eq_ok hatom hrtyped
          rw [houter] at hσ
          cases hσ
          exact absurd hafter (Ty.afterArgs_succ_of_isAtomic hstype _ 0)

-- ================================================== reading and plugging

/-- Where the variable does not occur, it is not applied. -/
theorem sparing_of_not_free {v : Var} {t : Term} {Δ Γ : List Var}
    (h : v ∈ t.freeVars → v ∈ Δ) :
    (t.toScoped (Δ ++ v :: Γ)).Sparing Δ.length := by
  induction t generalizing Δ with
  | atom a =>
      cases a with
      | var w =>
          rw [Term.toScoped, Scoped.ofVar]
          split
          · exact .bound _
          · exact .atom _
      | builtin b => exact .atom _
      | const text stated => exact .atom _
  | lambda w type body ih =>
      refine .lambda (ih (Δ := w :: Δ) fun hv => ?_)
      by_cases hw : v = w
      · exact List.mem_cons.2 (.inl hw)
      · exact List.mem_cons_of_mem _ (h (Term.mem_freeVars_lambda.2 ⟨hv, hw⟩))
  | binder op w args ih =>
      rw [Term.toScoped, Term.toScopedAll_eq_map]
      refine .binder (List.forall_mem_map.2 fun t ht =>
        ih t ht (Δ := w :: Δ) fun hv => ?_)
      by_cases hw : v = w
      · exact List.mem_cons.2 (.inl hw)
      · exact List.mem_cons_of_mem _
          (h (Term.mem_freeVars_binder.2 ⟨⟨t, ht, hv⟩, hw⟩))
  | app head args ihHead ihArgs =>
      rw [Term.toScoped, Term.toScopedAll_eq_map]
      refine .app (fun hbound => ?_)
        (ihHead fun hv => h (Term.mem_freeVars_app.2 (.inl hv)))
        (List.forall_mem_map.2 fun t ht =>
          ihArgs t ht fun hv => h (Term.mem_freeVars_app.2 (.inr ⟨t, ht, hv⟩)))
      obtain ⟨rfl, hnot⟩ := Scoped.eq_of_isBound hbound
      exact absurd (h (Term.mem_freeVars_app.2
        (.inl (Term.mem_freeVars_atom.2 rfl)))) hnot

/-- What substitution has gone through applies the variable sparingly, if
the form substituted takes one argument at most. -/
theorem sparing_of_substituted {H : Form × Form → Prop} {c : Context} {v : Var}
    {arg : Form} (hlength : ∀ ts g, (applyAll apply c arg ts).result = .ok g →
      ts.length ≤ 1) {t u : Term} (h : Substituted H c v arg t u)
    (Δ Γ : List Var) : (t.toScoped (Δ ++ v :: Γ)).Sparing Δ.length := by
  revert Δ
  refine substitute_induct (P := fun t _ => ∀ Δ : List Var,
    (t.toScoped (Δ ++ v :: Γ)).Sparing Δ.length)
    ?var ?atom ?shadowed ?lambda ?binder ?curried ?headed h
  case var =>
    intro Δ
    rw [Term.toScoped, Scoped.ofVar]
    split
    · exact .bound _
    · exact .atom _
  case atom =>
    intro a ha Δ
    refine sparing_of_not_free fun hv => ?_
    exact absurd (Term.mem_freeVars_atom.1 hv) ha
  case shadowed =>
    intro type body Δ
    refine sparing_of_not_free fun hv => ?_
    exact absurd rfl (Term.mem_freeVars_lambda.1 hv).2
  case lambda =>
    intro w type body body' _ _ ih Δ
    exact .lambda (ih (w :: Δ))
  case binder =>
    intro op w args args' ih Δ
    rw [Term.toScoped, Term.toScopedAll_eq_map]
    refine .binder (List.forall_mem_map.2 fun t ht => ?_)
    obtain ⟨u, -, -, hP⟩ := exists_right_of_mem ih ht
    exact hP (w :: Δ)
  case curried =>
    intro args args' g ih _ hg Δ
    rw [Term.toScoped, Term.toScopedAll_eq_map]
    refine .app (fun _ => ?_) ?_ (List.forall_mem_map.2 fun t ht => ?_)
    · rw [List.length_map, ih.length_eq]
      exact hlength args' g hg
    · rw [Term.toScoped, Scoped.ofVar]
      split
      · exact .bound _
      · exact .atom _
    · obtain ⟨u, -, -, hP⟩ := exists_right_of_mem ih ht
      exact hP Δ
  case headed =>
    intro head head' args args' hhead _ ihHead ihArgs Δ
    rw [Term.toScoped, Term.toScopedAll_eq_map]
    refine .app (fun hbound => ?_) (ihHead Δ)
      (List.forall_mem_map.2 fun t ht => ?_)
    · exact absurd (Scoped.eq_of_isBound hbound).1 hhead
    · obtain ⟨u, -, -, hP⟩ := exists_right_of_mem ihArgs ht
      exact hP Δ

/-- A tree in which the variable does not occur stays what it is. -/
theorem plug_of_closed {a : Scoped} (ha : a.isLambda = false) {t : Term}
    (hclosed : t.Closed) (v : Var) :
    Scoped.plug a 0 (t.toScoped [v]) = t.toScoped [] := by
  have hnot : v ∈ t.freeVars → v ∈ ([] : List Var) :=
    fun hv => absurd hv (Term.closed_iff.1 hclosed v)
  have hinst : Scoped.instantiate (Scoped.applyWithin 0) a 0 (t.toScoped [v])
      = some (t.toScoped []) :=
    Scoped.instantiate_of_not_free (Δ := []) (Γ := []) hnot
  exact (Scoped.eq_plug_of_instantiate ha
    (sparing_of_not_free (Δ := []) (Γ := []) hnot) hinst).symm

/-- A clear application of an abstraction to a closed form of an atomic
type plugs the form into the body. -/
theorem toScoped_apply_of_isAtomic {f a r : Form} {v : Var} {type : Ty}
    {body : Term} (hterm : f.term = .lambda v type body)
    (hatomic : type.isAtomic = true) (hclosed : a.term.Closed)
    (hsame : a.context.symbols = f.context.symbols)
    (hclear : ClearRun f a) (hr : (apply f a).result = .ok r) :
    a.term.isLambda = false
      ∧ r.term.toScoped []
        = Scoped.plug (a.term.toScoped []) 0 (body.toScoped [v]) := by
  obtain ⟨arg, harg, hargtype, hsub, -⟩ := apply_lambda_eq_ok hterm hr
  have harglam : arg.term.isLambda = false := by
    have htyped := arg.typed
    rw [hargtype] at htyped
    cases hargterm : arg.term with
    | lambda w σ t =>
        rw [hargterm] at htyped
        obtain ⟨κ, -, rfl⟩ := Context.infer_lambda_eq_ok htyped
        cases hatomic
    | _ => rfl
  have halam : a.term.isLambda = false := by
    rwa [term_moved harg, Term.isLambda_mapVars] at harglam
  have hsubst : Substituted (fun _ => True) f.context v arg body r.term :=
    ⟨hsub, fun _ _ => trivial⟩
  have hsparing := sparing_of_substituted (fun ts g hg =>
    length_le_one_of_applyAll harglam (hargtype ▸ hatomic)
      ((symbols_moved harg).trans hsame) hg) hsubst [] []
  obtain ⟨n, hn⟩ := reduces_of_clearRun hclosed hclear hr
  refine ⟨halam, ?_⟩
  rw [hterm] at hn
  cases n with
  | zero => cases hn
  | succ n =>
      exact Scoped.eq_plug_of_instantiate
        ((Term.isLambda_toScoped [] a.term).trans halam) hsparing hn

-- ========================================================= clear steps

/-- One run of the composition decides whether it is clear. -/
theorem clearComposition_of_steps {f g inner outer : Form} {v : Var}
    {type : Ty} {body : Term} (hterm : f.term = .lambda v type body)
    (hinner : (ofTerm f.context body).result = .ok inner)
    (houter : (moved f g).result = .ok outer) (hclear : ClearRun outer inner) :
    ClearComposition f g := by
  intro v' type' body' inner' outer' hterm' hinner' houter'
  rw [hterm] at hterm'
  cases hterm'
  rw [hinner] at hinner'
  cases hinner'
  rw [houter] at houter'
  cases houter'
  exact hclear

instance (f g : Form) : Decidable (ClearComposition f g) :=
  match hterm : f.term with
  | .lambda _ _ body =>
    match hinner : (ofTerm f.context body).result, houter : (moved f g).result with
    | .ok inner, .ok outer =>
      decidable_of_iff (ClearRun outer inner)
        ⟨clearComposition_of_steps hterm hinner houter,
          fun h => h _ _ _ inner outer hterm hinner houter⟩
    | .error _, _ => isTrue fun _ _ _ _ _ h hin _ => by
        rw [hterm] at h
        cases h
        rw [hinner] at hin
        cases hin
    | _, .error _ => isTrue fun _ _ _ _ _ _ _ hout => by
        rw [houter] at hout
        cases hout
  | .atom _ | .binder .. | .app .. => isTrue fun _ _ _ _ _ h _ _ => by
      rw [hterm] at h
      cases h

/-- The steps on both ways are clear: the composition, its application,
and the two applications one after the other. -/
structure ClearSteps (f g a fg fa : Form) : Prop where
  composition : ClearComposition f g
  composite : ClearRun fg a
  first : ClearRun f a
  second : ClearRun g fa

instance (f g a fg fa : Form) : Decidable (ClearSteps f g a fg fa) :=
  decidable_of_iff
    (ClearComposition f g ∧ ClearRun fg a ∧ ClearRun f a ∧ ClearRun g fa)
    ⟨fun h => ⟨h.1, h.2.1, h.2.2.1, h.2.2.2⟩,
      fun h => ⟨h.composition, h.composite, h.first, h.second⟩⟩

-- ====================================================== plain operands

/-- Substitution for a variable that heads nothing makes no other variable
a head. -/
theorem heads_of_substituted {H : Form × Form → Prop} {c : Context}
    {w x : Var} {arg : Form} (harg : arg.term.heads x = false) {t u : Term}
    (h : Substituted H c w arg t u) (hw : t.heads w = false)
    (hx : t.heads x = false) :
    u.heads x = false ∧ (u = .ofVar x → t = .ofVar w ∨ t = .ofVar x) := by
  revert hw hx
  refine substitute_induct (P := fun t u => t.heads w = false →
    t.heads x = false →
    u.heads x = false ∧ (u = .ofVar x → t = .ofVar w ∨ t = .ofVar x))
    ?var ?atom ?shadowed ?lambda ?binder ?curried ?headed h
  case var =>
    intro _ _
    exact ⟨harg, fun _ => .inl rfl⟩
  case atom =>
    intro a _ _ hx
    exact ⟨hx, .inr⟩
  case shadowed =>
    intro type body _ hx
    exact ⟨hx, .inr⟩
  case lambda =>
    intro y type body body' hy _ ih hw hx
    refine ⟨Term.heads_lambda_eq_false.2 fun hyx => ?_, fun h => by cases h⟩
    exact (ih (Term.heads_lambda_eq_false.1 hw hy)
      (Term.heads_lambda_eq_false.1 hx hyx)).1
  case binder =>
    intro op y args args' ih hw hx
    refine ⟨Term.heads_binder_eq_false.2 fun u hu => ?_, fun h => by cases h⟩
    obtain ⟨t, ht, -, hP⟩ := exists_left_of_mem ih hu
    exact (hP (Term.heads_binder_eq_false.1 hw t ht)
      (Term.heads_binder_eq_false.1 hx t ht)).1
  case curried =>
    intro args args' g _ _ _ hw _
    exact absurd rfl (Term.heads_app_eq_false.1 hw).1.1
  case headed =>
    intro head head' args args' hhead _ ihHead ihArgs hw hx
    obtain ⟨⟨-, hwHead⟩, hwArgs⟩ := Term.heads_app_eq_false.1 hw
    obtain ⟨⟨hxne, hxHead⟩, hxArgs⟩ := Term.heads_app_eq_false.1 hx
    obtain ⟨hheads, hvar⟩ := ihHead hwHead hxHead
    refine ⟨Term.heads_app_eq_false.2 ⟨⟨fun heq => ?_, hheads⟩, fun u hu => ?_⟩,
      fun h => by cases h⟩
    · rcases hvar heq with heq | heq
      · exact hhead heq
      · exact hxne heq
    · obtain ⟨t, ht, -, hP⟩ := exists_left_of_mem ihArgs hu
      exact (hP (hwArgs t ht) (hxArgs t ht)).1

/-- A variable that the argument does not bind keeps its index in the move,
and heads nothing there if it did not before. -/
theorem heads_moved_eq_false {f a arg : Form} {v : Var}
    (harg : (moved f a).result = .ok arg) (hv : v.index < offset f a)
    (hnot : v ∉ a.term.binders) (hheads : a.term.heads v = false) :
    arg.term.heads v = false := by
  by_cases hmem : v ∈ a.term.vars
  · have hmoved := Term.heads_mapVars (f := relocate f a) relocate_inj hmem
      (fun _ hy => hy) hheads
    rwa [relocate_of_not_mem hnot, ← term_moved harg] at hmoved
  · refine Term.heads_eq_false_of_not_mem (fun hbound => ?_) fun hfree => ?_
    · have hle := le_index_of_mem_binders_moved harg hbound
      omega
    · obtain ⟨y, hy, heq⟩ := (mem_freeVars_moved harg).1 hfree
      by_cases hybound : y ∈ a.term.binders
      · have hindex := congrArg Var.index heq
        rw [relocate_of_mem hybound, Var.index_shift] at hindex
        omega
      · rw [relocate_of_not_mem hybound] at heq
        exact hmem (heq ▸ Term.mem_vars_of_mem_freeVars hy)

/-- The composition of plain forms is plain. -/
theorem plain_compose {f g r : Form} (hf : f.Plain) (hg : g.Plain)
    (hspread : f.term.Spread) (hclosed : g.term.Closed)
    (hlam : g.term.isLambda = true) (hr : (compose f g).result = .ok r) :
    r.Plain := by
  obtain ⟨v, type, body, inner, outer, s, hterm, hinner, houter, hs, hr⟩ :=
    compose_steps hr
  have hrterm : r.term = .lambda v type s.term := (result_ofTerm_eq_ok hr).1
  intro v' type' body' hrterm'
  rw [hrterm] at hrterm'
  cases hrterm'
  have hv := (index_lt_offset_of_lambda (a := g) hterm).1
  have hpast := offset_lt_offset_of_isLambda houter hlam inner
  -- the parameter does not occur in the moved second form
  have hvouter : outer.term.heads v = false := by
    refine Term.heads_eq_false_of_not_mem (fun hmem => ?_) fun hmem => ?_
    · have hle := le_index_of_mem_binders_moved houter hmem
      omega
    · obtain ⟨y, hy, -⟩ := (mem_freeVars_moved houter).1 hmem
      exact Term.closed_iff.1 hclosed y hy
  have houtlam : outer.term.isLambda = true := by
    rw [term_moved houter, Term.isLambda_mapVars, hlam]
  cases houterm : outer.term with
  | lambda w σ t =>
      obtain ⟨arg, harg, -, hsub, -⟩ := apply_lambda_eq_ok houterm hs
      have hsubst : Substituted (fun _ => True) outer.context w arg t s.term :=
        ⟨hsub, fun _ _ => trivial⟩
      have hwv : w ≠ v := by
        have hbound : w ∈ outer.term.binders := by
          rw [houterm]
          exact Term.mem_binders_lambda.2 (.inl rfl)
        have hle := le_index_of_mem_binders_moved houter hbound
        rintro rfl
        omega
      rw [houterm] at hvouter
      refine (heads_of_substituted ?_ hsubst (hg.moved houter w σ t houterm)
        (Term.heads_lambda_eq_false.1 hvouter hwv)).1
      have hbody : inner.term = body := (result_ofTerm_eq_ok hinner).1
      have hnot : v ∉ inner.term.binders := by
        rw [hterm] at hspread
        cases hspread with
        | lambda h _ => exact hbody ▸ h
      exact heads_moved_eq_false harg (by omega) hnot (hbody ▸ hf v type body hterm)
  | _ =>
      rw [houterm] at houtlam
      cases houtlam

/-- The steps are clear for closed forms that bind no index in the scope
of another binder of that index, the first two applying no parameter. -/
theorem clearSteps_of_plain {f g a fg fa : Form} (hf : f.Plain) (hg : g.Plain)
    (hlam : g.term.isLambda = true) (hfs : f.term.Spread)
    (hgs : g.term.Spread) (hfc : f.term.Closed) (hgc : g.term.Closed)
    (hac : a.term.Closed)
    (hfg : (compose f g).result = .ok fg) (hfa : (apply f a).result = .ok fa) :
    ClearSteps f g a fg fa := by
  have hsplit : ∀ x ∈ a.term.binders, x ∉ a.term.freeVars :=
    fun x _ => Term.closed_iff.1 hac x
  have hfirst := clearRun_of_plain hf hfs hsplit
  refine ⟨clearComposition_of_plain hg hfs hfc hgs, ?_, hfirst, ?_⟩
  · exact clearRun_of_plain (plain_compose hf hg hfs hgc hlam hfg)
      (spread_compose hg (.inr hlam) hfs hgs hfg) hsplit
  · refine clearRun_of_plain hg hgs fun x _ hx => ?_
    rcases mem_freeVars_apply hfirst hfa hx with hx | hx
    · exact Term.closed_iff.1 hfc x hx
    · exact Term.closed_iff.1 hac x hx

-- ============================================================== the law

/-- Both ways succeed: `fg` is the composition and gives `r`, and the two
applications give `fa` and `s`. -/
def BothWays (f g a : Form) (P : Form → Form → Form → Form → Prop) : Prop :=
  ∃ fg, (compose f g).result = .ok fg ∧ ∃ r, (apply fg a).result = .ok r
    ∧ ∃ fa, (apply f a).result = .ok fa ∧ ∃ s, (apply g fa).result = .ok s
    ∧ P fg r fa s

instance (f g a : Form) (P : Form → Form → Form → Form → Prop)
    [∀ fg r fa s, Decidable (P fg r fa s)] : Decidable (BothWays f g a P) :=
  inferInstanceAs (Decidable (∃ fg, (compose f g).result = .ok fg
    ∧ ∃ r, (apply fg a).result = .ok r ∧ ∃ fa, (apply f a).result = .ok fa
    ∧ ∃ s, (apply g fa).result = .ok s ∧ P fg r fa s))

/-- Composing two forms and applying the composition to a third gives the
tree that applying one after the other gives, for closed forms over the
same symbols and a parameter of an atomic type, provided that all steps
are clear and that neither form stacks an empty application. -/
theorem composition_then_application {f g a fg fa r s : Form} {v : Var}
    {type : Ty} {body : Term} (hterm : f.term = .lambda v type body)
    (hatomic : type.isAtomic = true) (hf : f.term.Closed) (hg : g.term.Closed)
    (ha : a.term.Closed) (hgs : g.context.symbols = f.context.symbols)
    (has : a.context.symbols = f.context.symbols)
    (hfg : (compose f g).result = .ok fg) (hr : (apply fg a).result = .ok r)
    (hfa : (apply f a).result = .ok fa) (hs : (apply g fa).result = .ok s)
    (hclear : ClearSteps f g a fg fa) (hfe : f.term.stacksEmpty = false)
    (hge : g.term.stacksEmpty = false) :
    r.term.toScoped [] = s.term.toScoped [] := by
  have hgiven : ∀ x, x = g → x.term.Closed := by
    intro x hx
    rw [hx]
    exact hg
  -- the composition is an abstraction over the reduced body
  obtain ⟨v', type', body', S, hterm', htree, hreduces⟩ :=
    composition_reduces_trees hgiven (.given rfl) hclear.composition hfg
  rw [hterm] at hterm'
  cases hterm'
  obtain ⟨v'', type'', body'', -, -, t, hterm'', -, -, -, hretyped⟩ :=
    compose_steps hfg
  have hfgterm : fg.term = .lambda v'' type'' t.term :=
    (result_ofTerm_eq_ok hretyped).1
  rw [hterm] at hterm''
  cases hterm''
  have hS : t.term.toScoped [v] = S := by
    rw [hfgterm] at htree
    exact (Scoped.lambda.inj htree).2
  -- both applications of an abstraction plug the argument
  obtain ⟨halam, hfatree⟩ :=
    toScoped_apply_of_isAtomic hterm hatomic ha has hclear.first hfa
  obtain ⟨-, hrtree⟩ := toScoped_apply_of_isAtomic hfgterm hatomic ha
    (has.trans (symbols_compose hgs hfg).symm) hclear.composite hr
  rw [hS] at hrtree
  have hAlam : (a.term.toScoped []).isLambda = false :=
    (Term.isLambda_toScoped [] a.term).trans halam
  -- plugging commutes with the reduction that the composition made
  have hbody : body.stacksEmpty = false := by
    rw [hterm] at hfe
    exact hfe
  have hplugged := hreduces.plug hAlam (Term.tight_toScoped hge [v])
    (Term.tight_toScoped hbody [v]) 0
  rw [plug_of_closed hAlam hg v, ← hfatree, ← hrtree] at hplugged
  have hfaclosed : fa.term.Closed := by
    rw [Term.closed_iff] at hf ha ⊢
    intro y hy
    rcases mem_freeVars_apply hclear.first hfa hy with hy | hy
    · exact hf y hy
    · exact ha y hy
  exact hplugged.unique (reduces_of_clearRun hfaclosed hclear.second hs)

/-- The second form applies its parameter twice, the argument binds the
indices of both parameters, and the composition moves binders of the
first form. -/
theorem composition_with_determiner :
    ∃ f, (parse .empty ("(lambda $0 e (lambda $1 e "
            ++ "(r:t $0 (the $2 (q:t $2 $1)))))")).result = .ok f
      ∧ ∃ g, (parse .empty ("(lambda $0 <e,t> (the $1 (and ($0 $1) "
            ++ "(exists $2 ($0 $2)))))")).result = .ok g
      ∧ ∃ a, (parse .empty "(the $0 (q:t $0))").result = .ok a
      ∧ BothWays f g a fun _ r _ s =>
        r.term ≠ s.term ∧ r.term.toScoped [] = s.term.toScoped [] := by
  have hrun : ∃ f, (parse .empty ("(lambda $0 e (lambda $1 e "
            ++ "(r:t $0 (the $2 (q:t $2 $1)))))")).result = .ok f
      ∧ ∃ g, (parse .empty ("(lambda $0 <e,t> (the $1 (and ($0 $1) "
            ++ "(exists $2 ($0 $2)))))")).result = .ok g
      ∧ ∃ a, (parse .empty "(the $0 (q:t $0))").result = .ok a
      ∧ f.term = .lambda ⟨0⟩ .entity (.lambda ⟨1⟩ .entity
          (.app (.atom (.const "r:t" (some .truth))) [.ofVar ⟨0⟩,
            .binder .the ⟨2⟩ [.app (.atom (.const "q:t" (some .truth)))
              [.ofVar ⟨2⟩, .ofVar ⟨1⟩]]]))
      ∧ f.term.Closed ∧ g.term.Closed ∧ a.term.Closed
      ∧ g.context.symbols = f.context.symbols
      ∧ a.context.symbols = f.context.symbols
      ∧ f.term.stacksEmpty = false ∧ g.term.stacksEmpty = false
      ∧ BothWays f g a fun fg r fa s =>
          r.term ≠ s.term ∧ ClearSteps f g a fg fa := by
    decide +kernel
  obtain ⟨f, hf, g, hg, a, ha, hterm, hfc, hgc, hac, hgs, has, hfe, hge, fg,
    hfg, r, hr, fa, hfa, s, hs, hne, hclear⟩ := hrun
  exact ⟨f, hf, g, hg, a, ha, fg, hfg, r, hr, fa, hfa, s, hs, hne,
    composition_then_application hterm rfl hfc hgc hac hgs has hfg hr hfa hs
      hclear hfe hge⟩

/-- Without clarity the trees may differ: the parameter is bound once more
in the body, so the composition moves it along with its namesake, and no
argument can get to it. -/
theorem composition_moves_shared_index :
    ∃ f, (parse .empty ("(lambda $0 e (and (p:t $0) "
            ++ "(lambda $0 e (q:t $0))))")).result = .ok f
      ∧ ∃ g, (parse .empty "(lambda $0 t (not $0))").result = .ok g
      ∧ ∃ a, (parse .empty "a:e").result = .ok a
      ∧ f.term.isLambda = true ∧ g.term.isLambda = true
      ∧ f.type = .func .entity .truth
      ∧ f.term.Closed ∧ g.term.Closed ∧ a.term.Closed
      ∧ BothWays f g a fun _ r _ s => r.term.toScoped [] ≠ s.term.toScoped [] := by
  have hrun : ∃ f, (parse .empty ("(lambda $0 e (and (p:t $0) "
            ++ "(lambda $0 e (q:t $0))))")).result = .ok f
      ∧ ∃ g, (parse .empty "(lambda $0 t (not $0))").result = .ok g
      ∧ ∃ a, (parse .empty "a:e").result = .ok a
      ∧ f.term.isLambda = true ∧ g.term.isLambda = true
      ∧ f.type = .func .entity .truth
      ∧ f.term.Closed ∧ g.term.Closed ∧ a.term.Closed
      ∧ BothWays f g a fun _ r _ s => r.term.freeVars = [⟨2⟩] ∧ s.term.freeVars = [] := by
    decide +kernel
  obtain ⟨f, hf, g, hg, a, ha, hfl, hgl, htype, hfc, hgc, hac, fg, hfg, r, hr,
    fa, hfa, s, hs, hrfree, hsfree⟩ := hrun
  refine ⟨f, hf, g, hg, a, ha, hfl, hgl, htype, hfc, hgc, hac, fg, hfg, r, hr,
    fa, hfa, s, hs, fun heq => ?_⟩
  have hmem : ⟨2⟩ ∈ (r.term.toScoped []).freeVars := by
    rw [Term.mem_freeVars_toScoped, hrfree]
    exact ⟨List.mem_singleton_self _, List.not_mem_nil⟩
  rw [heq, Term.mem_freeVars_toScoped, hsfree] at hmem
  cases hmem.1

end Form

end LogicalForm
