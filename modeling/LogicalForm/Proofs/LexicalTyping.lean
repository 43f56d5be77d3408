/-
One table for all variables, and scopes. Registration fills one context
with the variables of a whole term, each with the type of the first place
that mentions it, and inference looks every occurrence up in this context
wherever it stands. Read lexically, an occurrence has the type of the
innermost binder of its index around it.

# When the two agree

In a closed term the first mention of a variable binds it, so a term that
binds no index at two types finds the types of all of its binders in the
registered context (`agreesWith_register`). From there one induction over
the term goes along with the scopes: what is in scope agrees with the
context on the free variables of the subterm at hand (`Scope.Resolves`),
and passing a binder keeps it so.

`inferScoped` has the rules of `Context.infer`. It differs in the one
respect that it carries a scope, which a lambda extends.
-/
import LogicalForm.Proofs.FullTyping

namespace LogicalForm

-- =============================================================== scopes

/-- The variables in scope with the types that their binders state, the
innermost binder first. -/
abbrev Scope := List (Var × Ty)

namespace Scope

/-- The context in which every variable has the type of its innermost
binder in scope. -/
def context (symbols : Table String Ty) (Γ : Scope) : Context :=
  ⟨.ofList Γ, symbols⟩

/-- The context of a scope says of each variable what the scope says. -/
theorem var?_context (symbols : Table String Ty) (Γ : Scope) (v : Var) :
    (Γ.context symbols).var? v = Γ.lookup v :=
  Table.find?_ofList ..

/-- Every free variable of the term is in scope, at the type that the
context `d` has for it. -/
def Resolves (d : Context) (Γ : Scope) (t : Term) : Prop :=
  ∀ v ∈ t.freeVars, ∃ type, Γ.lookup v = some type ∧ d.var? v = some type

variable {d : Context} {Γ : Scope}

/-- A binder at the type of the context extends what is resolved. -/
theorem Resolves.extend {t : Term} {w : Var} {type : Ty}
    (h : ∀ v ∈ t.freeVars, v ≠ w →
      ∃ type, Γ.lookup v = some type ∧ d.var? v = some type)
    (hw : d.var? w = some type) : Resolves d ((w, type) :: Γ) t := by
  intro v hv
  rw [Entries.lookup_cons_eq]
  by_cases heq : v = w
  · rw [if_pos heq, heq]
    exact ⟨type, rfl, hw⟩
  · rw [if_neg heq]
    exact h v hv heq

/-- A term that resolves has a body that resolves below its lambda. -/
theorem Resolves.lambda {v : Var} {type : Ty} {body : Term}
    (h : Resolves d Γ (.lambda v type body)) (hv : d.var? v = some type) :
    Resolves d ((v, type) :: Γ) body :=
  .extend (fun w hw hne => h w (Term.mem_freeVars_lambda.2 ⟨hw, hne⟩)) hv

/-- A term that resolves has arguments that resolve below its binder. -/
theorem Resolves.binder {op : Builtin} {v : Var} {args : List Term}
    (h : Resolves d Γ (.binder op v args)) (hv : d.var? v = some .entity)
    {t : Term} (ht : t ∈ args) : Resolves d ((v, .entity) :: Γ) t :=
  .extend (fun w hw hne => h w (Term.mem_freeVars_binder.2 ⟨⟨t, ht, hw⟩, hne⟩))
    hv

theorem Resolves.head {head : Term} {args : List Term}
    (h : Resolves d Γ (.app head args)) : Resolves d Γ head :=
  fun w hw => h w (Term.mem_freeVars_app.2 (.inl hw))

theorem Resolves.arg {head t : Term} {args : List Term}
    (h : Resolves d Γ (.app head args)) (ht : t ∈ args) : Resolves d Γ t :=
  fun w hw => h w (Term.mem_freeVars_app.2 (.inr ⟨t, ht, hw⟩))

/-- For the atom of a term that resolves, scope and context say the same. -/
theorem Resolves.var?_eq {a : Atom} (h : Resolves d Γ (.atom a))
    (symbols : Table String Ty) {w : Var} (hw : a = .var w) :
    d.var? w = (Γ.context symbols).var? w := by
  obtain ⟨type, hscope, hvar⟩ := h w (Term.mem_freeVars_atom.2 hw)
  rw [var?_context, hscope, hvar]

end Scope

open Scope (Resolves)

-- ========================================================== occurrences

namespace Term

mutual
/-- The places at which a variable stands as an atom, each with what is in
scope there. -/
def occurrences (Γ : Scope) : Term → List (Scope × Var)
  | .atom (.var v) => [(Γ, v)]
  | .atom _ => []
  | .lambda v type body => occurrences ((v, type) :: Γ) body
  | .binder _ v args => occurrencesAll ((v, .entity) :: Γ) args
  | .app head args => occurrences Γ head ++ occurrencesAll Γ args
/-- The places at which a variable stands as an atom in a list of
terms. -/
def occurrencesAll (Γ : Scope) : List Term → List (Scope × Var)
  | [] => []
  | t :: ts => occurrences Γ t ++ occurrencesAll Γ ts
end

@[simp] theorem occurrencesAll_eq_flatMap (Γ : Scope) (ts : List Term) :
    occurrencesAll Γ ts = ts.flatMap (occurrences Γ) := by
  induction ts with
  | nil => rfl
  | cons t ts ih => rw [occurrencesAll, ih, List.flatMap_cons]

/-- Where a context has the types of all binders, every occurrence has the
type of its innermost binder there. -/
theorem lookup_of_mem_occurrences {d : Context} {t : Term}
    (ht : t.AgreesWith d) {Γ : Scope} (hΓ : Resolves d Γ t) {p : Scope × Var}
    (hp : p ∈ t.occurrences Γ) :
    ∃ type, p.1.lookup p.2 = some type ∧ d.var? p.2 = some type := by
  induction t generalizing Γ with
  | atom a =>
      cases a with
      | var v =>
          cases List.mem_singleton.1 hp
          exact hΓ v (mem_freeVars_atom.2 rfl)
      | _ => cases hp
  | lambda v type body ih =>
      obtain ⟨hv, hbody⟩ := agreesWith_lambda.1 ht
      exact ih hbody (hΓ.lambda hv) hp
  | binder op v args ih =>
      obtain ⟨hv, hargs⟩ := agreesWith_binder.1 ht
      rw [occurrences, occurrencesAll_eq_flatMap] at hp
      obtain ⟨u, hu, hp⟩ := List.mem_flatMap.1 hp
      exact ih u hu (hargs u hu) (hΓ.binder hv hu) hp
  | app head args ihHead ihArgs =>
      obtain ⟨hhead, hargs⟩ := agreesWith_app.1 ht
      rw [occurrences, occurrencesAll_eq_flatMap] at hp
      rcases List.mem_append.1 hp with hp | hp
      · exact ihHead hhead hΓ.head hp
      · obtain ⟨u, hu, hp⟩ := List.mem_flatMap.1 hp
        exact ihArgs u hu (hargs u hu) (hΓ.arg hu) hp

end Term

-- ============================================================ inference

/-- The type of a term under a scope, by the rules of `Context.infer`. -/
def inferScoped (symbols : Table String Ty) :
    Scope → Term → Except Error Ty
  | Γ, .atom a => (Γ.context symbols).inferAtom a
  | Γ, .lambda v type body =>
    match inferScoped symbols ((v, type) :: Γ) body with
    | .error e => .error e
    | .ok .unknown => .error (.unknownType body)
    | .ok codomain => .ok (.func type codomain)
  | _, .binder op _ _ => .ok op.resultType
  | Γ, .app (.atom a) args => (Γ.context symbols).inferAtomHead a args.length
  | Γ, .app head args =>
    match inferScoped symbols Γ head with
    | .error e => .error e
    | .ok type => type.afterArgs head args.length

/-- Under a scope too, a head that is no atom gives as many codomains as
there are arguments. -/
theorem inferScoped_app_of_not_atom {symbols : Table String Ty} {Γ : Scope}
    {head : Term} {args : List Term} (hhead : head.isAtom = false) :
    inferScoped symbols Γ (.app head args)
      = match inferScoped symbols Γ head with
        | .error e => .error e
        | .ok type => type.afterArgs head args.length := by
  cases head with
  | atom a => cases hhead
  | _ => rfl

/-- Where a context has the types of all binders, inference under a scope
finds what inference in the context finds, types and errors alike. -/
theorem infer_eq_inferScoped {d : Context} {t : Term} (ht : t.AgreesWith d)
    {Γ : Scope} (hΓ : Resolves d Γ t) :
    d.infer t = inferScoped d.symbols Γ t := by
  induction t generalizing Γ with
  | atom a =>
      refine Context.infer_congr rfl fun w hw => hΓ.var?_eq _ ?_
      cases a with
      | var v => rw [Option.some.inj hw]
      | _ => cases hw
  | lambda v type body ih =>
      obtain ⟨hv, hbody⟩ := Term.agreesWith_lambda.1 ht
      rw [inferScoped, ← ih hbody (hΓ.lambda hv)]
      rfl
  | binder op v args _ => rfl
  | app head args ihHead _ =>
      obtain ⟨hhead, -⟩ := Term.agreesWith_app.1 ht
      rcases head.exists_atom_or_not with ⟨a, rfl⟩ | hnot
      · exact Context.inferAtomHead_congr (fun _ => rfl)
          fun w hw => hΓ.head.var?_eq _ hw
      · rw [inferScoped_app_of_not_atom hnot, ← ihHead hhead hΓ.head]
        exact Context.infer_app_of_not_atom hnot

-- ======================================================== main theorem

/-- The term binds no index at two types. -/
def Term.OneTyped (t : Term) : Prop :=
  ∀ p ∈ t.declarations, ∀ q ∈ t.declarations, p.1 = q.1 → p.2 = q.2

instance Term.decidableOneTyped (t : Term) : Decidable t.OneTyped :=
  inferInstanceAs (Decidable (∀ p ∈ t.declarations, ∀ q ∈ t.declarations,
    p.1 = q.1 → p.2 = q.2))

/-- Registering a closed term gives every variable the type at which it is
bound, if there is only one: the first mention binds. -/
theorem agreesWith_register {c : Context} {t : Term}
    (hvars : ∀ v, c.var? v = none) (hclosed : t.Closed) (hone : t.OneTyped) :
    t.AgreesWith (c.register t) := by
  intro p hp
  have hmem : p.1 ∈ t.vars :=
    Term.mem_vars_of_mem_binders (Term.mem_binders_iff.2 ⟨p.2, hp⟩)
  obtain ⟨type, htype⟩ := Option.isSome_iff_exists.1
    (Context.isSome_var?_register (c := c).2 hmem)
  obtain ⟨o, ho, hclass⟩ :=
    Option.map_eq_some_iff.1 (Context.var?_register c t p.1 ▸ htype)
  have hov : o.var = p.1 := Term.var_of_find? ho
  have hnone : c.known? o.var = none := by
    rw [Context.known?, hvars]
  rw [Context.classify, hnone] at hclass
  have hfirst : (o.var, o.site.type) ∈ t.declarations :=
    Term.mem_declarations.2 ⟨o, List.mem_of_find?_eq_some ho,
      Term.binds_of_find? ho (Term.closed_iff.1 hclosed p.1), rfl⟩
  rw [htype, ← hclass]
  exact congrArg some (hone _ hfirst p hp hov)

/-- Typing with one table agrees with lexical scoping on closed terms that
bind no index at two types: every occurrence of a variable has the type
of its innermost binder in the registered context, and inference there
has the outcome, type or error, that it has under scopes. -/
theorem flat_typing_is_lexical {c : Context} {t : Term}
    (hvars : ∀ v, c.var? v = none) (hclosed : t.Closed)
    (hone : t.OneTyped) :
    (∀ p ∈ t.occurrences [], ∃ type, p.1.lookup p.2 = some type
        ∧ (c.register t).var? p.2 = some type)
      ∧ (c.register t).infer t = inferScoped c.symbols [] t := by
  have hagrees := agreesWith_register hvars hclosed hone
  have hresolves : Resolves (c.register t) [] t := by
    intro v hv
    exact absurd hv (Term.closed_iff.1 hclosed v)
  exact ⟨fun p hp => Term.lookup_of_mem_occurrences hagrees hresolves hp,
    infer_eq_inferScoped hagrees hresolves⟩

/-- An index is bound beside itself and below itself, by lambdas and by a
binder, and under the inner lambda it heads an application; the second
term applies an entity. -/
theorem repeated_index_is_typed_lexically :
    ∃ t, (Term.parse ("((lambda $0 <e,t> (lambda $0 <e,t> ($0 k:e))) "
          ++ "(lambda $0 <e,t> $0) (the $1 (exists $1 (p:t $1))))")).result
          = .ok t
      ∧ ∃ u, (Term.parse "(lambda $0 e (($0 k:e) (lambda $0 e $0)))").result
          = .ok u
      ∧ (∀ p ∈ t.occurrences [], ∃ type, p.1.lookup p.2 = some type
        ∧ (Context.empty.register t).var? p.2 = some type)
      ∧ (Context.empty.register t).infer t = .ok .truth
      ∧ inferScoped .empty [] t = .ok .truth
      ∧ (Context.empty.register u).infer u = inferScoped .empty [] u
      ∧ inferScoped .empty [] u = .error (.notAFunction (.ofVar ⟨0⟩) .entity) := by
  have hrun : ∃ t, (Term.parse ("((lambda $0 <e,t> (lambda $0 <e,t> ($0 k:e))) "
          ++ "(lambda $0 <e,t> $0) (the $1 (exists $1 (p:t $1))))")).result
          = .ok t
      ∧ ∃ u, (Term.parse "(lambda $0 e (($0 k:e) (lambda $0 e $0)))").result
          = .ok u
      ∧ t.Closed ∧ t.OneTyped ∧ u.Closed ∧ u.OneTyped
      ∧ inferScoped .empty [] t = .ok .truth
      ∧ inferScoped .empty [] u
          = .error (.notAFunction (.ofVar ⟨0⟩) .entity) := by
    decide +kernel
  obtain ⟨t, ht, u, hu, htclosed, htone, huclosed, huone, htype, herror⟩ := hrun
  obtain ⟨hoccurrences, htyped⟩ :=
    flat_typing_is_lexical (c := .empty) (fun _ => rfl) htclosed htone
  obtain ⟨-, hutyped⟩ :=
    flat_typing_is_lexical (c := .empty) (fun _ => rfl) huclosed huone
  exact ⟨t, ht, u, hu, hoccurrences, htyped.trans htype, htype, hutyped,
    herror⟩

-- the inner lambda states another type, and the table has that of the outer
example :
    let t : Term := .lambda ⟨0⟩ .entity (.lambda ⟨0⟩ .truth (.ofVar ⟨0⟩))
    (Context.empty.register t).infer t
        = .ok (.func .entity (.func .truth .entity))
      ∧ inferScoped .empty [] t
        = .ok (.func .entity (.func .truth .truth)) := by
  decide +kernel

end LogicalForm
