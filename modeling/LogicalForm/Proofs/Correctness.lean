/-
Reduction of forms computes reduction of trees. The main theorem compares
a step of a session, an application of forms that come from closed ones
by clear applications and compositions, with the reduction of their
trees: the tree of the result is what the trees reduce to, and nothing
else is.

# The simulation

One application simulates the other step by step. Below a list `Γ` of
enclosing binders, the body of an abstraction is read below `Δ ++ v :: Γ`
where substitution has passed the binders `Δ`, and substituting for `v`
is instantiating the variable number `Δ.length`
(`instantiate_of_substituted`). Three things must hold for that.

- The argument reads the same after its move: no index is both bound and
  free in it.
- Where substitution puts the argument, nothing in `Δ` captures it. At
  the top the argument is closed; for the calls, `Hygiene` keeps the
  binders of the function above the free variables of the argument.
- Where substitution replaces a variable, it is the parameter: nothing in
  the body traps it. Where the parameter does not occur free there is
  then nothing to do (`instantiate_of_not_free`).

# What happens without clarity

`nested_application_confuses_indices` is a run of two closed forms with
pairwise different indices whose result is not the reduced tree: it even
has a free variable.
-/
import LogicalForm.Proofs.Hygiene
import LogicalForm.Proofs.Reference

namespace LogicalForm

-- ======================================================= one variable

namespace Scoped

variable {apply : Application} {Δ Γ : List Var} {v w : Var}

/-- Past `Δ`, the variable `v` is the one to instantiate. -/
theorem ofVar_self (hv : v ∉ Δ) : ofVar (Δ ++ v :: Γ) v = .bound Δ.length := by
  rw [ofVar_of_not_mem hv, if_pos (List.mem_cons_self ..), List.idxOf_cons_self]
  rfl

/-- No other variable is. -/
theorem instantiate_ofVar_of_ne {a : Scoped} (h : w = v → w ∈ Δ) :
    instantiate apply a Δ.length (ofVar (Δ ++ v :: Γ) w)
      = some (ofVar (Δ ++ Γ) w) := by
  by_cases hΔ : w ∈ Δ
  · have hlt : Δ.idxOf w < Δ.length := List.idxOf_lt_length_of_mem hΔ
    rw [ofVar_of_mem hΔ, ofVar_of_mem hΔ, instantiate, if_pos hlt]
  · have hne : v ≠ w := fun e => hΔ (h e.symm)
    rw [ofVar_of_not_mem hΔ, ofVar_of_not_mem hΔ]
    by_cases hΓ : w ∈ Γ
    · rw [if_pos (List.mem_cons_of_mem _ hΓ), if_pos hΓ,
        List.idxOf_cons_ne _ hne, instantiate, if_neg (by omega),
        if_neg (by omega)]
      rfl
    · have hnot : w ∉ v :: Γ := List.not_mem_cons_of_ne_of_not_mem hne.symm hΓ
      rw [if_neg hnot, if_neg hΓ, instantiate]

/-- Only that variable reads as the number of `Δ`. -/
theorem eq_of_isBound {t : Term}
    (h : (t.toScoped (Δ ++ v :: Γ)).isBound Δ.length = true) :
    t = .ofVar v ∧ v ∉ Δ := by
  cases t with
  | atom a =>
      cases a with
      | var w =>
          rw [Term.toScoped] at h
          by_cases hΔ : w ∈ Δ
          · have hlt : Δ.idxOf w < Δ.length := List.idxOf_lt_length_of_mem hΔ
            rw [ofVar_of_mem hΔ] at h
            have heq : Δ.idxOf w = Δ.length := of_decide_eq_true h
            omega
          · by_cases hw : w = v
            · subst hw
              exact ⟨rfl, hΔ⟩
            · rw [ofVar_of_not_mem hΔ] at h
              split at h
              · have heq := of_decide_eq_true h
                rw [List.idxOf_cons_ne _ (Ne.symm hw)] at heq
                omega
              · cases h
      | builtin b => cases h
      | const text stated => cases h
  | lambda w type body => cases h
  | binder op w args => cases h
  | app head args => cases h

/-- Instantiation works through a list of trees as it does on each of them.
-/
theorem instantiateAll_map {a : Scoped} {k : Nat} {Γ' : List Var}
    {ts us : List Term}
    (h : List.Forall₂ (fun t u : Term =>
      instantiate apply a k (t.toScoped Γ) = some (u.toScoped Γ')) ts us) :
    instantiateAll apply a k (ts.map (Term.toScoped Γ))
      = some (us.map (Term.toScoped Γ')) := by
  induction h with
  | nil => rfl
  | cons ht _ ih =>
      rw [List.map_cons, List.map_cons, instantiateAll, ht, ih]
      rfl

/-- Where the variable does not occur, only its place goes. -/
theorem instantiate_of_not_free {a : Scoped} {t : Term}
    (h : v ∈ t.freeVars → v ∈ Δ) :
    instantiate apply a Δ.length (t.toScoped (Δ ++ v :: Γ))
      = some (t.toScoped (Δ ++ Γ)) := by
  have all {Δ : List Var} {ts : List Term}
      (hts : ∀ t ∈ ts, instantiate apply a Δ.length (t.toScoped (Δ ++ v :: Γ))
        = some (t.toScoped (Δ ++ Γ))) :
      instantiateAll apply a Δ.length (ts.map (Term.toScoped (Δ ++ v :: Γ)))
        = some (ts.map (Term.toScoped (Δ ++ Γ))) :=
    instantiateAll_map (List.forall₂_same.2 hts)
  induction t generalizing Δ with
  | atom b =>
      cases b with
      | var w =>
          refine instantiate_ofVar_of_ne fun e => ?_
          subst e
          exact h (Term.mem_freeVars_atom.2 rfl)
      | builtin b => rfl
      | const text stated => rfl
  | lambda w type body ih =>
      have hbody : v ∈ body.freeVars → v ∈ w :: Δ := by
        intro hv
        by_cases hw : v = w
        · exact List.mem_cons.2 (.inl hw)
        · exact List.mem_cons_of_mem _ (h (Term.mem_freeVars_lambda.2 ⟨hv, hw⟩))
      have ih := ih hbody
      rw [Term.toScoped, Term.toScoped, instantiate]
      exact congrArg (Option.map _) ih
  | binder op w args ih =>
      have hargs : ∀ t ∈ args, v ∈ t.freeVars → v ∈ w :: Δ := by
        intro t ht hv
        by_cases hw : v = w
        · exact List.mem_cons.2 (.inl hw)
        · exact List.mem_cons_of_mem _
            (h (Term.mem_freeVars_binder.2 ⟨⟨t, ht, hv⟩, hw⟩))
      rw [Term.toScoped, Term.toScoped, instantiate, Term.toScopedAll_eq_map,
        Term.toScopedAll_eq_map]
      exact congrArg (Option.map _)
        (all (Δ := w :: Δ) fun t ht => ih t ht (hargs t ht))
  | app head args ihHead ihArgs =>
      have hhead : v ∈ head.freeVars → v ∈ Δ :=
        fun hv => h (Term.mem_freeVars_app.2 (.inl hv))
      have hargs : ∀ t ∈ args, v ∈ t.freeVars → v ∈ Δ :=
        fun t ht hv => h (Term.mem_freeVars_app.2 (.inr ⟨t, ht, hv⟩))
      have hnot : ¬ (head.toScoped (Δ ++ v :: Γ)).isBound Δ.length = true := by
        intro hbound
        obtain ⟨rfl, hv⟩ := eq_of_isBound hbound
        exact hv (hhead (Term.mem_freeVars_atom.2 rfl))
      rw [Term.toScoped, Term.toScoped, instantiate, Term.toScopedAll_eq_map,
        Term.toScopedAll_eq_map, all fun t ht => ihArgs t ht (hargs t ht),
        Option.bind_some, if_neg hnot, ihHead hhead]
      rfl

/-- Only a lambda reduces. -/
theorem applyStep_of_not_lambda {t : Term} (ht : t.isLambda = false)
    (a : Scoped) :
    applyStep apply (t.toScoped Γ) a = some (.app (t.toScoped Γ) [a]) := by
  cases t with
  | lambda w type body => cases ht
  | binder op w args => rfl
  | app head args => rfl
  | atom b =>
      cases b with
      | builtin b => rfl
      | const text stated => rfl
      | var w =>
          rw [Term.toScoped, ofVar]
          split <;> rfl

end Scoped

namespace Form

-- ========================================================= simulation

/-- Applying the form is applying its tree, below any binders. -/
def Simulates (apply' : Scoped.Application) (p : Form × Form) : Prop :=
  ∀ r, (apply p.1 p.2).result = .ok r → ∀ Γ : List Var,
    apply' (p.1.term.toScoped Γ) (p.2.term.toScoped Γ)
      = some (r.term.toScoped Γ)

/-- No binder between a lambda and its variable captures a free variable
of the argument. -/
def Uncaptured (p : Form × Form) : Prop :=
  ∀ v type body, p.1.term = .lambda v type body →
    ∀ x ∈ body.covers v, x ∉ p.2.term.freeVars

/-- High binders do not capture low variables. -/
theorem uncaptured_of_lofty {L : Nat} {p : Form × Form}
    (hf : p.1.term.Lofty L) (ha : ∀ y ∈ p.2.term.freeVars, y.index < L) :
    Uncaptured p := by
  intro v type body hterm x hx hfree
  rw [hterm] at hf
  have hle : L ≤ x.index := hf.2.covers hf.1 hx
  have hlt : x.index < L := ha x hfree
  omega

/-- What is known of the calls made while a form with binders from `L` on
is substituted: the scope invariants of `Hygiene`, and the simulation
where nothing is captured. -/
structure Sound (L : Nat) (apply' : Scoped.Application) (p : Form × Form) :
    Prop where
  scope : KeepsScope p
  lofty : KeepsLofty L p
  simulates : Uncaptured p → Simulates apply' p

/-- Substitution passes a binder that captures nothing. -/
theorem passes_cons {v w : Var} {xs Δ : List Var}
    (h : v ∉ Δ ∧ ∀ x ∈ xs, x ∉ Δ) (hv : v ≠ w) (hw : w ∉ xs) :
    v ∉ w :: Δ ∧ ∀ x ∈ xs, x ∉ w :: Δ := by
  obtain ⟨hvΔ, hxΔ⟩ := h
  refine ⟨List.not_mem_cons_of_ne_of_not_mem hv hvΔ, fun x hx => ?_⟩
  refine List.not_mem_cons_of_ne_of_not_mem ?_ (hxΔ x hx)
  exact fun heq => hw (heq ▸ hx)

section

variable {L : Nat} {apply' : Scoped.Application} {c : Context}

/-- A chain of calls simulates a chain of calls. -/
theorem foldlM_toScoped {f g : Form} {ts : List Term}
    (hcalls : ∀ p ∈ callsAlong c f ts, Sound L apply' p)
    (hf : f.term.Lofty L) (hts : ∀ t ∈ ts, ∀ y ∈ t.freeVars, y.index < L)
    (h : (applyAll apply c f ts).result = .ok g) (Γ : List Var) :
    (ts.map (Term.toScoped Γ)).foldlM apply' (f.term.toScoped Γ)
      = some (g.term.toScoped Γ) := by
  induction ts generalizing f with
  | nil =>
      cases h
      rfl
  | cons t ts ih =>
      obtain ⟨a, ha, h⟩ := Traced.result_bind_eq_ok h
      obtain ⟨s, hs, h⟩ := Traced.result_bind_eq_ok h
      rw [callsAlong_cons ha hs] at hcalls
      obtain ⟨hcall, hcalls⟩ := List.forall_mem_cons.1 hcalls
      obtain ⟨ht, hts⟩ := List.forall_mem_cons.1 hts
      have hterm : a.term = t := (result_ofTerm_eq_ok ha).1
      rw [← hterm] at ht
      have hstep := hcall.simulates (uncaptured_of_lofty hf ht) s hs Γ
      have hrest := ih hcalls (hcall.lofty hf s hs) hts h
      rw [← hterm, List.map_cons, List.foldlM_cons, hstep]
      exact hrest

/-- Substituting is instantiating. The variables of the term lie below
`L`, and so do the free ones of the form that is substituted, while its
binders lie from `L` on: what the calls need in order not to capture. -/
theorem instantiate_of_substituted {v : Var} {arg : Form}
    (hbinders : ∀ x ∈ arg.term.binders, L ≤ x.index)
    (hfree : ∀ x ∈ arg.term.freeVars, x.index < L) {t u : Term}
    (h : Substituted (Sound L apply') c v arg t u)
    (htraps : t.traps v = false) (hlow : ∀ y ∈ t.vars, y.index < L)
    {Δ Γ : List Var}
    (hΔ : v ∈ t.freeVars → v ∉ Δ ∧ ∀ x ∈ arg.term.freeVars, x ∉ Δ)
    (hcovers : ∀ x ∈ t.covers v, x ∉ arg.term.freeVars) :
    Scoped.instantiate apply' (arg.term.toScoped Γ) Δ.length
      (t.toScoped (Δ ++ v :: Γ)) = some (u.toScoped (Δ ++ Γ)) := by
  -- below the binders that substitution has passed, the argument lifts
  have hlift {Δ : List Var} (hx : ∀ x ∈ arg.term.freeVars, x ∉ Δ) :
      (arg.term.toScoped Γ).lift Δ.length 0 = arg.term.toScoped (Δ ++ Γ) :=
    (Term.toScoped_append (Δ := []) fun x hfree _ => hx x hfree).symm
  revert htraps hlow Δ hcovers
  refine substitute_induct (P := fun t u => t.traps v = false →
    (∀ y ∈ t.vars, y.index < L) → ∀ {Δ : List Var},
    (v ∈ t.freeVars → v ∉ Δ ∧ ∀ x ∈ arg.term.freeVars, x ∉ Δ) →
    (∀ x ∈ t.covers v, x ∉ arg.term.freeVars) →
    Scoped.instantiate apply' (arg.term.toScoped Γ) Δ.length
      (t.toScoped (Δ ++ v :: Γ)) = some (u.toScoped (Δ ++ Γ)))
    ?var ?atom ?shadowed ?lambda ?binder ?curried ?headed h
  case var =>
    intro _ _ Δ hΔ _
    obtain ⟨hv, hx⟩ := hΔ (Term.mem_freeVars_atom.2 rfl)
    rw [Term.toScoped, Scoped.ofVar_self hv, Scoped.instantiate,
      if_neg (Nat.lt_irrefl _), if_pos rfl, hlift hx]
  case atom =>
    intro a ha _ _ Δ _ _
    refine Scoped.instantiate_of_not_free fun hv => ?_
    exact absurd (Term.mem_freeVars_atom.1 hv) ha
  case shadowed =>
    intro type body _ _ Δ _ _
    refine Scoped.instantiate_of_not_free fun hv => ?_
    exact absurd rfl (Term.mem_freeVars_lambda.1 hv).2
  case lambda =>
    intro w type body body' hw _ ih htraps hlow Δ hΔ hcovers
    have hcover {x : Var} (hx : x = w ∨ x ∈ body.covers v)
        (hv : v ∈ body.freeVars) : x ∉ arg.term.freeVars :=
      hcovers x (Term.mem_covers_lambda.2 ⟨⟨hw, hv⟩, hx⟩)
    have ih := ih (Term.traps_lambda_eq_false.1 htraps hw)
      (Term.forall_mem_vars_lambda.1 hlow).2 (Δ := w :: Δ) (fun hv => ?_)
      fun x hx => hcover (.inr hx) (Term.mem_freeVars_of_mem_covers hx)
    · rw [Term.toScoped, Term.toScoped, Scoped.instantiate]
      exact congrArg (Option.map _) ih
    · exact passes_cons (hΔ (Term.mem_freeVars_lambda.2 ⟨hv, hw.symm⟩))
        hw.symm (hcover (.inl rfl) hv)
  case binder =>
    intro op w args args' ih htraps hlow Δ hΔ hcovers
    obtain ⟨hnot, hargs⟩ := Term.traps_binder_eq_false.1 htraps
    have hcover {t : Term} (ht : t ∈ args) (hv : v ∈ t.freeVars) {x : Var}
        (hx : x = w ∨ ∃ t ∈ args, x ∈ t.covers v) : x ∉ arg.term.freeVars :=
      hcovers x (Term.mem_covers_binder.2
        ⟨⟨fun e => hnot e t ht hv, t, ht, hv⟩, hx⟩)
    have hall : Scoped.instantiateAll apply' (arg.term.toScoped Γ)
        (w :: Δ).length (args.map (Term.toScoped (w :: Δ ++ v :: Γ)))
        = some (args'.map (Term.toScoped (w :: Δ ++ Γ))) := by
      refine Scoped.instantiateAll_map (forall₂_imp_of_mem ih fun t ht u hu => ?_)
      refine hu.2 (hargs t ht) ((Term.forall_mem_vars_binder.1 hlow).2 t ht)
        (fun hv => ?_) fun x hx =>
          hcover ht (Term.mem_freeVars_of_mem_covers hx) (.inr ⟨t, ht, hx⟩)
      have hw : v ≠ w := fun e => hnot e.symm t ht hv
      exact passes_cons (hΔ (Term.mem_freeVars_binder.2 ⟨⟨t, ht, hv⟩, hw⟩))
        hw (hcover ht hv (.inl rfl))
    rw [Term.toScoped, Term.toScoped, Scoped.instantiate,
      Term.toScopedAll_eq_map, Term.toScopedAll_eq_map]
    exact congrArg (Option.map _) hall
  case curried =>
    intro args args' g ih hcalls hg htraps hlow Δ hΔ hcovers
    have hargs := (Term.traps_app_eq_false.1 htraps).2
    have hlow := (Term.forall_mem_vars_app.1 hlow).2
    obtain ⟨hvΔ, hxΔ⟩ :=
      hΔ (Term.mem_freeVars_app.2 (.inl (Term.mem_freeVars_atom.2 rfl)))
    have hall := Scoped.instantiateAll_map (forall₂_imp_of_mem ih
      fun t ht u hu => hu.2 (hargs t ht) (hlow t ht) (fun _ => ⟨hvΔ, hxΔ⟩)
        fun x hx => hcovers x (Term.mem_covers_app.2 (.inr ⟨t, ht, hx⟩)))
    -- the arguments of the calls are made of low variables
    have hsmall : ∀ u ∈ args', ∀ y ∈ u.freeVars, y.index < L := by
      intro u hu y hy
      obtain ⟨t, ht, hsub, -⟩ := exists_left_of_mem ih hu
      rcases mem_freeVars_of_substituted (fun _ h => h.scope) hsub (hargs t ht) hy
        with ⟨hy, -⟩ | ⟨-, hy⟩
      · exact hlow t ht y (Term.mem_vars_of_mem_freeVars hy)
      · exact hfree y hy
    have hchain := foldlM_toScoped hcalls (Term.lofty_of_binders hbinders)
      hsmall hg (Δ ++ Γ)
    have hbound : (Scoped.bound Δ.length).isBound Δ.length = true :=
      decide_eq_true rfl
    rw [Term.toScoped, Term.toScoped, Scoped.ofVar_self hvΔ, Scoped.instantiate,
      Term.toScopedAll_eq_map, hall, Option.bind_some, if_pos hbound,
      hlift hxΔ, hchain]
  case headed =>
    intro head head' args args' hhead _ ihHead ihArgs htraps hlow Δ hΔ hcovers
    obtain ⟨hthead, hargs⟩ := Term.traps_app_eq_false.1 htraps
    obtain ⟨hlowHead, hlowArgs⟩ := Term.forall_mem_vars_app.1 hlow
    have hnot : ¬ (head.toScoped (Δ ++ v :: Γ)).isBound Δ.length = true :=
      fun hbound => hhead (Scoped.eq_of_isBound hbound).1
    have hall := Scoped.instantiateAll_map (forall₂_imp_of_mem ihArgs
      fun t ht u hu => hu.2 (hargs t ht) (hlowArgs t ht)
        (fun hv => hΔ (Term.mem_freeVars_app.2 (.inr ⟨t, ht, hv⟩)))
        fun x hx => hcovers x (Term.mem_covers_app.2 (.inr ⟨t, ht, hx⟩)))
    have hrest := ihHead hthead hlowHead
      (fun hv => hΔ (Term.mem_freeVars_app.2 (.inl hv)))
      fun x hx => hcovers x (Term.mem_covers_app.2 (.inl hx))
    rw [Term.toScoped, Term.toScoped, Scoped.instantiate,
      Term.toScopedAll_eq_map, Term.toScopedAll_eq_map, hall, Option.bind_some,
      if_neg hnot, hrest]
    rfl

end

/-- What is no abstraction becomes the head of an application in both. -/
theorem simulates_wrap {n : Nat} {f a : Form}
    (hlam : f.term.isLambda = false) (hclear : ClearRun f a) :
    Simulates (Scoped.applyWithin (n + 1)) (f, a) := by
  intro r hr Γ
  obtain ⟨arg, harg, hrterm, -⟩ := apply_wrap_eq_ok hlam hr
  have hread := toScoped_moved harg hclear.here.apart Γ
  show Scoped.applyStep _ (f.term.toScoped Γ) (a.term.toScoped Γ) = _
  rw [Scoped.applyStep_of_not_lambda hlam, hrterm, ← hread]
  rfl

/-- A clear application without capture is the application of the trees,
unfolded once more often than the spine of the function needs. -/
theorem simulates_of_clearRun {n : Nat} {f a : Form}
    (hspine : f.term.SpineBelow n) (hclear : ClearRun f a)
    (hcapture : Uncaptured (f, a)) :
    Simulates (Scoped.applyWithin (n + 1)) (f, a) := by
  induction n generalizing f a with
  | zero =>
      intro r hr Γ
      have hlam : f.term.isLambda = false := by
        cases hterm : f.term with
        | lambda v type body =>
            rw [hterm] at hspine
            exact absurd hspine.1 (Nat.not_lt_zero _)
        | _ => rfl
      exact simulates_wrap hlam hclear r hr Γ
  | succ n ih =>
      cases hterm : f.term with
      | lambda v type body =>
          intro r hr Γ
          obtain ⟨arg, harg, htype, hsub, -⟩ := apply_lambda_eq_ok hterm hr
          have hcalls : ∀ p ∈ callsWithin f.context v arg body,
              Sound (offset f a) (Scoped.applyWithin (n + 1)) p := by
            rw [← calls_lambda hterm harg htype]
            intro p hp
            have hrun := hclear.call hp
            exact ⟨keepsScope_of_clearRun hrun, fun h r hr => lofty_apply hrun h hr,
              ih (spineBelow_of_mem_calls hspine hp) hrun⟩
          have htraps := hclear.here.traps_body hterm
          have hlow : ∀ y ∈ body.vars, y.index < offset f a :=
            (index_lt_offset_of_lambda hterm).2
          have hfree : ∀ x ∈ arg.term.freeVars, x.index < offset f a := by
            intro x hx
            rw [mem_freeVars_moved_iff harg hclear.here] at hx
            exact index_lt_offset_right (Term.mem_vars_of_mem_freeVars hx)
          have hcovers : ∀ x ∈ body.covers v, x ∉ arg.term.freeVars := by
            intro x hx
            rw [mem_freeVars_moved_iff harg hclear.here]
            exact hcapture v type body hterm x hx
          have hread := toScoped_moved harg hclear.here.apart Γ
          have h := instantiate_of_substituted
            (fun x hx => le_index_of_mem_binders_moved harg hx) hfree
            ⟨hsub, hcalls⟩ htraps hlow (Δ := []) (Γ := Γ)
            (fun _ => ⟨List.not_mem_nil, fun _ _ => List.not_mem_nil⟩) hcovers
          rw [hread] at h
          show Scoped.applyWithin (n + 2) (f.term.toScoped Γ) _ = _
          rw [hterm]
          exact h
      | _ =>
          exact simulates_wrap (by rw [hterm]; rfl) hclear

-- ============================================================ sessions

/-- The applications that a composition performs are clear. -/
def ClearComposition (f a : Form) : Prop :=
  ∀ v type body inner outer, f.term = .lambda v type body →
    (ofTerm f.context body).result = .ok inner →
    (moved f a).result = .ok outer → ClearRun outer inner

/-- The forms of a session: those given, and the results of clear
applications and compositions of forms of the session, in any order. -/
inductive Derived (given : Form → Prop) : Form → Prop
  | given {g : Form} : given g → Derived given g
  | applied {f a r : Form} : Derived given f → Derived given a →
      ClearRun f a → (apply f a).result = .ok r → Derived given r
  | composed {f a r : Form} : Derived given f → Derived given a →
      ClearComposition f a → (compose f a).result = .ok r → Derived given r

/-- A session that starts from closed forms has closed forms only. -/
theorem Derived.closed {given : Form → Prop}
    (hgiven : ∀ g, given g → g.term.Closed) {f : Form}
    (hf : Derived given f) : f.term.Closed := by
  induction hf with
  | given h => exact hgiven _ h
  | applied _ _ hclear hr ihf iha =>
      rw [Term.closed_iff] at ihf iha ⊢
      intro y hy
      rcases mem_freeVars_apply hclear hr hy with hy | hy
      · exact ihf y hy
      · exact iha y hy
  | composed _ _ hclear hr ihf iha =>
      rw [Term.closed_iff] at ihf iha ⊢
      intro y hy
      obtain ⟨v, type, body, inner, outer, s, hterm, hinner, houter, hs, hr⟩ :=
        compose_steps hr
      have hrterm := (result_ofTerm_eq_ok hr).1
      rw [hrterm] at hy
      obtain ⟨hy, hyv⟩ := Term.mem_freeVars_lambda.1 hy
      have hrun := hclear v type body inner outer hterm hinner houter
      rcases mem_freeVars_apply hrun hs hy with hy | hy
      · obtain ⟨z, hz, -⟩ := (mem_freeVars_moved houter).1 hy
        exact iha z hz
      · rw [(result_ofTerm_eq_ok hinner).1] at hy
        refine ihf y ?_
        rw [hterm]
        exact Term.mem_freeVars_lambda.2 ⟨hy, hyv⟩

/-- A clear application to a closed form gives the reduced tree. -/
theorem reduces_of_clearRun {f a r : Form} (hclosed : a.term.Closed)
    (hclear : ClearRun f a) (hr : (apply f a).result = .ok r) :
    Scoped.Reduces (f.term.toScoped []) (a.term.toScoped [])
      (r.term.toScoped []) := by
  have hcapture : Uncaptured (f, a) :=
    fun _ _ _ _ x _ => Term.closed_iff.1 hclosed x
  exact ⟨_, simulates_of_clearRun f.spineBelow_term hclear hcapture r hr []⟩

-- ======================================================= main theorems

/-- In a session of clear steps from closed forms, the tree of what a
clear application gives is what the trees of its operands reduce to. Only
the argument needs to be of the session. -/
theorem application_reduces_trees {given : Form → Prop}
    (hgiven : ∀ g, given g → g.term.Closed) {f a r : Form}
    (ha : Derived given a) (hclear : ClearRun f a)
    (hr : (apply f a).result = .ok r) (s : Scoped) :
    Scoped.Reduces (f.term.toScoped []) (a.term.toScoped []) s
      ↔ s = r.term.toScoped [] := by
  have hreduces := reduces_of_clearRun (ha.closed hgiven) hclear hr
  constructor
  · intro h
    exact h.unique hreduces
  · intro heq
    subst heq
    exact hreduces

/-- The parameter of the first form is used as a function and the
argument binds an index of the first form: the run is clear. -/
theorem curried_application_reduces_trees :
    ∃ f, (parse .empty ("(lambda $0 <e,t> (the $1 (and ($0 $1) "
            ++ "(exists $2 (r:t $1 $2)))))")).result = .ok f
      ∧ ∃ a, (parse .empty
          "(lambda $2 e (exists $1 (s:t $2 $1)))").result = .ok a
      ∧ ∃ r, (apply f a).result = .ok r
      ∧ ∀ s, Scoped.Reduces (f.term.toScoped []) (a.term.toScoped []) s
          ↔ s = r.term.toScoped [] := by
  have hrun : ∃ f, (parse .empty ("(lambda $0 <e,t> (the $1 (and ($0 $1) "
            ++ "(exists $2 (r:t $1 $2)))))")).result = .ok f
      ∧ ∃ a, (parse .empty
          "(lambda $2 e (exists $1 (s:t $2 $1)))").result = .ok a
      ∧ ∃ r, (apply f a).result = .ok r ∧ a.term.Closed ∧ ClearRun f a := by
    decide +kernel
  obtain ⟨f, hf, a, ha, r, hr, hclosed, hclear⟩ := hrun
  have hgiven : ∀ g, g = a → g.term.Closed := fun g hg => hg ▸ hclosed
  exact ⟨f, hf, a, ha, r, hr,
    application_reduces_trees hgiven (.given rfl) hclear hr⟩

/-- Without clarity the tree may be another one, although both forms are
closed and bind no index twice: the inner use of the parameter moves the
bound variable of its argument to `$1`, which is free in the argument of
the outer use, and that argument then moves both to `$4`. -/
theorem nested_application_confuses_indices :
    ∃ f, (parse .empty ("(lambda $9 <<e,t>,t> (lambda $1 e ($9 (lambda $2 e "
            ++ "(and (q:t $1) ($9 (lambda $0 e (p:t $0))))))))")).result = .ok f
      ∧ ∃ a, (parse .empty "some:<<e,t>,t>").result = .ok a
      ∧ ∃ r, (apply f a).result = .ok r
      ∧ f.term.Closed ∧ a.term.Closed
      ∧ f.term.binders.Nodup ∧ a.term.binders.Nodup
      ∧ ¬ Scoped.Reduces (f.term.toScoped []) (a.term.toScoped [])
          (r.term.toScoped []) := by
  have hrun : ∃ f, (parse .empty
          ("(lambda $9 <<e,t>,t> (lambda $1 e ($9 (lambda $2 e "
            ++ "(and (q:t $1) ($9 (lambda $0 e (p:t $0))))))))")).result = .ok f
      ∧ ∃ a, (parse .empty "some:<<e,t>,t>").result = .ok a
      ∧ ∃ r, (apply f a).result = .ok r
      ∧ f.term.Closed ∧ a.term.Closed
      ∧ f.term.binders.Nodup ∧ a.term.binders.Nodup
      ∧ r.term.freeVars = [⟨4⟩]
      ∧ (Scoped.applyWithin 2 (f.term.toScoped [])
          (a.term.toScoped [])).map Scoped.freeVars = some [] := by
    decide +kernel
  obtain ⟨f, hf, a, ha, r, hr, hfc, hac, hfn, han, hfree, htree⟩ := hrun
  refine ⟨f, hf, a, ha, r, hr, hfc, hac, hfn, han, fun hreduces => ?_⟩
  obtain ⟨s, hs, hclosed⟩ := Option.map_eq_some_iff.1 htree
  have heq : r.term.toScoped [] = s := hreduces.unique ⟨2, hs⟩
  have hmem : ⟨4⟩ ∈ (r.term.toScoped []).freeVars := by
    rw [Term.mem_freeVars_toScoped, hfree]
    exact ⟨List.mem_singleton_self _, List.not_mem_nil⟩
  rw [heq, hclosed] at hmem
  cases hmem

/-- In such a session the tree of a clear composition is an abstraction
over what the trees reduce to below it: that of the second form applied
to that of the body. -/
theorem composition_reduces_trees {given : Form → Prop}
    (hgiven : ∀ g, given g → g.term.Closed) {f a r : Form}
    (ha : Derived given a) (hclear : ClearComposition f a)
    (hr : (compose f a).result = .ok r) :
    ∃ v type body s, f.term = .lambda v type body
      ∧ r.term.toScoped [] = .lambda type s
      ∧ Scoped.Reduces (a.term.toScoped [v]) (body.toScoped [v]) s := by
  obtain ⟨v, type, body, inner, outer, s, hterm, hinner, houter, hs, hr⟩ :=
    compose_steps hr
  have hrterm : r.term = .lambda v type s.term := (result_ofTerm_eq_ok hr).1
  have hclosed := Term.closed_iff.1 (ha.closed hgiven)
  have hbody : inner.term = body := (result_ofTerm_eq_ok hinner).1
  have hlow : ∀ y ∈ inner.term.freeVars, y.index < offset f a := by
    intro y hy
    rw [hbody] at hy
    exact (index_lt_offset_of_lambda hterm).2 y (Term.mem_vars_of_mem_freeVars hy)
  have hlofty : outer.term.Lofty (offset f a) :=
    Term.lofty_of_binders fun x hx => le_index_of_mem_binders_moved houter hx
  have h := simulates_of_clearRun outer.spineBelow_term
    (hclear v type body inner outer hterm hinner houter)
    (uncaptured_of_lofty hlofty hlow) s hs [v]
  have hread : outer.term.toScoped [v] = a.term.toScoped [v] :=
    toScoped_moved houter (fun x _ => hclosed x) [v]
  refine ⟨v, type, body, s.term.toScoped [v], hterm, ?_, ?_⟩
  · rw [hrterm]
    rfl
  · rw [← hread, ← hbody]
    exact ⟨_, h⟩

end Form

end LogicalForm
