/-
Sessions in which no parameter is used as a function. There an
application calls no other, so the clarity that `Correctness` asks of
every step is a matter of the operands alone, and it follows from what
the session starts with: closed forms that bind no index twice.

# The invariant

`Spread` says that no binder stands in the scope of another one of its
index. It is weaker than to bind no index twice, and has to be: an
argument is copied for every occurrence of the parameter. But the copies
stand side by side, and the binders of a copy lie past those around it
(`spread_of_substituted`), so the invariant is kept.

# Compositions

A composition puts the second form in the body of the first and leaves
the parameter of the first where it is. The indices of that parameter and
of the moved binders are compared only if the parameter occurs in the
body, so that is asked for too.
-/
import LogicalForm.Proofs.Correctness
import Mathlib.Data.List.Nodup

namespace LogicalForm

namespace Term

-- ========================================================== spread terms

/-- No binder stands in the scope of another one of its index. -/
inductive Spread : Term → Prop
  | atom (a : Atom) : Spread (.atom a)
  | lambda {w : Var} {type : Ty} {body : Term} :
      w ∉ body.binders → Spread body → Spread (.lambda w type body)
  | binder {op : Builtin} {w : Var} {args : List Term} :
      (∀ t ∈ args, w ∉ t.binders) → (∀ t ∈ args, Spread t) →
      Spread (.binder op w args)
  | app {head : Term} {args : List Term} :
      Spread head → (∀ t ∈ args, Spread t) → Spread (.app head args)

theorem binders_binder (op : Builtin) (w : Var) (args : List Term) :
    (Term.binder op w args).binders = w :: args.flatMap binders := by
  rw [binders, visits, visitsAll_eq_flatMap, List.filter_cons_of_pos rfl,
    List.map_cons, List.filter_flatMap, List.map_flatMap]
  rfl

theorem binders_app (head : Term) (args : List Term) :
    (Term.app head args).binders = head.binders ++ args.flatMap binders := by
  rw [binders, visits, visitsAll_eq_flatMap, List.filter_append,
    List.map_append, List.filter_flatMap, List.map_flatMap]
  rfl

/-- To bind no index twice is more than to be spread. -/
theorem spread_of_nodup {t : Term} (h : t.binders.Nodup) : t.Spread := by
  induction t with
  | atom a => exact .atom a
  | lambda w type body ih =>
      obtain ⟨hw, hbody⟩ := List.nodup_cons.1 h
      exact .lambda hw (ih hbody)
  | binder op w args ih =>
      rw [binders_binder] at h
      obtain ⟨hw, hargs⟩ := List.nodup_cons.1 h
      have heach := (List.nodup_flatMap.1 hargs).1
      refine .binder (fun t ht hmem => hw ?_) fun t ht => ih t ht (heach t ht)
      exact List.mem_flatMap.2 ⟨t, ht, hmem⟩
  | app head args ihHead ihArgs =>
      rw [binders_app] at h
      obtain ⟨hhead, hargs, -⟩ := List.nodup_append.1 h
      have heach := (List.nodup_flatMap.1 hargs).1
      exact .app (ihHead hhead) fun t ht => ihArgs t ht (heach t ht)

/-- A change of variables that keeps them apart keeps a term spread. -/
theorem Spread.mapVars {f : Var → Var} {S : List Var}
    (hinj : ∀ x ∈ S, ∀ y ∈ S, f x = f y → x = y) {t : Term}
    (ht : ∀ y ∈ t.vars, y ∈ S) (h : t.Spread) : (t.mapVars f).Spread := by
  have not_mem {w : Var} (hw : w ∈ S) {t : Term} (ht : ∀ y ∈ t.vars, y ∈ S)
      (hnot : w ∉ t.binders) : f w ∉ (t.mapVars f).binders := by
    intro hmem
    rw [binders_mapVars] at hmem
    obtain ⟨y, hy, hfy⟩ := List.mem_map.1 hmem
    have heq : y = w := hinj y (ht y (mem_vars_of_mem_binders hy)) w hw hfy
    exact hnot (heq ▸ hy)
  induction h with
  | atom a => cases a <;> exact .atom _
  | lambda hw _ ih =>
      obtain ⟨hwS, hbody⟩ := forall_mem_vars_lambda.1 ht
      exact .lambda (not_mem hwS hbody hw) (ih hbody)
  | @binder op w args hw _ ih =>
      obtain ⟨hwS, hargs⟩ := forall_mem_vars_binder.1 ht
      rw [Term.mapVars, mapVarsAll_eq_map]
      refine .binder (fun u hu => ?_) fun u hu => ?_
      · obtain ⟨t, ht, rfl⟩ := List.mem_map.1 hu
        exact not_mem hwS (hargs t ht) (hw t ht)
      · obtain ⟨t, ht, rfl⟩ := List.mem_map.1 hu
        exact ih t ht (hargs t ht)
  | @app head args _ _ ihHead ihArgs =>
      obtain ⟨hhead, hargs⟩ := forall_mem_vars_app.1 ht
      rw [Term.mapVars, mapVarsAll_eq_map]
      refine .app (ihHead hhead) fun u hu => ?_
      obtain ⟨t, ht, rfl⟩ := List.mem_map.1 hu
      exact ihArgs t ht (hargs t ht)

/-- Only a binder of the variable traps it. -/
theorem traps_eq_false_of_not_mem_binders {v : Var} {t : Term}
    (h : v ∉ t.binders) : t.traps v = false := by
  induction t with
  | atom a => rfl
  | lambda w type body ih =>
      refine traps_lambda_eq_false.2 fun _ => ih fun hv => h ?_
      exact mem_binders_lambda.2 (.inr hv)
  | binder op w args ih =>
      refine traps_binder_eq_false.2 ⟨fun hw => ?_, fun t ht => ih t ht ?_⟩
      · exact absurd (mem_binders_binder.2 (.inl hw.symm)) h
      · exact fun hv => h (mem_binders_binder.2 (.inr ⟨t, ht, hv⟩))
  | app head args ihHead ihArgs =>
      refine traps_app_eq_false.2 ⟨ihHead ?_, fun t ht => ihArgs t ht ?_⟩
      · exact fun hv => h (mem_binders_app.2 (.inl hv))
      · exact fun hv => h (mem_binders_app.2 (.inr ⟨t, ht, hv⟩))

-- ===================================================== variables as heads

mutual
/-- The variable heads an application outside the lambdas over it. -/
def heads (v : Var) : Term → Bool
  | .atom _ => false
  | .lambda w _ body => w ≠ v && heads v body
  | .binder _ _ args => headsAny v args
  | .app head args => head = .ofVar v || heads v head || headsAny v args
/-- The variable heads an application in some term of the list. -/
def headsAny (v : Var) : List Term → Bool
  | [] => false
  | t :: ts => heads v t || headsAny v ts
end

@[simp] theorem headsAny_eq_any (v : Var) (ts : List Term) :
    headsAny v ts = ts.any (heads v) := by
  induction ts with
  | nil => rfl
  | cons t ts ih => rw [headsAny, ih, List.any_cons]

theorem heads_lambda_eq_false {v w : Var} {type : Ty} {body : Term} :
    (Term.lambda w type body).heads v = false
      ↔ (w ≠ v → body.heads v = false) := by
  rw [heads]
  by_cases h : w = v <;> simp [h]

theorem heads_binder_eq_false {v w : Var} {op : Builtin} {args : List Term} :
    (Term.binder op w args).heads v = false
      ↔ ∀ t ∈ args, t.heads v = false := by
  rw [heads, headsAny_eq_any]
  simp

/-- A variable heads nothing in an application if it is not the head and
heads nothing in head and arguments. -/
theorem heads_app_eq_false {v : Var} {head : Term} {args : List Term} :
    (Term.app head args).heads v = false
      ↔ (head ≠ .ofVar v ∧ head.heads v = false)
        ∧ ∀ t ∈ args, t.heads v = false := by
  rw [heads, headsAny_eq_any]
  simp

/-- Whether a variable heads applications does not depend on names. -/
theorem heads_mapVars {f : Var → Var} {S : List Var}
    (hinj : ∀ x ∈ S, ∀ y ∈ S, f x = f y → x = y) {v : Var} (hv : v ∈ S)
    {t : Term} (ht : ∀ y ∈ t.vars, y ∈ S) (h : t.heads v = false) :
    (t.mapVars f).heads (f v) = false := by
  induction t with
  | atom a => cases a <;> rfl
  | lambda w type body ih =>
      obtain ⟨_, hbody⟩ := forall_mem_vars_lambda.1 ht
      rw [mapVars, heads_lambda_eq_false]
      refine fun hne => ih hbody (heads_lambda_eq_false.1 h fun hw => hne ?_)
      rw [hw]
  | binder op w args ih =>
      obtain ⟨_, hargs⟩ := forall_mem_vars_binder.1 ht
      rw [mapVars, mapVarsAll_eq_map, heads_binder_eq_false]
      intro u hu
      obtain ⟨t, hmem, rfl⟩ := List.mem_map.1 hu
      exact ih t hmem (hargs t hmem) (heads_binder_eq_false.1 h t hmem)
  | app head args ihHead ihArgs =>
      obtain ⟨hhead, hargs⟩ := forall_mem_vars_app.1 ht
      obtain ⟨⟨hne, hh⟩, ha⟩ := heads_app_eq_false.1 h
      rw [mapVars, mapVarsAll_eq_map, heads_app_eq_false]
      refine ⟨⟨fun heq => ?_, ihHead hhead hh⟩, fun u hu => ?_⟩
      · cases head with
        | atom a =>
            cases a with
            | var w =>
                have hfw : f w = f v := Atom.var.inj (Term.atom.inj heq)
                have hw : w = v :=
                  hinj w (hhead w (mem_vars_atom.2 rfl)) v hv hfw
                exact hne (by rw [hw])
            | _ => cases heq
        | _ => cases heq
      · obtain ⟨t, hmem, rfl⟩ := List.mem_map.1 hu
        exact ihArgs t hmem (hargs t hmem) (ha t hmem)

/-- In a spread term the parameter is not trapped. -/
theorem Spread.untrapped {t : Term} (h : t.Spread) :
    t.trapsParameter = false := by
  cases h with
  | lambda hv _ => exact traps_eq_false_of_not_mem_binders hv
  | _ => rfl

end Term

namespace Form

-- ====================================================== plain functions

/-- The form is no abstraction over a variable that heads an application
in its body. -/
def Plain (f : Form) : Prop :=
  ∀ v type body, f.term = .lambda v type body → body.heads v = false

/-- A substitution for a variable that heads nothing makes no calls. -/
theorem not_mem_callsWithin_of_heads {c : Context} {v : Var} {arg : Form}
    {t : Term} (h : t.heads v = false) {p : Form × Form} :
    p ∉ callsWithin c v arg t := by
  induction t with
  | atom a => exact List.not_mem_nil
  | lambda w type body ih =>
      rw [callsWithin]
      by_cases hw : w = v
      · rw [if_pos hw]
        exact List.not_mem_nil
      · rw [if_neg hw]
        exact ih (Term.heads_lambda_eq_false.1 h hw)
  | binder op w args ih =>
      rw [callsWithin, callsWithinAll_eq_flatMap, List.mem_flatMap]
      intro hp
      obtain ⟨t, ht, hp⟩ := hp
      exact ih t ht (Term.heads_binder_eq_false.1 h t ht) hp
  | app head args ihHead ihArgs =>
      obtain ⟨⟨hne, hhead⟩, hargs⟩ := Term.heads_app_eq_false.1 h
      rw [callsWithin, callsWithinAll_eq_flatMap, if_neg hne, List.mem_append,
        List.mem_flatMap]
      intro hp
      rcases hp with ⟨t, ht, hp⟩ | hp
      · exact ihArgs t ht (hargs t ht) hp
      · exact ihHead hhead hp

/-- Applying a plain form calls for no other application. -/
theorem Plain.not_mem_calls {f a : Form} (hf : f.Plain) {p : Form × Form} :
    p ∉ calls f a := by
  intro hp
  obtain ⟨v, type, body, arg, hterm, -, -, hp⟩ := exists_of_mem_calls hp
  exact not_mem_callsWithin_of_heads (hf v type body hterm) hp

/-- The move of a form leaves it plain. -/
theorem Plain.moved {f a outer : Form} (ha : a.Plain)
    (houter : (moved f a).result = .ok outer) : outer.Plain := by
  intro v type body hterm
  rw [term_moved houter] at hterm
  cases haterm : a.term with
  | lambda w type' body' =>
      have hvars : ∀ y ∈ a.term.vars, y ∈ a.term.vars := fun _ hy => hy
      have hheads := ha w type' body' haterm
      rw [haterm] at hterm
      nth_rewrite 1 [haterm] at hvars
      obtain ⟨hw, hbody⟩ := Term.forall_mem_vars_lambda.1 hvars
      cases hterm
      exact Term.heads_mapVars relocate_inj hw hbody hheads
  | atom b =>
      rw [haterm] at hterm
      cases b <;> cases hterm
  | binder op w args =>
      rw [haterm] at hterm
      cases hterm
  | app head args =>
      rw [haterm] at hterm
      cases hterm

/-- The application of a plain form is clear if its operands are. -/
theorem clearRun_of_plain {f a : Form} (hplain : f.Plain)
    (hf : f.term.Spread) (hsplit : ∀ x ∈ a.term.binders, x ∉ a.term.freeVars) :
    ClearRun f a := by
  intro p hp
  cases hp with
  | itself => exact ⟨hsplit, hf.untrapped⟩
  | nested hp _ => exact absurd hp hplain.not_mem_calls

-- ======================================================= spread results

/-- The copies of the argument lie past what is around them. -/
theorem spread_of_substituted {H : Form × Form → Prop} {L : Nat} {c : Context}
    {v : Var} {arg : Form} (harg : arg.term.Spread)
    (hbinders : ∀ x ∈ arg.term.binders, L ≤ x.index) {t u : Term}
    (h : Substituted H c v arg t u) (hheads : t.heads v = false)
    (hlow : ∀ y ∈ t.vars, y.index < L) (ht : t.Spread) :
    u.Spread ∧ ∀ x ∈ u.binders, x ∈ t.binders ∨ x ∈ arg.term.binders := by
  -- what is not bound in a part of the term is not bound in what it becomes
  have not_mem {w : Var} (hw : w.index < L) {t u : Term} (hnot : w ∉ t.binders)
      (hu : ∀ x ∈ u.binders, x ∈ t.binders ∨ x ∈ arg.term.binders) :
      w ∉ u.binders := by
    intro hmem
    rcases hu w hmem with hmem | hmem
    · exact hnot hmem
    · have hle := hbinders w hmem
      omega
  revert hheads hlow ht
  refine substitute_induct (P := fun t u => t.heads v = false →
    (∀ y ∈ t.vars, y.index < L) → t.Spread →
    u.Spread ∧ ∀ x ∈ u.binders, x ∈ t.binders ∨ x ∈ arg.term.binders)
    ?var ?atom ?shadowed ?lambda ?binder ?curried ?headed h
  case var =>
    intro _ _ _
    exact ⟨harg, fun _ hx => .inr hx⟩
  case atom =>
    intro a _ _ _ ht
    exact ⟨ht, fun _ hx => .inl hx⟩
  case shadowed =>
    intro type body _ _ ht
    exact ⟨ht, fun _ hx => .inl hx⟩
  case lambda =>
    intro w type body body' hne _ ih hheads hlow ht
    obtain ⟨hw, hlow⟩ := Term.forall_mem_vars_lambda.1 hlow
    cases ht with
    | lambda hnot hbody =>
        have ih := ih (Term.heads_lambda_eq_false.1 hheads hne) hlow hbody
        refine ⟨.lambda (not_mem hw hnot ih.2) ih.1, fun x hx => ?_⟩
        rcases Term.mem_binders_lambda.1 hx with rfl | hx
        · exact .inl (Term.mem_binders_lambda.2 (.inl rfl))
        · exact (ih.2 x hx).imp_left fun hx => Term.mem_binders_lambda.2 (.inr hx)
  case binder =>
    intro op w args args' ih hheads hlow ht
    obtain ⟨hw, hlow⟩ := Term.forall_mem_vars_binder.1 hlow
    cases ht with
    | binder hnot hargs =>
        have each : ∀ u ∈ args', u.Spread ∧ ∃ t ∈ args, w ∉ t.binders
            ∧ ∀ x ∈ u.binders, x ∈ t.binders ∨ x ∈ arg.term.binders := by
          intro u hu
          obtain ⟨t, ht, -, hP⟩ := exists_left_of_mem ih hu
          have hu := hP (Term.heads_binder_eq_false.1 hheads t ht) (hlow t ht)
            (hargs t ht)
          exact ⟨hu.1, t, ht, hnot t ht, hu.2⟩
        refine ⟨.binder (fun u hu => ?_) fun u hu => (each u hu).1,
          fun x hx => ?_⟩
        · obtain ⟨-, t, -, hwt, hut⟩ := each u hu
          exact not_mem hw hwt hut
        · rcases Term.mem_binders_binder.1 hx with rfl | ⟨u, hu, hx⟩
          · exact .inl (Term.mem_binders_binder.2 (.inl rfl))
          · obtain ⟨-, t, ht, -, hut⟩ := each u hu
            exact (hut x hx).imp_left fun hx =>
              Term.mem_binders_binder.2 (.inr ⟨t, ht, hx⟩)
  case curried =>
    intro args args' g _ _ _ hheads _ _
    exact absurd rfl (Term.heads_app_eq_false.1 hheads).1.1
  case headed =>
    intro head head' args args' _ _ ihHead ihArgs hheads hlow ht
    obtain ⟨⟨-, hhead⟩, hargs⟩ := Term.heads_app_eq_false.1 hheads
    obtain ⟨hlowHead, hlowArgs⟩ := Term.forall_mem_vars_app.1 hlow
    cases ht with
    | app hspread hspreads =>
        have ihHead := ihHead hhead hlowHead hspread
        have each : ∀ u ∈ args', u.Spread ∧ ∃ t ∈ args,
            ∀ x ∈ u.binders, x ∈ t.binders ∨ x ∈ arg.term.binders := by
          intro u hu
          obtain ⟨t, ht, -, hP⟩ := exists_left_of_mem ihArgs hu
          have hu := hP (hargs t ht) (hlowArgs t ht) (hspreads t ht)
          exact ⟨hu.1, t, ht, hu.2⟩
        refine ⟨.app ihHead.1 fun u hu => (each u hu).1, fun x hx => ?_⟩
        rcases Term.mem_binders_app.1 hx with hx | ⟨u, hu, hx⟩
        · exact (ihHead.2 x hx).imp_left fun hx =>
            Term.mem_binders_app.2 (.inl hx)
        · obtain ⟨-, t, ht, hut⟩ := each u hu
          exact (hut x hx).imp_left fun hx =>
            Term.mem_binders_app.2 (.inr ⟨t, ht, hx⟩)

/-- A move takes all binders of an index along, so it keeps them spread. -/
theorem spread_moved {f a arg : Form} (ha : a.term.Spread)
    (harg : (moved f a).result = .ok arg) : arg.term.Spread := by
  rw [term_moved harg]
  exact ha.mapVars relocate_inj fun _ hy => hy

/-- Applying a plain form keeps forms spread, and what the result binds
besides the binders of the function lies past both operands. -/
theorem spread_apply {f a r : Form} (hplain : f.Plain) (hf : f.term.Spread)
    (ha : a.term.Spread) (hr : (apply f a).result = .ok r) :
    r.term.Spread
      ∧ ∀ x ∈ r.term.binders, x ∈ f.term.binders ∨ offset f a ≤ x.index := by
  cases hterm : f.term with
  | lambda v type body =>
      obtain ⟨arg, harg, -, hsub, -⟩ := apply_lambda_eq_ok hterm hr
      have hpast : ∀ x ∈ arg.term.binders, offset f a ≤ x.index :=
        fun _ hx => le_index_of_mem_binders_moved harg hx
      have hsubst : Substituted (fun _ => True) f.context v arg body r.term :=
        ⟨hsub, fun _ _ => trivial⟩
      rw [hterm] at hf
      cases hf with
      | lambda _ hbody =>
          obtain ⟨hspread, hfrom⟩ := spread_of_substituted (spread_moved ha harg)
            hpast hsubst (hplain v type body hterm)
            (index_lt_offset_of_lambda hterm).2 hbody
          refine ⟨hspread, fun x hx => ?_⟩
          rcases hfrom x hx with hx | hx
          · exact .inl (Term.mem_binders_lambda.2 (.inr hx))
          · exact .inr (hpast x hx)
  | _ =>
      have hlam : f.term.isLambda = false := by rw [hterm]; rfl
      obtain ⟨arg, harg, hrterm, -⟩ := apply_wrap_eq_ok hlam hr
      rw [hrterm, ← hterm]
      refine ⟨.app hf fun u hu => ?_, fun x hx => ?_⟩
      · rw [List.mem_singleton.1 hu]
        exact spread_moved ha harg
      · rcases Term.mem_binders_app.1 hx with hx | ⟨u, hu, hx⟩
        · exact .inl hx
        · rw [List.mem_singleton.1 hu] at hx
          exact .inr (le_index_of_mem_binders_moved harg hx)

/-- The parameter occurs in the body, if the form is an abstraction. -/
def UsesParameter (f : Form) : Prop :=
  ∀ v type body, f.term = .lambda v type body → v ∈ body.vars

/-- A moved abstraction has its parameter past the operands of its move,
and so the indices past it are past those operands too. -/
theorem offset_lt_offset_of_isLambda {f a outer : Form}
    (houter : (moved f a).result = .ok outer) (hlam : a.term.isLambda = true)
    (inner : Form) :
    offset f a < offset outer inner := by
  have houtlam : outer.term.isLambda = true := by
    rw [term_moved houter, Term.isLambda_mapVars, hlam]
  cases hterm : outer.term with
  | lambda w type body =>
      have hbound : w ∈ outer.term.binders := by
        rw [hterm]
        exact Term.mem_binders_lambda.2 (.inl rfl)
      have hle := le_index_of_mem_binders_moved houter hbound
      have hlt := index_lt_offset_left (a := inner)
        (Term.mem_vars_of_mem_binders hbound)
      omega
  | _ =>
      rw [hterm] at houtlam
      cases houtlam

/-- The parameter of the first form stays above the composed body, and
the indices past it are past its own because it occurs there, or because
the second form has a parameter that has moved past it. -/
theorem spread_compose {f a r : Form} (hplain : a.Plain)
    (huses : f.UsesParameter ∨ a.term.isLambda = true) (hf : f.term.Spread)
    (ha : a.term.Spread) (hr : (compose f a).result = .ok r) :
    r.term.Spread := by
  obtain ⟨v, type, body, inner, outer, s, hterm, hinner, houter, hs, hr⟩ :=
    compose_steps hr
  have hrterm : r.term = .lambda v type s.term := (result_ofTerm_eq_ok hr).1
  have hbody : inner.term = body := (result_ofTerm_eq_ok hinner).1
  have hinnerSpread : inner.term.Spread := by
    rw [hterm] at hf
    cases hf with
    | lambda _ h => exact hbody ▸ h
  obtain ⟨hspread, hfrom⟩ := spread_apply (hplain.moved houter)
    (spread_moved ha houter) hinnerSpread hs
  rw [hrterm]
  have hlt := (index_lt_offset_of_lambda (a := a) hterm).1
  refine .lambda (fun hv => ?_) hspread
  rcases hfrom v hv with hv | hv
  · have hle := le_index_of_mem_binders_moved houter hv
    omega
  · rcases huses with huses | hlam
    · have hmem : v ∈ inner.term.vars := hbody ▸ huses v type body hterm
      have hlt' := index_lt_offset_right (f := outer) hmem
      omega
    · have hlt' := offset_lt_offset_of_isLambda houter hlam inner
      omega

/-- The composition of a closed form with a plain one is clear. -/
theorem clearComposition_of_plain {f a : Form} (hplain : a.Plain)
    (hf : f.term.Spread) (hclosed : f.term.Closed) (ha : a.term.Spread) :
    ClearComposition f a := by
  intro v type body inner outer hterm hinner houter
  refine clearRun_of_plain (hplain.moved houter) (spread_moved ha houter) ?_
  rw [(result_ofTerm_eq_ok hinner).1]
  intro x hx hfree
  rw [hterm] at hf hclosed
  cases hf with
  | lambda hv _ =>
      have hne : x ≠ v := fun heq => hv (heq ▸ hx)
      exact Term.closed_iff.1 hclosed x (Term.mem_freeVars_lambda.2 ⟨hfree, hne⟩)

-- =============================================================== sessions

/-- The forms of a session in which the form that is applied, or that is
composed with, is plain. -/
inductive PlainSession (given : Form → Prop) : Form → Prop
  | given {g : Form} : given g → PlainSession given g
  | applied {f a r : Form} : PlainSession given f → PlainSession given a →
      f.Plain → (apply f a).result = .ok r → PlainSession given r
  | composed {f a r : Form} : PlainSession given f → PlainSession given a →
      a.Plain → f.UsesParameter → (compose f a).result = .ok r →
      PlainSession given r

/-- Every step of a plain session is clear. -/
theorem PlainSession.spread_derived {given : Form → Prop}
    (hgiven : ∀ g, given g → g.term.Closed ∧ g.term.binders.Nodup) {f : Form}
    (h : PlainSession given f) : f.term.Spread ∧ Derived given f := by
  have hclosed : ∀ {g}, Derived given g → g.term.Closed :=
    fun hg => hg.closed fun g hg => (hgiven g hg).1
  induction h with
  | given hg => exact ⟨Term.spread_of_nodup (hgiven _ hg).2, .given hg⟩
  | applied _ _ hplain hr ihf iha =>
      obtain ⟨hfs, hfd⟩ := ihf
      obtain ⟨has, had⟩ := iha
      have hclear := clearRun_of_plain hplain hfs
        fun x _ => Term.closed_iff.1 (hclosed had) x
      exact ⟨(spread_apply hplain hfs has hr).1, .applied hfd had hclear hr⟩
  | composed _ _ hplain huses hr ihf iha =>
      obtain ⟨hfs, hfd⟩ := ihf
      obtain ⟨has, had⟩ := iha
      have hclear := clearComposition_of_plain hplain hfs (hclosed hfd) has
      exact ⟨spread_compose hplain (.inl huses) hfs has hr,
        .composed hfd had hclear hr⟩

/-- In a session that starts from closed forms which bind no index twice,
and in which no parameter is used as a function, the tree of what an
application gives is what the trees of its operands reduce to. -/
theorem plain_application_reduces_trees {given : Form → Prop}
    (hgiven : ∀ g, given g → g.term.Closed ∧ g.term.binders.Nodup)
    {f a r : Form} (hf : PlainSession given f) (ha : PlainSession given a)
    (hplain : f.Plain) (hr : (apply f a).result = .ok r) :
    Scoped.Reduces (f.term.toScoped []) (a.term.toScoped [])
      (r.term.toScoped []) := by
  obtain ⟨hfs, -⟩ := hf.spread_derived hgiven
  obtain ⟨-, had⟩ := ha.spread_derived hgiven
  have hclosed := had.closed fun g hg => (hgiven g hg).1
  have hclear := clearRun_of_plain hplain hfs
    fun x _ => Term.closed_iff.1 hclosed x
  exact reduces_of_clearRun hclosed hclear hr

end Form

end LogicalForm
