/-
Which free variables of an argument stay free. Only the bound variables
of an argument move; its free variables go into the body as they are. So
two things can become of a free `$x` of the argument. A binder of `$x` in
the body takes it in, where the parameter stands under that binder. And
where the parameter heads an application, the argument is reduced, and
its reduction may leave `$x` out together with a piece that it drops.

# The condition

`reaches` looks for an occurrence of the parameter at which neither can
happen: outside every binder of `$x`, and, where reduction might drop
`$x`, with nothing applied to it and outside the arguments of every
application that the parameter heads. Reduction drops only what stands in the
arguments of a variable that it substitutes, so a form with `$x` outside
all such arguments (`holds`, after the rigid occurrences of higher-order
unification) keeps `$x` whatever it is applied to, and so does a form
that is no abstraction.

# Main statement

`free_variable_of_argument_stays_free`: one such occurrence in the body
is enough for `$x` to be free in the result.
-/
import LogicalForm.Proofs.Renaming

namespace LogicalForm

namespace Term

-- =================================================== rigid occurrences

/-- The term is not headed by a variable of `hs`, and no substitution for
these can make it so. -/
def rigid (hs : List Var) : Term → Bool
  | .atom (.var v) => !hs.contains v
  | .atom _ => true
  | .lambda .. => true
  | .binder .. => true
  | .app head _ => rigid hs head

mutual
/-- The variable occurs free outside the arguments of every application
that a variable of `hs`, or of a lambda on the way, heads. -/
def holds (x : Var) (hs : List Var) : Term → Bool
  | .atom a => a = .var x
  | .lambda w _ body => w ≠ x && holds x (w :: hs) body
  | .binder _ w args => w ≠ x && holdsAny x hs args
  | .app head args => holds x hs head || (rigid hs head && holdsAny x hs args)
/-- Some term of the list holds the variable. -/
def holdsAny (x : Var) (hs : List Var) : List Term → Bool
  | [] => false
  | t :: ts => holds x hs t || holdsAny x hs ts
end

@[simp] theorem holdsAny_eq_any (x : Var) (hs : List Var) (ts : List Term) :
    holdsAny x hs ts = ts.any (holds x hs) := by
  induction ts with
  | nil => rfl
  | cons t ts ih => rw [holdsAny, ih, List.any_cons]

theorem rigid_ofVar {hs : List Var} {v : Var} :
    (ofVar v).rigid hs = true ↔ v ∉ hs := by
  simp [rigid]

theorem holds_lambda {x w : Var} {hs : List Var} {type : Ty} {body : Term} :
    (Term.lambda w type body).holds x hs = true
      ↔ w ≠ x ∧ body.holds x (w :: hs) = true := by
  simp [holds]

theorem holds_binder {x w : Var} {hs : List Var} {op : Builtin}
    {args : List Term} :
    (Term.binder op w args).holds x hs = true
      ↔ w ≠ x ∧ ∃ t ∈ args, t.holds x hs = true := by
  simp [holds]

/-- An application holds what its head holds, and what its arguments hold if
the head is rigid. -/
theorem holds_app {x : Var} {hs : List Var} {head : Term} {args : List Term} :
    (Term.app head args).holds x hs = true
      ↔ head.holds x hs = true
        ∨ head.rigid hs = true ∧ ∃ t ∈ args, t.holds x hs = true := by
  simp [holds]

/-- Fewer variables to beware of make more heads rigid. -/
theorem rigid_anti {hs hs' : List Var} (hsub : hs' ⊆ hs) {t : Term}
    (h : t.rigid hs = true) : t.rigid hs' = true := by
  induction t with
  | atom a =>
      cases a with
      | var v => exact rigid_ofVar.2 fun hv => rigid_ofVar.1 h (hsub hv)
      | builtin b => rfl
      | const text stated => rfl
  | lambda w type body _ => rfl
  | binder op w args _ => rfl
  | app head args ihHead _ =>
      rw [rigid] at h ⊢
      exact ihHead h

/-- The fewer variables may be replaced, the more a term holds. -/
theorem holds_anti {x : Var} {hs hs' : List Var} (hsub : hs' ⊆ hs) {t : Term}
    (h : t.holds x hs = true) : t.holds x hs' = true := by
  induction t generalizing hs hs' with
  | atom a => exact h
  | lambda w type body ih =>
      obtain ⟨hw, hbody⟩ := holds_lambda.1 h
      exact holds_lambda.2 ⟨hw, ih (List.cons_subset_cons w hsub) hbody⟩
  | binder op w args ih =>
      obtain ⟨hw, t, ht, hx⟩ := holds_binder.1 h
      exact holds_binder.2 ⟨hw, t, ht, ih t ht hsub hx⟩
  | app head args ihHead ihArgs =>
      rcases holds_app.1 h with hx | ⟨hrigid, t, ht, hx⟩
      · exact holds_app.2 (.inl (ihHead hsub hx))
      · exact holds_app.2
          (.inr ⟨rigid_anti hsub hrigid, t, ht, ihArgs t ht hsub hx⟩)

/-- What is held occurs free. -/
theorem mem_freeVars_of_holds {x : Var} {hs : List Var} {t : Term}
    (h : t.holds x hs = true) : x ∈ t.freeVars := by
  induction t generalizing hs with
  | atom a => exact mem_freeVars_atom.2 (of_decide_eq_true h)
  | lambda w type body ih =>
      obtain ⟨hw, hbody⟩ := holds_lambda.1 h
      exact mem_freeVars_lambda.2 ⟨ih hbody, hw.symm⟩
  | binder op w args ih =>
      obtain ⟨hw, t, ht, hx⟩ := holds_binder.1 h
      exact mem_freeVars_binder.2 ⟨⟨t, ht, ih t ht hx⟩, hw.symm⟩
  | app head args ihHead ihArgs =>
      rcases holds_app.1 h with hx | ⟨-, t, ht, hx⟩
      · exact mem_freeVars_app.2 (.inl (ihHead hx))
      · exact mem_freeVars_app.2 (.inr ⟨t, ht, ihArgs t ht hx⟩)

-- ============================================= occurrences that survive

mutual
/-- The parameter `v` stands somewhere outside every binder of `x`, and,
if it must stand alone, neither heads an application there nor is part of
the arguments of one that it heads. -/
def reaches (v x : Var) (alone : Bool) : Term → Bool
  | .atom a => a = .var v
  | .lambda w _ body => w ≠ v && w ≠ x && reaches v x alone body
  | .binder _ w args => w ≠ x && reachesAny v x alone args
  | .app head args =>
    if head = .ofVar v then !alone || args.isEmpty
    else reaches v x alone head || reachesAny v x alone args
/-- The parameter stands so in some term of the list. -/
def reachesAny (v x : Var) (alone : Bool) : List Term → Bool
  | [] => false
  | t :: ts => reaches v x alone t || reachesAny v x alone ts
end

@[simp] theorem reachesAny_eq_any (v x : Var) (alone : Bool) (ts : List Term) :
    reachesAny v x alone ts = ts.any (reaches v x alone) := by
  induction ts with
  | nil => rfl
  | cons t ts ih => rw [reachesAny, ih, List.any_cons]

/-- Reduction may drop the variable from the term: the term is an
abstraction and does not hold the variable. -/
def mayDrop (x : Var) (t : Term) : Bool := t.isLambda && !t.holds x []

section

variable {f : Var → Var} {S : List Var}
  (hinj : ∀ x ∈ S, ∀ y ∈ S, f x = f y → x = y)

include hinj

/-- A renaming that keeps variables apart keeps a term rigid. -/
theorem rigid_mapVars {hs : List Var} {t : Term} (ht : ∀ y ∈ t.vars, y ∈ S)
    (hhs : ∀ y ∈ hs, y ∈ S) :
    (t.mapVars f).rigid (hs.map f) = t.rigid hs := by
  induction t with
  | atom a =>
      cases a with
      | var v =>
          have hv : v ∈ S := ht v (mem_vars_atom.2 rfl)
          rw [Bool.eq_iff_iff, mapVars, rigid_ofVar, rigid_ofVar]
          refine not_congr ⟨fun h => ?_, List.mem_map_of_mem⟩
          obtain ⟨w, hw, hfw⟩ := List.mem_map.1 h
          rwa [← hinj w (hhs w hw) v hv hfw]
      | builtin b => rfl
      | const text stated => rfl
  | lambda w type body _ => rfl
  | binder op w args _ => rfl
  | app head args ihHead _ =>
      rw [mapVars, rigid, rigid]
      exact ihHead (forall_mem_vars_app.1 ht).1

/-- Whether a variable is held does not depend on names. -/
theorem holds_mapVars {x : Var} (hx : x ∈ S) {hs : List Var} {t : Term}
    (ht : ∀ y ∈ t.vars, y ∈ S) (hhs : ∀ y ∈ hs, y ∈ S) :
    (t.mapVars f).holds (f x) (hs.map f) = t.holds x hs := by
  have any {ts : List Term} (hts : ∀ t ∈ ts, ∀ y ∈ t.vars, y ∈ S)
      (ih : ∀ t ∈ ts, ∀ {hs : List Var}, (∀ y ∈ t.vars, y ∈ S) →
        (∀ y ∈ hs, y ∈ S) →
        (t.mapVars f).holds (f x) (hs.map f) = t.holds x hs)
      {hs : List Var} (hhs : ∀ y ∈ hs, y ∈ S) :
      holdsAny (f x) (hs.map f) (ts.map (mapVars f)) = holdsAny x hs ts := by
    rw [holdsAny_eq_any, holdsAny_eq_any, List.any_map, Bool.eq_iff_iff,
      List.any_eq_true, List.any_eq_true]
    refine exists_congr fun t => and_congr_right fun hmem => ?_
    rw [Function.comp_apply, ih t hmem (hts t hmem) hhs]
  have ne_eq {w : Var} (hw : w ∈ S) :
      (decide (f w ≠ f x)) = decide (w ≠ x) := by
    refine decide_eq_decide.2 (not_congr ⟨hinj w hw x hx, ?_⟩)
    intro heq
    subst heq
    rfl
  induction t generalizing hs with
  | atom a =>
      cases a with
      | var v =>
          have hv : v ∈ S := ht v (mem_vars_atom.2 rfl)
          refine decide_eq_decide.2 ?_
          rw [Atom.var.injEq, Atom.var.injEq]
          refine ⟨hinj v hv x hx, ?_⟩
          intro heq
          subst heq
          rfl
      | builtin b => rfl
      | const text stated => rfl
  | lambda w type body ih =>
      obtain ⟨hw, hbody⟩ := forall_mem_vars_lambda.1 ht
      have hcons : ∀ y ∈ w :: hs, y ∈ S := List.forall_mem_cons.2 ⟨hw, hhs⟩
      rw [mapVars, holds, holds, ne_eq hw, ← List.map_cons, ih hbody hcons]
  | binder op w args ih =>
      obtain ⟨hw, hargs⟩ := forall_mem_vars_binder.1 ht
      rw [mapVars, mapVarsAll_eq_map, holds, holds, ne_eq hw,
        any hargs (fun t ht {hs} => ih t ht) hhs]
  | app head args ihHead ihArgs =>
      obtain ⟨hhead, hargs⟩ := forall_mem_vars_app.1 ht
      rw [mapVars, mapVarsAll_eq_map, holds, holds, ihHead hhead hhs,
        rigid_mapVars hinj hhead hhs,
        any hargs (fun t ht {hs} => ihArgs t ht) hhs]

end

end Term

namespace Form

-- ============================================== what reduction preserves

/-- Substitution for a variable to beware of leaves rigid heads rigid and
held variables held. -/
theorem holds_substitute {c : Context} {v x : Var} {arg : Form} (hvx : v ≠ x)
    {t u : Term} (h : (substitute apply c v arg t).result = .ok u)
    {hs : List Var} (hv : v ∈ hs) :
    (t.rigid hs = true → u.rigid hs = true)
      ∧ (t.holds x hs = true → u.holds x hs = true) := by
  revert hs
  refine substitute_induct (H := fun _ => True) (P := fun t u =>
    ∀ {hs : List Var}, v ∈ hs → (t.rigid hs = true → u.rigid hs = true)
      ∧ (t.holds x hs = true → u.holds x hs = true))
    ?var ?atom ?shadowed ?lambda ?binder ?curried ?headed
    ⟨h, fun _ _ => trivial⟩
  case var =>
    intro hs hv
    refine ⟨fun h => absurd hv (Term.rigid_ofVar.1 h), fun h => ?_⟩
    exact absurd (Atom.var.inj (of_decide_eq_true h)) hvx
  case atom =>
    intro a _ hs _
    exact ⟨id, id⟩
  case shadowed =>
    intro type body hs _
    exact ⟨id, id⟩
  case lambda =>
    intro w type body body' _ _ ih hs hv
    refine ⟨fun _ => rfl, fun h => ?_⟩
    obtain ⟨hw, hbody⟩ := Term.holds_lambda.1 h
    exact Term.holds_lambda.2
      ⟨hw, (ih (List.mem_cons_of_mem w hv)).2 hbody⟩
  case binder =>
    intro op w args args' ih hs hv
    refine ⟨fun _ => rfl, fun h => ?_⟩
    obtain ⟨hw, t, ht, hx⟩ := Term.holds_binder.1 h
    obtain ⟨u, hu, -, hP⟩ := exists_right_of_mem ih ht
    exact Term.holds_binder.2 ⟨hw, u, hu, (hP hv).2 hx⟩
  case curried =>
    intro args args' g _ _ _ hs hv
    refine ⟨fun h => absurd hv (Term.rigid_ofVar.1 h), fun h => ?_⟩
    rcases Term.holds_app.1 h with hx | ⟨hrigid, -⟩
    · exact absurd (Atom.var.inj (of_decide_eq_true hx)) hvx
    · exact absurd hv (Term.rigid_ofVar.1 hrigid)
  case headed =>
    intro head head' args args' _ _ ihHead ihArgs hs hv
    refine ⟨fun h => (ihHead hv).1 h, fun h => ?_⟩
    rcases Term.holds_app.1 h with hx | ⟨hrigid, t, ht, hx⟩
    · exact Term.holds_app.2 (.inl ((ihHead hv).2 hx))
    · obtain ⟨u, hu, -, hP⟩ := exists_right_of_mem ihArgs ht
      exact Term.holds_app.2
        (.inr ⟨(ihHead hv).1 hrigid, u, hu, (hP hv).2 hx⟩)

/-- A form that holds a variable holds it whatever the form is applied
to. -/
theorem holds_apply {x : Var} {g b r : Form} (hg : g.term.holds x [] = true)
    (h : (apply g b).result = .ok r) : r.term.holds x [] = true := by
  cases hterm : g.term with
  | lambda w type body =>
      rw [hterm] at hg
      obtain ⟨hw, hbody⟩ := Term.holds_lambda.1 hg
      obtain ⟨arg, -, -, hsub, -⟩ := apply_lambda_eq_ok hterm h
      have hx := (holds_substitute hw hsub (List.mem_singleton_self w)).2 hbody
      exact Term.holds_anti (List.nil_subset _) hx
  | _ =>
      have hlam : g.term.isLambda = false := by rw [hterm]; rfl
      obtain ⟨arg, -, hr, -⟩ := apply_wrap_eq_ok hlam h
      rw [hr]
      exact Term.holds_app.2 (.inl hg)

/-- Unless reduction may drop it, a free variable stays free in a form
that is applied to one term after the other. -/
theorem mem_freeVars_applyAll {x : Var} {c : Context} {arg g : Form}
    {ts : List Term} (hx : x ∈ arg.term.freeVars)
    (hdrop : arg.term.mayDrop x = false)
    (h : (applyAll apply c arg ts).result = .ok g) : x ∈ g.term.freeVars := by
  rcases Bool.and_eq_false_iff.1 hdrop with hlam | hholds
  · -- no abstraction: every argument is wrapped around what is there
    refine (applyAll_keeps
      (R := fun g => g.term.isLambda = false ∧ x ∈ g.term.freeVars)
      (fun p _ s hp hs => ?_) ⟨hlam, hx⟩ h).2
    obtain ⟨hplam, hpx⟩ := hp
    obtain ⟨b, -, hterm, -⟩ := apply_wrap_eq_ok hplam hs
    rw [hterm]
    exact ⟨rfl, Term.mem_freeVars_app.2 (.inl hpx)⟩
  · have hheld : arg.term.holds x [] = true := by simpa using hholds
    exact Term.mem_freeVars_of_holds
      (applyAll_keeps (R := fun g => g.term.holds x [] = true)
        (fun p _ s hp hs => holds_apply hp hs) hheld h)

/-- Substitution keeps a free variable of what it puts in, where the
parameter reaches past the binders of that variable. -/
theorem mem_freeVars_substitute {c : Context} {v x : Var} {arg : Form}
    (hx : x ∈ arg.term.freeVars) {t u : Term}
    (h : (substitute apply c v arg t).result = .ok u)
    (hreach : t.reaches v x (arg.term.mayDrop x) = true) :
    x ∈ u.freeVars := by
  revert hreach
  refine substitute_induct (H := fun _ => True) (P := fun t u =>
    t.reaches v x (arg.term.mayDrop x) = true → x ∈ u.freeVars)
    ?var ?atom ?shadowed ?lambda ?binder ?curried ?headed
    ⟨h, fun _ _ => trivial⟩
  case var =>
    intro _
    exact hx
  case atom =>
    intro a ha h
    exact absurd (of_decide_eq_true h) ha
  case shadowed =>
    intro type body h
    simp [Term.reaches] at h
  case lambda =>
    intro w type body body' _ _ ih h
    rw [Term.reaches] at h
    simp only [Bool.and_eq_true, decide_eq_true_eq] at h
    exact Term.mem_freeVars_lambda.2 ⟨ih h.2, h.1.2.symm⟩
  case binder =>
    intro op w args args' ih h
    rw [Term.reaches, Term.reachesAny_eq_any] at h
    simp only [Bool.and_eq_true, decide_eq_true_eq, List.any_eq_true] at h
    obtain ⟨hw, t, ht, hreach⟩ := h
    obtain ⟨u, hu, -, hP⟩ := exists_right_of_mem ih ht
    exact Term.mem_freeVars_binder.2 ⟨⟨u, hu, hP hreach⟩, hw.symm⟩
  case curried =>
    intro args args' g hargs _ hg h
    rw [Term.reaches, if_pos rfl] at h
    rw [Bool.or_eq_true] at h
    rcases h with hdrop | hempty
    · exact mem_freeVars_applyAll hx (by simpa using hdrop) hg
    · cases args with
      | nil =>
          cases hargs
          cases hg
          exact hx
      | cons t ts => cases hempty
  case headed =>
    intro head head' args args' hhead _ ihHead ihArgs h
    rw [Term.reaches, if_neg hhead, Term.reachesAny_eq_any] at h
    simp only [Bool.or_eq_true, List.any_eq_true] at h
    rcases h with hreach | ⟨t, ht, hreach⟩
    · exact Term.mem_freeVars_app.2 (.inl (ihHead hreach))
    · obtain ⟨u, hu, -, hP⟩ := exists_right_of_mem ihArgs ht
      exact Term.mem_freeVars_app.2 (.inr ⟨u, hu, hP hreach⟩)

/-- The move of an argument does not change what reduction may drop. -/
theorem mayDrop_moved {f a arg : Form} (harg : (moved f a).result = .ok arg)
    {x : Var} (hx : x ∈ a.term.freeVars) (hbound : x ∉ a.term.binders) :
    arg.term.mayDrop x = a.term.mayDrop x := by
  have hheld := Term.holds_mapVars (relocate_inj (f := f))
    (Term.mem_vars_of_mem_freeVars hx) (t := a.term) (fun _ hy => hy)
    (List.forall_mem_nil _)
  rw [relocate_of_not_mem hbound, List.map_nil] at hheld
  rw [Term.mayDrop, Term.mayDrop, term_moved harg, Term.isLambda_mapVars, hheld]

/-- A variable that occurs free in the argument, and is not bound in it
besides, occurs free in the result, provided the parameter stands
somewhere outside the binders of that variable and, unless the argument
is no abstraction or holds the variable, outside the applications that
the parameter heads. -/
theorem free_variable_of_argument_stays_free {f a r : Form} {v x : Var}
    {type : Ty} {body : Term} (hf : f.term = .lambda v type body)
    (hrun : (apply f a).result = .ok r) (hx : x ∈ a.term.freeVars)
    (hbound : x ∉ a.term.binders)
    (hreach : body.reaches v x (a.term.mayDrop x) = true) :
    x ∈ r.term.freeVars := by
  obtain ⟨arg, harg, -, hsub, -⟩ := apply_lambda_eq_ok hf hrun
  rw [← mayDrop_moved harg hx hbound] at hreach
  have hfree := mem_freeVars_moved_of_not_mem_binders harg hx hbound
  exact mem_freeVars_substitute hfree hsub hreach

/-- Beside an occurrence under a binder of `$1`, the parameter stands
outside that binder, as the head of an application: the free `$1` of the
argument, an abstraction that holds it, stays. -/
theorem free_variable_of_abstraction_stays_free :
    ∃ f, (parse (Context.empty.insertVar ⟨1⟩ .entity)
          "(lambda $0 <e,t> (and ($0 k:e) (exists $1 ($0 $1))))").result = .ok f
      ∧ ∃ a, (parse (Context.empty.insertVar ⟨1⟩ .entity)
          "(lambda $2 e (p:t $2 $1))").result = .ok a
      ∧ ∃ r, (apply f a).result = .ok r ∧ ⟨1⟩ ∈ r.term.freeVars := by
  have hrun : ∃ f, (parse (Context.empty.insertVar ⟨1⟩ .entity)
        "(lambda $0 <e,t> (and ($0 k:e) (exists $1 ($0 $1))))").result = .ok f
      ∧ ∃ a, (parse (Context.empty.insertVar ⟨1⟩ .entity)
          "(lambda $2 e (p:t $2 $1))").result = .ok a
      ∧ ∃ r, (apply f a).result = .ok r
      ∧ f.term = .lambda ⟨0⟩ (.func .entity .truth)
          (.app (.atom (.builtin .and))
            [.app (.ofVar ⟨0⟩) [.atom (.const "k:e" (some .entity))],
              .binder .existential ⟨1⟩ [.app (.ofVar ⟨0⟩) [.ofVar ⟨1⟩]]])
      ∧ ⟨1⟩ ∈ a.term.freeVars ∧ ⟨1⟩ ∉ a.term.binders
      ∧ (Term.app (.atom (.builtin .and))
          [.app (.ofVar ⟨0⟩) [.atom (.const "k:e" (some .entity))],
            .binder .existential ⟨1⟩ [.app (.ofVar ⟨0⟩) [.ofVar ⟨1⟩]]]).reaches
          ⟨0⟩ ⟨1⟩ (a.term.mayDrop ⟨1⟩) = true := by
    decide +kernel
  obtain ⟨f, hf, a, ha, r, hr, hterm, hfree, hbound, hreach⟩ := hrun
  exact ⟨f, hf, a, ha, r, hr,
    free_variable_of_argument_stays_free hterm hr hfree hbound hreach⟩

/-- The provisos are needed. A binder of the body captures the free `$1`
of the first argument; reducing the second one drops its free `$7`
together with the term that `$1` is replaced by; and the third binds `$1`
besides, so the free `$1` moves along to another index. -/
theorem free_variable_of_argument_captured_dropped_and_moved :
    (∃ f, (parse (Context.empty.insertVar ⟨1⟩ .entity)
          "(lambda $0 e (exists $1 (p:t $0 $1)))").result = .ok f
      ∧ ∃ a, (parse (Context.empty.insertVar ⟨1⟩ .entity) "$1").result = .ok a
      ∧ ∃ r, (apply f a).result = .ok r
      ∧ f.term = .lambda ⟨0⟩ .entity (.binder .existential ⟨1⟩
          [.app (.atom (.const "p:t" (some .truth)))
            [.ofVar ⟨0⟩, .ofVar ⟨1⟩]])
      ∧ ⟨1⟩ ∈ a.term.freeVars ∧ ⟨1⟩ ∉ r.term.freeVars)
    ∧ (∃ f, (parse (Context.empty.insertVar ⟨7⟩ .entity)
          "(lambda $0 <<e,t>,t> ($0 (lambda $3 e p:t)))").result = .ok f
      ∧ ∃ a, (parse (Context.empty.insertVar ⟨7⟩ .entity)
          "(lambda $1 <e,t> ($1 $7))").result = .ok a
      ∧ ∃ r, (apply f a).result = .ok r
      ∧ f.term = .lambda ⟨0⟩ (.func (.func .entity .truth) .truth)
          (.app (.ofVar ⟨0⟩) [.lambda ⟨3⟩ .entity
            (.atom (.const "p:t" (some .truth)))])
      ∧ ⟨7⟩ ∈ a.term.freeVars ∧ ⟨7⟩ ∉ r.term.freeVars)
    ∧ ∃ f, (parse (Context.empty.insertVar ⟨1⟩ .truth)
          "(lambda $0 t $0)").result = .ok f
      ∧ ∃ a, (parse (Context.empty.insertVar ⟨1⟩ .truth)
          "(and $1 (exists $1 (p:t $1)))").result = .ok a
      ∧ ∃ r, (apply f a).result = .ok r
      ∧ f.term = .lambda ⟨0⟩ .truth (.ofVar ⟨0⟩)
      ∧ ⟨1⟩ ∈ a.term.freeVars ∧ ⟨1⟩ ∉ r.term.freeVars := by
  refine ⟨?captured, ?dropped, ?moved⟩
  case captured => decide +kernel
  case dropped => decide +kernel
  case moved => decide +kernel

end Form

end LogicalForm
