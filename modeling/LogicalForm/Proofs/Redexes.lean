/-
Redexes of results. An application contracts the abstraction that it is
about and the uses of its parameter, `($V a b)`, for as many arguments as
stand there. It contracts nothing else. An application whose head only
becomes an abstraction on the way is put together again and stays.

# Where such heads come from

Substitution makes an abstraction of nothing but the parameter. The
parameter itself at the head of an application is what is contracted, so
only a use of it is left, standing at the head of a further application,
as `($V a)` does in `(($V a) b)` (`Term.stackedUses`). Unless one of these
reduces to an abstraction, in the application at hand or in one that it
performs, operands without redexes have a result without redexes
(`application_leaves_no_redex`). One that does leaves a redex behind
(`redex_of_stacks`), unless it stands in an argument of another use, which
may drop it.

# Looking at the operands is not enough

A variable that is applied to several arguments at once comes out applied
to one after the other, so an argument may have a stacked use of its own
parameter by the time its turn comes (`stacked_uses_leave_redexes`). A
parameter that takes no functions cannot have this done to it: what its
argument is applied to is no abstraction and contracts nothing
(`unstacked_of_firstOrder`).
-/
import LogicalForm.Proofs.Reached

namespace LogicalForm

-- ================================================================ order

namespace Ty

/-- The type takes no functions: none of its domains has a codomain. -/
def firstOrder : Ty → Bool
  | func d c => d.codomain?.isNone && c.firstOrder
  | _ => true

/-- A type without a codomain counts for one. -/
theorem size_lt_two_of_codomain? {t : Ty} (h : t.codomain?.isNone = true) :
    t.size < 2 := by
  cases t with
  | func d c => cases h
  | _ => exact Nat.one_lt_two

end Ty

/-- The lambdas at the spine of a term of a type that takes no functions
state no function types. -/
theorem Term.spineBelow_of_firstOrder {c : Context} {t : Term} {type : Ty}
    (h : c.infer t = .ok type) (htype : type.firstOrder = true) :
    t.SpineBelow 2 := by
  induction t generalizing type with
  | lambda v declared body ih =>
      obtain ⟨codomain, hbody, rfl⟩ := Context.infer_lambda_eq_ok h
      rw [Ty.firstOrder, Bool.and_eq_true] at htype
      exact ⟨Ty.size_lt_two_of_codomain? htype.1, ih hbody htype.2⟩
  | atom a => trivial
  | binder op v args _ => trivial
  | app head args _ _ => trivial

namespace Term

-- ============================================================== redexes

/-- The term is the application of an abstraction. -/
def isRedex : Term → Bool
  | .app head _ => head.isLambda
  | .atom _ | .lambda .. | .binder .. => false

/-- Nowhere in the term an abstraction is applied. -/
def RedexFree (t : Term) : Prop := ∀ s ∈ t.subterms, s.isRedex = false

instance decidableRedexFree (t : Term) : Decidable t.RedexFree :=
  inferInstanceAs (Decidable (∀ s ∈ t.subterms, s.isRedex = false))

section

variable {v : Var} {type : Ty} {op : Builtin} {head body : Term}
  {args : List Term}

theorem redexFree_atom (a : Atom) : (Term.atom a).RedexFree := by
  rw [RedexFree, subterms, List.forall_mem_singleton, isRedex]

theorem redexFree_lambda :
    (Term.lambda v type body).RedexFree ↔ body.RedexFree := by
  rw [RedexFree, subterms, List.forall_mem_cons, isRedex, RedexFree]
  exact and_iff_right rfl

theorem redexFree_binder :
    (Term.binder op v args).RedexFree ↔ ∀ t ∈ args, t.RedexFree := by
  rw [RedexFree, subterms, List.forall_mem_cons, isRedex,
    forall_mem_subtermsAll]
  exact and_iff_right rfl

theorem redexFree_app :
    (Term.app head args).RedexFree
      ↔ head.isLambda = false ∧ head.RedexFree ∧ ∀ t ∈ args, t.RedexFree := by
  rw [RedexFree, subterms, List.forall_mem_cons, List.forall_mem_append, isRedex,
    forall_mem_subtermsAll]
  exact Iff.rfl

end

/-- A change of variables contracts and expands nothing. -/
theorem RedexFree.mapVars (f : Var → Var) {t : Term} (h : t.RedexFree) :
    (t.mapVars f).RedexFree := by
  induction t with
  | atom a =>
      cases a with
      | var v => exact redexFree_atom _
      | builtin b => exact redexFree_atom _
      | const text stated => exact redexFree_atom _
  | lambda v type body ih =>
      exact redexFree_lambda.2 (ih (redexFree_lambda.1 h))
  | binder op v args ih =>
      have hargs := redexFree_binder.1 h
      rw [Term.mapVars, mapVarsAll_eq_map]
      refine redexFree_binder.2 (List.forall_mem_map.2 fun t ht => ?_)
      exact ih t ht (hargs t ht)
  | app head args ihHead ihArgs =>
      obtain ⟨hlambda, hhead, hargs⟩ := redexFree_app.1 h
      rw [Term.mapVars, mapVarsAll_eq_map]
      refine redexFree_app.2 ⟨?_, ihHead hhead,
        List.forall_mem_map.2 fun t ht => ihArgs t ht (hargs t ht)⟩
      rw [isLambda_mapVars, hlambda]

-- ========================================================= stacked uses

/-- The term is an application that the variable heads. -/
def isUse (v : Var) : Term → Bool
  | .app head _ => head = .ofVar v
  | .atom _ | .lambda .. | .binder .. => false

mutual
/-- The uses of the variable that stand as the heads of further
applications, outside the lambdas over it. -/
def stackedUses (v : Var) : Term → List Term
  | .atom _ => []
  | .lambda w _ body => if w = v then [] else stackedUses v body
  | .binder _ _ args => stackedUsesAll v args
  | .app head args =>
    (if head.isUse v then [head] else []) ++ stackedUses v head
      ++ stackedUsesAll v args
/-- The stacked uses of the variable in a list of terms. -/
def stackedUsesAll (v : Var) : List Term → List Term
  | [] => []
  | t :: ts => stackedUses v t ++ stackedUsesAll v ts
end

theorem stackedUsesAll_eq_flatMap (v : Var) (ts : List Term) :
    stackedUsesAll v ts = ts.flatMap (stackedUses v) := by
  induction ts with
  | nil => rfl
  | cons t ts ih => rw [stackedUsesAll, ih, List.flatMap_cons]

section

variable {v : Var} {P : Term → Prop}

/-- The stacked uses below the lambda of another variable are those of its
body. -/
theorem forall_stackedUses_lambda {w : Var} {type : Ty} {body : Term}
    (hw : w ≠ v) :
    (∀ s ∈ (Term.lambda w type body).stackedUses v, P s)
      ↔ ∀ s ∈ body.stackedUses v, P s := by
  rw [stackedUses, if_neg hw]

theorem forall_stackedUses_binder {op : Builtin} {w : Var} {args : List Term} :
    (∀ s ∈ (Term.binder op w args).stackedUses v, P s)
      ↔ ∀ t ∈ args, ∀ s ∈ t.stackedUses v, P s := by
  rw [stackedUses, stackedUsesAll_eq_flatMap, List.forall_mem_flatMap]

/-- The stacked uses of an application are those of its parts, and its head
if that is a use. -/
theorem forall_stackedUses_app {head : Term} {args : List Term} :
    (∀ s ∈ (Term.app head args).stackedUses v, P s)
      ↔ (head.isUse v = true → P head) ∧ (∀ s ∈ head.stackedUses v, P s)
        ∧ ∀ t ∈ args, ∀ s ∈ t.stackedUses v, P s := by
  rw [stackedUses, stackedUsesAll_eq_flatMap, List.forall_mem_append,
    List.forall_mem_append, List.forall_mem_flatMap, and_assoc]
  cases head.isUse v <;> simp

/-- A stacked use is one. -/
theorem isUse_of_mem_stackedUses {s t : Term} (h : s ∈ t.stackedUses v) :
    s.isUse v = true := by
  revert s
  show ∀ s ∈ t.stackedUses v, s.isUse v = true
  induction t with
  | atom a => nofun
  | lambda w type body ih =>
      by_cases hw : w = v
      · rw [stackedUses, if_pos hw]
        nofun
      · exact (forall_stackedUses_lambda hw).2 ih
  | binder op w args ih => exact forall_stackedUses_binder.2 ih
  | app head args ihHead ihArgs =>
      exact forall_stackedUses_app.2 ⟨id, ihHead, ihArgs⟩

end

/-- The use `s` of the variable heads a further application in the term,
outside the lambdas over the variable and the arguments of its uses. -/
inductive Stacks (v : Var) (s : Term) : Term → Prop
  | here {args : List Term} : s.isUse v = true → Stacks v s (.app s args)
  | lambda {w : Var} {type : Ty} {body : Term} : w ≠ v →
      Stacks v s body → Stacks v s (.lambda w type body)
  | binder {op : Builtin} {w : Var} {t : Term} {args : List Term} :
      t ∈ args → Stacks v s t → Stacks v s (.binder op w args)
  | head {head : Term} {args : List Term} :
      Stacks v s head → Stacks v s (.app head args)
  | arg {head t : Term} {args : List Term} : head ≠ .ofVar v →
      t ∈ args → Stacks v s t → Stacks v s (.app head args)

/-- The variable by itself has no stacked use. -/
theorem Stacks.ne_var {v : Var} {s t : Term} (h : Stacks v s t) :
    t ≠ .ofVar v := by
  rintro rfl
  cases h

end Term

namespace Form

-- ======================================================== substitution

/-- No stacked use of `v` in the term reduces to an abstraction when `arg`
is put for `v`. -/
def KeepsHeads (c : Context) (v : Var) (arg : Form) (t : Term) : Prop :=
  ∀ s ∈ t.stackedUses v, ∀ u, (substitute apply c v arg s).result = .ok u →
    u.isLambda = false

/-- What is neither the variable nor a use of it becomes no abstraction. -/
theorem isLambda_of_substitute {c : Context} {v : Var} {arg : Form}
    {t u : Term} (hlambda : t.isLambda = false) (hvar : t ≠ .ofVar v)
    (huse : t.isUse v = false)
    (h : (substitute apply c v arg t).result = .ok u) : u.isLambda = false := by
  cases t with
  | atom a =>
      rw [substitute] at h
      have hne : a ≠ .var v := fun ha => hvar (congrArg Term.atom ha)
      rw [if_neg hne] at h
      cases h
      rfl
  | lambda w type body => cases hlambda
  | binder op w args =>
      obtain ⟨args', -, rfl⟩ := substitute_binder_eq_ok h
      rfl
  | app head args =>
      obtain ⟨head', args', -, -, rfl⟩ :=
        substitute_app_eq_ok (of_decide_eq_false huse) h
      rfl

/-- Operands without redexes have a result without redexes. -/
def KeepsRedexFree (p : Form × Form) : Prop :=
  p.1.term.RedexFree → p.2.term.RedexFree →
    ∀ r, (apply p.1 p.2).result = .ok r → r.term.RedexFree

/-- A list of terms whose results are free of redexes each is free of them.
-/
theorem redexFree_of_forall₂ {R : Term → Term → Prop} {c : Context} {v : Var}
    {arg : Form} {ts us : List Term}
    (h : List.Forall₂ (fun t u => R t u
      ∧ (t.RedexFree → KeepsHeads c v arg t → u.RedexFree)) ts us)
    (hts : ∀ t ∈ ts, t.RedexFree) (hheads : ∀ t ∈ ts, KeepsHeads c v arg t) :
    ∀ u ∈ us, u.RedexFree := by
  intro u hu
  obtain ⟨t, ht, -, hkeeps⟩ := exists_left_of_mem h hu
  exact hkeeps (hts t ht) (hheads t ht)

/-- Substitution that keeps the heads leaves no redex if the applications
that it makes leave none. -/
theorem redexFree_of_substituted {c : Context} {v : Var} {arg : Form}
    (harg : arg.term.RedexFree) {t u : Term}
    (h : Substituted KeepsRedexFree c v arg t u) (ht : t.RedexFree)
    (hheads : KeepsHeads c v arg t) : u.RedexFree := by
  revert ht hheads
  refine substitute_induct (P := fun t u => t.RedexFree →
    KeepsHeads c v arg t → u.RedexFree)
    ?var ?atom ?shadowed ?lambda ?binder ?curried ?headed h
  case var =>
    intro _ _
    exact harg
  case atom =>
    intro a _ ht _
    exact ht
  case shadowed =>
    intro type body ht _
    exact ht
  case lambda =>
    intro w type body body' hw _ ih ht hheads
    exact Term.redexFree_lambda.2 (ih (Term.redexFree_lambda.1 ht)
      ((Term.forall_stackedUses_lambda hw).1 hheads))
  case binder =>
    intro op w args args' hargs ht hheads
    exact Term.redexFree_binder.2 (redexFree_of_forall₂ hargs
      (Term.redexFree_binder.1 ht) (Term.forall_stackedUses_binder.1 hheads))
  case curried =>
    intro args args' g hargs hcalls hg ht hheads
    obtain ⟨-, -, hts⟩ := Term.redexFree_app.1 ht
    obtain ⟨-, -, hkeeps⟩ := Term.forall_stackedUses_app.1 hheads
    refine applyAll_keeps (R := fun f => f.term.RedexFree)
      (fun p hp s hfirst hs => ?_) harg hg
    obtain ⟨u, hu, hsecond⟩ := exists_of_mem_callsAlong hp
    have hp2 : p.2.term.RedexFree := by
      rw [(result_ofTerm_eq_ok hsecond).1]
      exact redexFree_of_forall₂ hargs hts hkeeps u hu
    exact hcalls p hp hfirst hp2 s hs
  case headed =>
    intro head head' args args' hne hsub ih hargs ht hheads
    obtain ⟨hlambda, hhead, hts⟩ := Term.redexFree_app.1 ht
    obtain ⟨huse, hstacked, hkeeps⟩ := Term.forall_stackedUses_app.1 hheads
    refine Term.redexFree_app.2
      ⟨?_, ih hhead hstacked, redexFree_of_forall₂ hargs hts hkeeps⟩
    -- only a use of the parameter can have become an abstraction
    cases hstacks : head.isUse v with
    | true => exact huse hstacks head' hsub.run
    | false => exact isLambda_of_substitute hlambda hne hstacks hsub.run

-- ========================================================= applications

/-- What the stacked uses of the parameter reduce to, if the second form
is substituted for it. -/
def stackedReducts (p : Form × Form) : List Term :=
  match p.1.term, (moved p.1 p.2).result with
  | .lambda v type body, .ok arg =>
    if arg.type = type then
      (body.stackedUses v).filterMap fun s =>
        (substitute apply p.1.context v arg s).result.toOption
    else []
  | _, _ => []

/-- No stacked use of the parameter reduces to an abstraction. -/
def Unstacked (p : Form × Form) : Prop :=
  ∀ t ∈ stackedReducts p, t.isLambda = false

instance : DecidablePred Unstacked := fun p =>
  inferInstanceAs (Decidable (∀ t ∈ stackedReducts p, t.isLambda = false))

/-- What a stacked use becomes in the substitution of an application is
among the reducts. -/
theorem mem_stackedReducts {f a arg : Form} {v : Var} {type : Ty}
    {body s u : Term} (hf : f.term = .lambda v type body)
    (harg : (moved f a).result = .ok arg) (htype : arg.type = type)
    (hs : s ∈ body.stackedUses v)
    (hu : (substitute apply f.context v arg s).result = .ok u) :
    u ∈ stackedReducts (f, a) := by
  rw [stackedReducts, hf, harg]
  show u ∈ if arg.type = type then _ else _
  rw [if_pos htype]
  refine List.mem_filterMap.2 ⟨s, hs, ?_⟩
  rw [hu]
  rfl

/-- Each reduct is what a stacked use becomes in the substitution of the
application. -/
theorem exists_of_mem_stackedReducts {f a : Form} {u : Term}
    (h : u ∈ stackedReducts (f, a)) :
    ∃ v type body arg s, f.term = .lambda v type body
      ∧ (moved f a).result = .ok arg ∧ arg.type = type
      ∧ s ∈ body.stackedUses v
      ∧ (substitute apply f.context v arg s).result = .ok u := by
  unfold stackedReducts at h
  split at h
  · rename_i v type body arg hterm harg
    split at h
    · obtain ⟨s, hs, hu⟩ := List.mem_filterMap.1 h
      refine ⟨v, type, body, arg, s, hterm, harg, ‹_›, hs, ?_⟩
      cases hrun : (substitute apply f.context v arg s).result with
      | error e =>
          rw [hrun] at hu
          cases hu
      | ok t =>
          rw [hrun] at hu
          cases hu
          rfl
    · cases h
  · cases h

/-- An application leaves no redex if neither it nor an application that it
performs has a stacked use of its parameter reduce to an abstraction. -/
theorem keepsRedexFree_of_unstacked {f a : Form}
    (hrun : ∀ p, Performs f a p → Unstacked p) : KeepsRedexFree (f, a) := by
  revert hrun
  refine apply_induct (P := fun f a =>
    (∀ p, Performs f a p → Unstacked p) → KeepsRedexFree (f, a)) ?_ f a
  intro f a ih hrun hf ha r hr
  obtain ⟨arg, harg, hcases⟩ := apply_eq_ok hr
  have hmoved : arg.term.RedexFree := by
    rw [term_moved harg]
    exact ha.mapVars _
  rcases hcases with ⟨v, type, body, t, hterm, htype, hsub, hr⟩ | ⟨hlambda, hr⟩
  · have hbody : body.RedexFree := Term.redexFree_lambda.1 (hterm ▸ hf)
    have hcalls : ∀ p ∈ callsWithin f.context v arg body, KeepsRedexFree p := by
      intro p hp
      rw [← calls_lambda hterm harg htype] at hp
      exact ih p hp fun q hq => hrun q (.nested hp hq)
    have hheads : KeepsHeads f.context v arg body := fun s hs u hu =>
      hrun _ (.itself f a) u (mem_stackedReducts hterm harg htype hs hu)
    rw [(result_ofTerm_eq_ok hr).1]
    exact redexFree_of_substituted hmoved ⟨hsub, hcalls⟩ hbody hheads
  · rw [(result_ofTerm_eq_ok hr).1]
    exact Term.redexFree_app.2
      ⟨hlambda, hf, List.forall_mem_singleton.2 hmoved⟩

-- ====================================================== redexes that stay

/-- The application around a use that reduces to an abstraction is put
together again. -/
theorem not_redexFree_of_stacks {c : Context} {v : Var} {arg : Form}
    {s w : Term} (hw : (substitute apply c v arg s).result = .ok w)
    (hlambda : w.isLambda = true) {t u : Term} (h : Term.Stacks v s t)
    (hu : (substitute apply c v arg t).result = .ok u) : ¬ u.RedexFree := by
  induction h generalizing u with
  | here huse =>
      have hne : s ≠ .ofVar v := by
        rintro rfl
        cases huse
      obtain ⟨head', args', hhead, -, rfl⟩ := substitute_app_eq_ok hne hu
      cases Except.ok.inj (hw.symm.trans hhead)
      intro hfree
      rw [(Term.redexFree_app.1 hfree).1] at hlambda
      cases hlambda
  | lambda hne _ ih =>
      obtain ⟨body', hbody, rfl⟩ := substitute_lambda_eq_ok hne hu
      exact fun hfree => ih hbody (Term.redexFree_lambda.1 hfree)
  | binder ht _ ih =>
      obtain ⟨args', hargs, rfl⟩ := substitute_binder_eq_ok hu
      obtain ⟨t', ht', hrun⟩ :=
        exists_right_of_mem (substituteAll_eq_ok.1 hargs) ht
      exact fun hfree => ih hrun (Term.redexFree_binder.1 hfree t' ht')
  | head hstacks ih =>
      obtain ⟨head', args', hhead, -, rfl⟩ :=
        substitute_app_eq_ok hstacks.ne_var hu
      exact fun hfree => ih hhead (Term.redexFree_app.1 hfree).2.1
  | arg hne ht _ ih =>
      obtain ⟨head', args', -, hargs, rfl⟩ := substitute_app_eq_ok hne hu
      obtain ⟨t', ht', hrun⟩ :=
        exists_right_of_mem (substituteAll_eq_ok.1 hargs) ht
      exact fun hfree => ih hrun ((Term.redexFree_app.1 hfree).2.2 t' ht')

/-- A stacked use of the parameter that reduces to an abstraction leaves a
redex in the result, unless it stands in an argument of another use. -/
theorem redex_of_stacks {f a arg r : Form} {v : Var} {type : Ty}
    {body s w : Term} (hterm : f.term = .lambda v type body)
    (harg : (moved f a).result = .ok arg) (hs : Term.Stacks v s body)
    (hw : (substitute apply f.context v arg s).result = .ok w)
    (hlambda : w.isLambda = true) (hr : (apply f a).result = .ok r) :
    ¬ r.term.RedexFree := by
  obtain ⟨arg', harg', -, hsub, -⟩ := apply_lambda_eq_ok hterm hr
  cases Except.ok.inj (harg.symm.trans harg')
  exact not_redexFree_of_stacks hw hlambda hs hsub

-- ================================================ parameters of low order

/-- A form of a type without codomain is no abstraction. -/
theorem isLambda_of_size_lt {f : Form} (h : f.type.size < 2) :
    f.term.isLambda = false := by
  cases hterm : f.term with
  | lambda v type body =>
      have htyped := f.typed
      rw [hterm] at htyped
      obtain ⟨κ, -, htype⟩ := Context.infer_lambda_eq_ok htyped
      rw [htype, Ty.size] at h
      have hpos := type.size_pos
      omega
  | _ => rfl

/-- A use of the variable reduces to no abstraction if what replaces the
variable is none. -/
theorem isLambda_of_substitute_use {c : Context} {v : Var} {arg : Form}
    (harg : arg.term.isLambda = false) {s u : Term} (hs : s.isUse v = true)
    (h : (substitute apply c v arg s).result = .ok u) : u.isLambda = false := by
  cases s with
  | app head args =>
      cases of_decide_eq_true hs
      obtain ⟨args', g, -, hg, rfl⟩ := substitute_use_eq_ok h
      refine applyAll_keeps (R := fun f => f.term.isLambda = false)
        (fun p _ r hp hr => ?_) harg hg
      obtain ⟨_, -, hterm, -⟩ := apply_wrap_eq_ok hp hr
      rw [hterm]
      rfl
  | _ => cases hs

/-- Where the lambdas at the spine of a function state no function types,
no stacked use reduces to an abstraction. -/
theorem unstacked_of_spineBelow {f a : Form} (hf : f.term.SpineBelow 2)
    {p : Form × Form} (hp : Performs f a p) : Unstacked p := by
  induction hp with
  | itself f a =>
      intro u hu
      obtain ⟨v, type, body, arg, s, hterm, -, htype, hs, hu⟩ :=
        exists_of_mem_stackedReducts hu
      rw [hterm] at hf
      have harg : arg.type.size < 2 := htype ▸ hf.1
      exact isLambda_of_substitute_use (isLambda_of_size_lt harg)
        (Term.isUse_of_mem_stackedUses hs) hu
  | nested hcall _ ih =>
      exact ih ((spineBelow_of_mem_calls hf hcall).mono (Nat.le_succ 1))

/-- A parameter that takes no functions and has no stacked use keeps every
application on the way unstacked. -/
theorem unstacked_of_firstOrder {f a : Form} {v : Var} {type : Ty}
    {body : Term} (hterm : f.term = .lambda v type body)
    (htype : type.firstOrder = true) (hbody : body.stackedUses v = [])
    {p : Form × Form} (hp : Performs f a p) : Unstacked p := by
  cases hp with
  | itself =>
      intro u hu
      obtain ⟨v', type', body', _, s, hterm', -, -, hs, -⟩ :=
        exists_of_mem_stackedReducts hu
      cases hterm.symm.trans hterm'
      rw [hbody] at hs
      cases hs
  | nested hcall hp =>
      obtain ⟨v', type', body', arg, hterm', -, hargtype, hcall⟩ :=
        exists_of_mem_calls hcall
      cases hterm.symm.trans hterm'
      have hspine : arg.term.SpineBelow 2 :=
        Term.spineBelow_of_firstOrder arg.typed (hargtype ▸ htype)
      exact unstacked_of_spineBelow
        (spineBelow_of_mem_callsWithin Nat.two_pos hspine hcall) hp

-- ======================================================== main theorem

/-- An abstraction and an argument without redexes have a result without
redexes, provided that in no application performed on the way a use of the
parameter that heads a further application reduces to an abstraction. -/
theorem application_leaves_no_redex {f a r : Form} {v : Var} {type : Ty}
    {body : Term} (hterm : f.term = .lambda v type body)
    (hbody : body.RedexFree) (ha : a.term.RedexFree)
    (hrun : ∀ p, Performs f a p → Unstacked p)
    (hr : (apply f a).result = .ok r) : r.term.RedexFree := by
  have hf : f.term.RedexFree := by
    rw [hterm]
    exact Term.redexFree_lambda.2 hbody
  exact keepsRedexFree_of_unstacked hrun hf ha r hr

/-- The use of the parameter heads an application and reduces to another
one, and a further application is performed on the way. -/
theorem stacked_use_without_redex :
    ∃ f, (parse .empty ("(lambda $0 <<e,t>,<e,t>> "
          ++ "(($0 (lambda $1 e (p:t $1))) k:e))")).result = .ok f
      ∧ ∃ a, (parse .empty
          "(lambda $2 <e,t> (g:<t,<e,t>> ($2 m:e)))").result = .ok a
      ∧ ∃ r, (apply f a).result = .ok r
      ∧ r.render .word = "((g:<t,<e,t>> (p:t m:e)) k:e)"
      ∧ r.term.RedexFree := by
  have hrun : ∃ f, (parse .empty ("(lambda $0 <<e,t>,<e,t>> "
          ++ "(($0 (lambda $1 e (p:t $1))) k:e))")).result = .ok f
      ∧ ∃ a, (parse .empty
          "(lambda $2 <e,t> (g:<t,<e,t>> ($2 m:e)))").result = .ok a
      ∧ ∃ r, (apply f a).result = .ok r
      ∧ r.render .word = "((g:<t,<e,t>> (p:t m:e)) k:e)"
      ∧ f.term = .lambda ⟨0⟩
          (.func (.func .entity .truth) (.func .entity .truth))
          (.app (.app (.ofVar ⟨0⟩) [.lambda ⟨1⟩ .entity
            (.app (.atom (.const "p:t" (some .truth))) [.ofVar ⟨1⟩])])
            [.atom (.const "k:e" (some .entity))])
      ∧ f.term.RedexFree ∧ a.term.RedexFree
      ∧ ∀ p, Performs f a p → Unstacked p := by
    decide +kernel
  obtain ⟨f, hf, a, ha, r, hr, hrender, hterm, hfree, hafree, hunstacked⟩ := hrun
  rw [hterm] at hfree
  exact ⟨f, hf, a, ha, r, hr, hrender,
    application_leaves_no_redex hterm (Term.redexFree_lambda.1 hfree) hafree
      hunstacked hr⟩

/-- The first function uses its parameter in a stack, the second one does
not, and the argument is an abstraction over two variables. Neither the
third function nor its argument has a stacked use, but the argument is
applied to a variable on the way, and this one it applies to two terms. -/
theorem stacked_uses_leave_redexes :
    (∃ f, (parse .empty "(lambda $0 <e,<e,t>> (($0 x:e) y:e))").result = .ok f
      ∧ ∃ g, (parse .empty "(lambda $0 <e,<e,t>> ($0 x:e y:e))").result = .ok g
      ∧ ∃ a, (parse .empty
          "(lambda $1 e (lambda $2 e (owns:t $2 $1)))").result = .ok a
      ∧ ∃ r, (apply f a).result = .ok r
      ∧ ∃ s, (apply g a).result = .ok s
      ∧ f.term.isLambda = true ∧ f.term.RedexFree ∧ a.term.RedexFree
      ∧ ¬ r.term.RedexFree ∧ s.term.RedexFree)
    ∧ ∃ f, (parse .empty ("(lambda $0 <<e,<e,t>>,<<<e,<e,t>>,t>,t>> "
          ++ "($0 k1:<e,<e,t>> (lambda $7 <e,<e,t>> "
          ++ "($0 $7 k2:<<e,<e,t>>,t>))))")).result = .ok f
      ∧ ∃ a, (parse .empty ("(lambda $1 <e,<e,t>> "
          ++ "(lambda $2 <<e,<e,t>>,t> (and ($1 x:e y:e) "
          ++ "($2 (lambda $3 e (lambda $4 e (owns:t $4 $3)))))))")).result
            = .ok a
      ∧ ∃ r, (apply f a).result = .ok r
      ∧ f.term.isLambda = true ∧ f.term.RedexFree ∧ a.term.RedexFree
      ∧ (∀ s ∈ f.term.subterms, ∀ v ∈ f.term.vars, s.stackedUses v = [])
      ∧ (∀ s ∈ a.term.subterms, ∀ v ∈ a.term.vars, s.stackedUses v = [])
      ∧ ¬ r.term.RedexFree := by
  decide +kernel

end Form

end LogicalForm
