/-
What keeps applications of forms that are typed throughout from failing.
The type of an argument is checked before it is substituted, but what is
substituted is typed again, piece by piece: every argument of a curried
use in the context of the function that it stands in, and the result in
what is left of the contexts of both operands. These contexts grow out of
the run, and a piece may have a variable that the context at hand does not
know.

# What is asked of a run

- It is clear (`ClearRun`): the free variables of every piece come from
  the terms that it was put together from.
- It is covered (`CoveredRun`): where the parameter of a function stands
  inside an argument of itself, this argument takes along the free
  variables of what replaces the parameter, so the function has to have
  them too.
- One context `d` types all that comes up.

`RunsIn` holds the three together. The contexts really used agree with `d`
on the variables of their forms (`Settled`), and typing asks for no more.

# How the proof goes

`Traced.Safe` is the outcome aimed at: success with a stated property, or
no index left. Each step is shown safe in turn, building a form
(`safe_ofTerm`), moving an argument (`safe_moved`), applying along a list
(`safe_applyAll`), substituting (`safe_substitute`), and the application
follows by induction along the calls (`progresses_of_runsIn`).
-/
import LogicalForm.Proofs.FullTyping
import LogicalForm.Proofs.PlainSession
import LogicalForm.Proofs.Relocation

namespace LogicalForm

-- ============================================================ safe runs

namespace Traced

variable {α β : Type} {P : α → Prop} {Q : β → Prop} {x : Traced α}

/-- The run succeeds with a value that satisfies `P`, or it ends because a
variable would pass the largest index. -/
def Safe (P : α → Prop) (x : Traced α) : Prop :=
  (∃ a, x.result = .ok a ∧ P a)
    ∨ ∃ v n, x.result = .error (.variableOverflow v n)

/-- A run that succeeds with such a value is safe. -/
theorem Safe.of_ok {a : α} (hx : x.result = .ok a) (ha : P a) : Safe P x :=
  .inl ⟨a, hx, ha⟩

/-- A run in sequence is safe if what comes first is, and what comes next
is after every value that the first part may yield. -/
theorem Safe.bind {f : α → Traced β} (hx : Safe P x)
    (hf : ∀ a, x.result = .ok a → P a → Safe Q (f a)) : Safe Q (x >>= f) := by
  rcases hx with ⟨a, ha, hP⟩ | ⟨v, n, he⟩
  · rcases hf a ha hP with ⟨b, hb, hQ⟩ | ⟨v, n, he⟩
    · exact .inl ⟨b, by rw [result_bind, ha]; exact hb, hQ⟩
    · exact .inr ⟨v, n, by rw [result_bind, ha]; exact he⟩
  · exact .inr ⟨v, n, by rw [result_bind, he]; rfl⟩

/-- What a safe run promises of its value may be weakened. -/
theorem Safe.imp {P' : α → Prop} (hx : Safe P x)
    (himp : ∀ a, x.result = .ok a → P a → P' a) : Safe P' x := by
  rcases hx with ⟨a, ha, hP⟩ | hover
  · exact .inl ⟨a, ha, himp a ha hP⟩
  · exact .inr hover

end Traced

open Traced (Safe)

-- ====================================================== nested parameters

namespace Term

mutual
/-- Outside the lambdas over `v`, an application that `v` heads has `v`
free in an argument. -/
def nests (v : Var) : Term → Bool
  | .atom _ => false
  | .lambda w _ body => w ≠ v && nests v body
  | .binder _ _ args => nestsAny v args
  | .app head args =>
    (head = .ofVar v && (freeVarsAll args).contains v) || nests v head
      || nestsAny v args
/-- Some term of the list nests the variable. -/
def nestsAny (v : Var) : List Term → Bool
  | [] => false
  | t :: ts => nests v t || nestsAny v ts
end

@[simp] theorem nestsAny_eq_any (v : Var) (ts : List Term) :
    nestsAny v ts = ts.any (nests v) := by
  induction ts with
  | nil => rfl
  | cons t ts ih => rw [nestsAny, ih, List.any_cons]

theorem nests_lambda {v w : Var} {type : Ty} {body : Term} :
    (Term.lambda w type body).nests v = true
      ↔ w ≠ v ∧ body.nests v = true := by
  simp [nests]

theorem nests_binder {v w : Var} {op : Builtin} {args : List Term} :
    (Term.binder op w args).nests v = true
      ↔ ∃ t ∈ args, t.nests v = true := by
  simp [nests]

/-- An application nests its head if an argument has that free, and whatever
its parts nest. -/
theorem nests_app {v : Var} {head : Term} {args : List Term} :
    (Term.app head args).nests v = true
      ↔ (head = .ofVar v ∧ ∃ t ∈ args, v ∈ t.freeVars)
        ∨ head.nests v = true ∨ ∃ t ∈ args, t.nests v = true := by
  simp [nests, or_assoc]

/-- A variable that heads nothing nests nothing. -/
theorem heads_of_nests {v : Var} {t : Term} (h : t.nests v = true) :
    t.heads v = true := by
  induction t with
  | atom a => cases h
  | lambda w type body ih =>
      obtain ⟨hw, hbody⟩ := nests_lambda.1 h
      simp [heads, hw, ih hbody]
  | binder op w args ih =>
      obtain ⟨t, ht, hnests⟩ := nests_binder.1 h
      rw [heads, headsAny_eq_any, List.any_eq_true]
      exact ⟨t, ht, ih t ht hnests⟩
  | app head args ihHead ihArgs =>
      rcases nests_app.1 h with ⟨hhead, -⟩ | hhead | ⟨t, ht, hnests⟩
      · simp [heads, hhead]
      · simp [heads, ihHead hhead]
      · have hany : ∃ t ∈ args, t.heads v = true := ⟨t, ht, ihArgs t ht hnests⟩
        simp [heads, hany]

/-- The term is an abstraction whose body nests the parameter. -/
def nestsParameter : Term → Bool
  | .lambda v _ body => body.nests v
  | _ => false

end Term

namespace Form

-- ======================================================== settled forms

/-- The context `d` types the form throughout, as its own context does. -/
structure Settled (d : Context) (g : Form) : Prop where
  symbols : g.context.symbols = d.symbols
  vars : ∀ v ∈ g.term.vars, g.context.var? v = d.var? v
  typed : d.fullType? g.term = some g.type

/-- The same before a move, which takes the bound variables to other
indices. -/
structure Movable (d : Context) (b : Form) : Prop where
  symbols : b.context.symbols = d.symbols
  free : ∀ v ∈ b.term.vars, v ∉ b.term.binders →
    b.context.var? v = d.var? v
  typed : b.context.fullType? b.term = some b.type

/-- A form that is typed throughout by its own context is so by one that
agrees on its variables. -/
theorem Settled.of_fullType? {d : Context} {g : Form}
    (hsymbols : g.context.symbols = d.symbols)
    (hvars : ∀ v ∈ g.term.vars, g.context.var? v = d.var? v)
    (htyped : g.context.fullType? g.term = some g.type) : Settled d g := by
  refine ⟨hsymbols, hvars, ?_⟩
  rw [← htyped]
  exact (Context.fullType?_congr hsymbols hvars).symm

/-- What is settled can move. -/
theorem Settled.movable {d : Context} {g : Form} (h : Settled d g) :
    Movable d g := by
  refine ⟨h.symbols, fun v hv _ => h.vars v hv, ?_⟩
  rw [← h.typed]
  exact Context.fullType?_congr h.symbols h.vars

/-- The context of a settled form says nothing else than `d`. -/
theorem Settled.var?_eq_none_or {d : Context} {g : Form} (h : Settled d g)
    (v : Var) : g.context.var? v = none ∨ g.context.var? v = d.var? v := by
  by_cases hv : v ∈ g.term.vars
  · exact .inr (h.vars v hv)
  · exact .inl (var?_eq_none hv)

/-- A settled form knows no variable that the context does not know. -/
theorem Settled.within {d : Context} {g : Form} (h : Settled d g) :
    g.context.Within d := by
  intro v type hknown
  have hvar := (Context.known?_eq_some.1 hknown).1
  rcases h.var?_eq_none_or v with hnone | heq
  · rw [hnone] at hvar
    cases hvar
  · rw [← heq, hvar]

/-- Two contexts that say nothing else than `d`, one of which has the
variable, have it in common as `d` does. -/
theorem var?_merge_of_agree {c c' d : Context} {v : Var}
    (hleft : c.var? v = none ∨ c.var? v = d.var? v)
    (hone : c.var? v = d.var? v ∨ c'.var? v = d.var? v)
    (hsome : (d.var? v).isSome) : (c.merge c').var? v = d.var? v := by
  obtain ⟨σ, hσ⟩ := Option.isSome_iff_exists.1 hsome
  rw [hσ] at hleft hone ⊢
  rw [Context.var?_merge]
  rcases hleft with hnone | hleft
  · rw [hnone] at hone ⊢
    rw [Option.none_or]
    exact hone.resolve_left fun h => nomatch h
  · rw [hleft, Option.some_or]

/-- Building a form of a term whose type can be inferred is safe. -/
theorem safe_ofTerm_of_infer {c : Context} {t : Term} {τ : Ty}
    (h : (c.register t).infer t = .ok τ) :
    Safe (fun g => g.term = t ∧ g.context = c.register t ∧ g.type = τ)
      (ofTerm c t) := by
  unfold Safe
  rw [result_ofTerm_of_infer h]
  split
  · exact .inl ⟨_, rfl, rfl, rfl, rfl⟩
  · exact .inr ⟨_, _, rfl⟩

/-- A term that `d` types throughout can be built in every context that
says nothing else and has its free variables. -/
theorem safe_ofTerm {c d : Context} {t : Term} {τ : Ty} (hc : c.Within d)
    (hsymbols : c.symbols = d.symbols) (ht : d.fullType? t = some τ)
    (hfree : ∀ x ∈ t.freeVars, c.var? x = d.var? x) :
    Safe (fun g => Settled d g ∧ g.type = τ) (ofTerm c t) := by
  have hvars : ∀ v ∈ t.vars, (c.register t).var? v = d.var? v :=
    fun v hv => Context.var?_register_of_fullType? ht hc hfree hv
  have hsame : (c.register t).symbols = d.symbols := hsymbols
  have htyped : (c.register t).fullType? t = some τ := by
    rw [← ht]
    exact Context.fullType?_congr hsame hvars
  refine (safe_ofTerm_of_infer (Context.infer_of_fullType? htyped)).imp ?_
  intro g _ hg
  obtain ⟨hterm, hcontext, htype⟩ := hg
  refine ⟨.of_fullType? ?_ ?_ ?_, htype⟩
  · rw [hcontext]
    exact hsymbols
  · rw [hcontext, hterm]
    exact hvars
  · rw [hcontext, hterm, htype]
    exact htyped

-- ======================================================= moving settles

/-- The context of the moved argument, if the move succeeds. -/
def movedContext (f a : Form) : Context :=
  (a.context.moved a.boundVars (offset f a)).register
    (a.term.mapVars (relocate f a))

/-- It has the type of every variable at its new place. -/
theorem var?_movedContext {f a : Form} {v : Var} (hv : v ∈ a.term.vars) :
    (movedContext f a).var? (relocate f a v) = a.context.var? v := by
  have hapart : a.KeepsApart (offset f a) := keepsApart_of_le (Nat.le_max_right ..)
  have hregister : movedContext f a
      = a.context.mapVars (a.relocateBy (offset f a)) := register_moved hapart
  rw [hregister]
  exact var?_mapVars_relocateBy hapart hv

section

variable {f a : Form} {τ : Ty} (ha : a.context.fullType? a.term = some τ)

include ha

/-- The move keeps a term typed throughout, at the same type. -/
theorem fullType?_movedContext :
    (movedContext f a).fullType? (a.term.mapVars (relocate f a)) = some τ := by
  have hsame : (movedContext f a).symbols = a.context.symbols := rfl
  rw [← ha]
  exact Context.fullType?_mapVars hsame fun v hv => var?_movedContext hv

/-- The move of an argument that is typed throughout is safe. -/
theorem safe_moved_of_fullType? :
    Safe (fun arg => arg.term = a.term.mapVars (relocate f a)
      ∧ arg.context = movedContext f a ∧ arg.type = τ) (moved f a) := by
  refine Safe.bind (.of_ok (a := ()) (P := fun _ => True) rfl trivial) ?_
  intro _ _ _
  split
  · exact .inr ⟨_, _, rfl⟩
  · refine Safe.bind (x := Traced.ofExcept _)
      (P := fun c => c = a.context.moved a.boundVars (offset f a)) ?_ ?_
    · unfold Safe
      rw [Traced.result_ofExcept, Context.shift]
      split
      · exact .inr ⟨_, _, rfl⟩
      · exact .inl ⟨_, rfl, rfl⟩
    · intro c _ hc
      subst hc
      exact safe_ofTerm_of_infer
        (Context.infer_of_fullType? (fullType?_movedContext ha))

end

/-- The move of an argument is safe and settles it, if the types at which
it binds its variables are those of `d` at their new places. -/
theorem safe_moved {d : Context} {f a : Form} (ha : Movable d a)
    (hagrees : ∀ arg, (moved f a).result = .ok arg → arg.term.AgreesWith d) :
    Safe (fun arg => Settled d arg ∧ arg.type = a.type) (moved f a) := by
  refine (safe_moved_of_fullType? ha.typed).imp ?_
  intro arg harg hmoved
  obtain ⟨hterm, hcontext, htype⟩ := hmoved
  have htyped : arg.context.fullType? arg.term = some a.type := by
    rw [hcontext, hterm]
    exact fullType?_movedContext ha.typed
  refine ⟨.of_fullType? ?_ ?_ (htype ▸ htyped), htype⟩
  · rw [hcontext]
    exact ha.symbols
  · intro w hw
    rw [hterm, Term.vars_mapVars] at hw
    obtain ⟨v, hv, rfl⟩ := List.mem_map.1 hw
    by_cases hbound : v ∈ a.term.binders
    · have hmem : relocate f a v ∈ arg.term.binders := by
        rw [hterm, Term.binders_mapVars]
        exact List.mem_map_of_mem hbound
      obtain ⟨type, hdecl⟩ := Term.mem_binders_iff.1 hmem
      rw [hagrees arg harg _ hdecl]
      exact Context.agreesWith_of_fullType? htyped _ hdecl
    · rw [hcontext, var?_movedContext hv, relocate_of_not_mem hbound]
      exact ha.free v hv hbound

-- ======================================================= one application

/-- Where the parameter of the first form is nested, that form has the free
variables of the second. -/
def Covered (p : Form × Form) : Prop :=
  p.1.term.nestsParameter = true → ∀ x ∈ p.2.term.freeVars, x ∈ p.1.term.vars

instance : DecidablePred Covered := fun p =>
  inferInstanceAs (Decidable (p.1.term.nestsParameter = true →
    ∀ x ∈ p.2.term.freeVars, x ∈ p.1.term.vars))

/-- All applications performed while `f` is applied to `a` are covered. -/
def CoveredRun (f a : Form) : Prop := ∀ p, Performs f a p → Covered p

instance (f a : Form) : Decidable (CoveredRun f a) :=
  inferInstanceAs (Decidable (∀ p, Performs f a p → Covered p))

/-- The run is clear and covered, and what moves in it binds its variables
at their types in `d`. -/
structure RunsIn (d : Context) (f a : Form) : Prop where
  clear : ClearRun f a
  covered : CoveredRun f a
  moves : Moves d f a

/-- The calls of such a run are such runs. -/
theorem RunsIn.call {d : Context} {f a : Form} {p : Form × Form}
    (h : RunsIn d f a) (hp : p ∈ calls f a) : RunsIn d p.1 p.2 :=
  ⟨h.clear.call hp, fun q hq => h.covered q (.nested hp hq), h.moves.call hp⟩

/-- Applying the form to one of its domain is safe and gives a form of its
codomain. -/
def Progresses (d : Context) (p : Form × Form) : Prop :=
  Settled d p.1 → Movable d p.2 → ∀ κ, p.1.type = .func p.2.type κ →
    Safe (fun r => Settled d r ∧ r.type = κ) (apply p.1 p.2)

/-- The terms of a list are substituted safely if each of them is. -/
theorem safe_substituteAll {H : Form × Form → Prop} {c d : Context} {v : Var}
    {arg : Form} {ts : List Term} {σs : List Ty}
    (hts : List.Forall₂ (fun t σ => d.fullType? t = some σ) ts σs)
    (hmembers : ∀ t ∈ ts, ∀ σ, (∀ p ∈ callsWithin c v arg t, H p) →
      d.fullType? t = some σ →
      Safe (fun u => d.fullType? u = some σ) (substitute apply c v arg t))
    (hcalls : ∀ p ∈ callsWithinAll c v arg ts, H p) :
    Safe (fun us => List.Forall₂ (fun u σ => d.fullType? u = some σ) us σs)
      (substituteAll apply c v arg ts) := by
  induction hts with
  | nil => exact .of_ok rfl .nil
  | @cons t σ ts σs ht _ ih =>
      obtain ⟨hfirst, hrest⟩ := List.forall_mem_cons.1 hmembers
      rw [callsWithinAll] at hcalls
      refine Safe.bind
        (hfirst σ (fun p hp => hcalls p (List.mem_append_left _ hp)) ht) ?_
      intro u _ hu
      refine Safe.bind
        (ih hrest fun p hp => hcalls p (List.mem_append_right _ hp)) ?_
      intro us _ hus
      exact .of_ok rfl (.cons hu hus)

/-- What substitution gives has the free variables of the term it comes
from and, if the replaced one is among them, those of what replaces it. -/
theorem var?_of_mem_freeVars_substituted {c d : Context} {v : Var} {arg : Form}
    {t u : Term} (h : Substituted KeepsScope c v arg t u) (htraps : t.traps v = false)
    (hvars : ∀ x ∈ t.vars, c.var? x = d.var? x)
    (harg : v ∈ t.freeVars → ∀ x ∈ arg.term.freeVars, c.var? x = d.var? x) :
    ∀ x ∈ u.freeVars, c.var? x = d.var? x := by
  intro x hx
  rcases mem_freeVars_of_substituted (fun _ h => h) h htraps hx with
    ⟨hx, -⟩ | ⟨hv, hx⟩
  · exact hvars x (Term.mem_vars_of_mem_freeVars hx)
  · exact harg hv x hx

section

variable {c d : Context} (hc : c.Within d) (hsymbols : c.symbols = d.symbols)

include hc hsymbols

/-- A chain of applications to arguments of the types asked for is safe. -/
theorem safe_applyAll {g : Form} {ts : List Term} {σs : List Ty} {τ : Ty}
    (hcalls : ∀ p ∈ callsAlong c g ts, Progresses d p) (hg : Settled d g)
    (hts : List.Forall₂ (fun t σ => d.fullType? t = some σ) ts σs)
    (hfree : ∀ t ∈ ts, ∀ x ∈ t.freeVars, c.var? x = d.var? x)
    (htakes : g.type.takes σs = some τ) :
    Safe (fun r => Settled d r ∧ r.type = τ) (applyAll apply c g ts) := by
  induction hts generalizing g with
  | nil =>
      rw [Ty.takes_nil] at htakes
      cases htakes
      exact .of_ok rfl ⟨hg, rfl⟩
  | @cons t σ ts σs ht _ ih =>
      obtain ⟨κ, hgtype, htakes⟩ := Ty.takes_cons_eq_some.1 htakes
      obtain ⟨hfirst, hrest⟩ := List.forall_mem_cons.1 hfree
      refine Safe.bind (safe_ofTerm hc hsymbols ht hfirst) fun a ha hsettled => ?_
      obtain ⟨hsettled, hatype⟩ := hsettled
      have happly : Safe (fun r => Settled d r ∧ r.type = κ) (apply g a) := by
        refine hcalls (g, a) ?_ hg hsettled.movable κ (hatype ▸ hgtype)
        rw [callsAlong, ha]
        exact List.mem_cons_self ..
      refine Safe.bind happly fun s hs hssettled => ?_
      rw [callsAlong_cons ha hs] at hcalls
      exact ih (fun p hp => hcalls p (List.mem_cons_of_mem _ hp)) hssettled.1
        hrest (hssettled.2 ▸ htakes)

/-- A curried use of the variable is safe: its arguments are typed where
they come to stand. -/
theorem safe_curried {v : Var} {arg : Form} (harg : Settled d arg)
    {args args' : List Term} {σs : List Ty} {τ : Ty}
    (hrun : (substituteAll apply c v arg args).result = .ok args')
    (hscope : ∀ p ∈ callsWithinAll c v arg args, KeepsScope p)
    (hcalls : ∀ p ∈ callsAlong c arg args', Progresses d p)
    (htraps : ∀ t ∈ args, t.traps v = false)
    (hvars : ∀ t ∈ args, ∀ x ∈ t.vars, c.var? x = d.var? x)
    (hnests : (∃ t ∈ args, v ∈ t.freeVars) →
      ∀ x ∈ arg.term.freeVars, c.var? x = d.var? x)
    (hargs' : List.Forall₂ (fun u σ => d.fullType? u = some σ) args' σs)
    (htakes : arg.type.takes σs = some τ) :
    Safe (fun u => d.fullType? u = some τ)
      (applyAll apply c arg args' >>= fun g => pure g.term) := by
  have hfree : ∀ u ∈ args', ∀ x ∈ u.freeVars, c.var? x = d.var? x := by
    intro u hu
    obtain ⟨t, ht, hsub⟩ := exists_left_of_mem (substituteAll_eq_ok.1 hrun) hu
    have hkeeps : ∀ p ∈ callsWithin c v arg t, KeepsScope p := by
      intro p hp
      refine hscope p ?_
      rw [callsWithinAll_eq_flatMap]
      exact List.mem_flatMap.2 ⟨t, ht, hp⟩
    exact var?_of_mem_freeVars_substituted ⟨hsub, hkeeps⟩ (htraps t ht)
      (hvars t ht) fun hvt => hnests ⟨t, ht, hvt⟩
  refine Safe.bind (safe_applyAll hc hsymbols hcalls harg hargs' hfree htakes) ?_
  intro g _ hg
  exact .of_ok rfl (hg.2 ▸ hg.1.typed)

/-- Substitution for a variable of the same type is safe and keeps full
typing, if what is nested has its free variables in the context. -/
theorem safe_substitute {v : Var} {arg : Form} (harg : Settled d arg)
    (hv : d.var? v = some arg.type) {t : Term} {τ : Ty}
    (hcalls : ∀ p ∈ callsWithin c v arg t, KeepsScope p ∧ Progresses d p)
    (ht : d.fullType? t = some τ) (htraps : t.traps v = false)
    (hvars : ∀ x ∈ t.vars, c.var? x = d.var? x)
    (hnests : t.nests v = true → ∀ x ∈ arg.term.freeVars, c.var? x = d.var? x) :
    Safe (fun u => d.fullType? u = some τ) (substitute apply c v arg t) := by
  induction t generalizing τ with
  | atom a =>
      rw [substitute]
      by_cases hav : a = .var v
      · subst hav
        rw [if_pos rfl]
        have hτ := (Context.fullType?_atom_eq_some.1 ht).1
        cases hv.symm.trans hτ
        exact .of_ok rfl harg.typed
      · rw [if_neg hav]
        exact .of_ok rfl ht
  | lambda w type body ih =>
      rw [substitute]
      by_cases hw : w = v
      · rw [if_pos hw]
        exact .of_ok rfl ht
      · rw [callsWithin, if_neg hw] at hcalls
        rw [if_neg hw]
        obtain ⟨hdecl, κ, hbody, rfl⟩ := Context.fullType?_lambda_eq_some.1 ht
        refine Safe.bind (ih hcalls hbody (Term.traps_lambda_eq_false.1 htraps hw)
          (Term.forall_mem_vars_lambda.1 hvars).2
          fun h => hnests (Term.nests_lambda.2 ⟨hw, h⟩)) ?_
        intro body' _ hbody'
        exact .of_ok rfl
          (Context.fullType?_lambda_eq_some.2 ⟨hdecl, κ, hbody', rfl⟩)
  | binder op w args ih =>
      rw [substitute]
      rw [callsWithin] at hcalls
      obtain ⟨hdecl, σs, hargs, rfl⟩ := Context.fullType?_binder_eq_some.1 ht
      have htrapsArgs := (Term.traps_binder_eq_false.1 htraps).2
      have hvarsArgs := (Term.forall_mem_vars_binder.1 hvars).2
      have hsafe := safe_substituteAll hargs (fun t ht σ hcalls htyped =>
        ih t ht hcalls htyped (htrapsArgs t ht) (hvarsArgs t ht)
          fun h => hnests (Term.nests_binder.2 ⟨t, ht, h⟩)) hcalls
      refine Safe.bind hsafe fun args' _ hargs' => ?_
      exact .of_ok rfl
        (Context.fullType?_binder_eq_some.2 ⟨hdecl, σs, hargs', rfl⟩)
  | app head args ihHead ihArgs =>
      rw [substitute]
      rw [callsWithin] at hcalls
      obtain ⟨σs, hargs, hhead⟩ := Context.fullType?_app_eq_some.1 ht
      obtain ⟨htrapsHead, htrapsArgs⟩ := Term.traps_app_eq_false.1 htraps
      obtain ⟨hvarsHead, hvarsArgs⟩ := Term.forall_mem_vars_app.1 hvars
      have hfirst := fun p hp => hcalls p (List.mem_append_left _ hp)
      have hrest := fun p hp => hcalls p (List.mem_append_right _ hp)
      have hsafe := safe_substituteAll hargs (fun t ht σ hcalls htyped =>
        ihArgs t ht hcalls htyped (htrapsArgs t ht) (hvarsArgs t ht)
          fun h => hnests (Term.nests_app.2 (.inr (.inr ⟨t, ht, h⟩)))) hfirst
      refine Safe.bind hsafe fun args' hrun hargs' => ?_
      by_cases hheadv : head = .ofVar v
      · subst hheadv
        rw [if_pos rfl, hrun] at hrest
        rw [if_pos rfl]
        have htakes : arg.type.takes σs = some τ := by
          rcases hhead with hany | ⟨-, σ, hσ, htakes⟩
          · cases hany
          · have hσv := (Context.fullType?_atom_eq_some.1 hσ).1
            cases hv.symm.trans hσv
            exact htakes
        exact safe_curried hc hsymbols harg hrun (fun p hp => (hfirst p hp).1)
          (fun p hp => (hrest p hp).2) htrapsArgs hvarsArgs
          (fun hv => hnests (Term.nests_app.2 (.inl ⟨rfl, hv⟩))) hargs' htakes
      · rw [if_neg hheadv] at hrest ⊢
        rcases hhead with hany | ⟨-, σ, hσ, htakes⟩
        · -- a head that takes any arguments is no variable and stays
          obtain ⟨a, rfl⟩ : ∃ a, head = .atom a := by
            rcases Context.anyArgs?_eq_some hany with ⟨b, rfl, -⟩ | ⟨text, rfl, -⟩
            · exact ⟨_, rfl⟩
            · exact ⟨_, rfl⟩
          have hav : a ≠ .var v := fun h => hheadv (by rw [h])
          rw [substitute, if_neg hav]
          exact .of_ok rfl
            (Context.fullType?_app_eq_some.2 ⟨σs, hargs', .inl hany⟩)
        · refine Safe.bind (ihHead hrest hσ htrapsHead hvarsHead
            fun h => hnests (Term.nests_app.2 (.inr (.inl h)))) ?_
          intro head' _ hhead'
          exact .of_ok rfl (Context.fullType?_app_of_takes hargs' hhead' htakes)

end

/-- The result of a reduction can be built where the variable of the
function has left the context. -/
theorem var?_eraseVar_merge {d : Context} {f arg : Form} (hf : Settled d f)
    (harg : Settled d arg) {v x : Var} {σ : Ty} (hσ : d.known? x = some σ)
    (hx : (x ∈ f.term.vars ∧ x ≠ v) ∨ x ∈ arg.term.vars) :
    ((f.context.eraseVar v).merge arg.context).var? x = d.var? x := by
  have hsome : (d.var? x).isSome := by
    rw [(Context.known?_eq_some.1 hσ).1]
    rfl
  refine var?_merge_of_agree ?_ ?_ hsome
  · rw [Context.var?_eraseVar]
    split
    · exact .inl rfl
    · exact hf.var?_eq_none_or x
  · rcases hx with ⟨hx, hne⟩ | hx
    · left
      rw [Context.var?_eraseVar, if_neg hne]
      exact hf.vars x hx
    · exact .inr (harg.vars x hx)

/-- A form that is no abstraction becomes the head of its argument. -/
theorem safe_wrap {d : Context} {f arg : Form} (hf : Settled d f)
    (harg : Settled d arg) {κ : Ty} (htype : f.type = .func arg.type κ) :
    Safe (fun r => Settled d r ∧ r.type = κ)
      (ofTerm (f.context.merge arg.context) (.app f.term [arg.term])) := by
  have htyped : d.fullType? (.app f.term [arg.term]) = some κ := by
    refine Context.fullType?_app_of_takes (.cons harg.typed .nil) hf.typed ?_
    exact Ty.takes_cons_eq_some.2 ⟨κ, htype, Ty.takes_nil κ⟩
  refine safe_ofTerm (hf.within.merge harg.within) ?_ htyped ?_
  · rw [Context.symbols_merge (harg.symbols.trans hf.symbols.symm)]
    exact hf.symbols
  · intro x hx
    have hxvars := Term.mem_vars_of_mem_freeVars hx
    obtain ⟨σ, hσ⟩ := Context.known?_of_fullType? htyped hxvars
    refine var?_merge_of_agree (hf.var?_eq_none_or x) ?_ ?_
    · rcases Term.mem_vars_app.1 hxvars with hx | ⟨u, hu, hx⟩
      · exact .inl (hf.vars x hx)
      · cases List.mem_singleton.1 hu
        exact .inr (harg.vars x hx)
    · rw [(Context.known?_eq_some.1 hσ).1]
      rfl

/-- Reducing an abstraction is safe, if the calls are and the context of
the function has what is nested. -/
theorem safe_reduce {d : Context} {f arg : Form} {v : Var} {type κ : Ty}
    {body : Term} (hf : Settled d f) (harg : Settled d arg)
    (hterm : f.term = .lambda v type body) (hargtype : arg.type = type)
    (htype : f.type = .func type κ) (htraps : body.traps v = false)
    (hnests : body.nests v = true → ∀ x ∈ arg.term.freeVars, x ∈ f.term.vars)
    (hcalls : ∀ p ∈ callsWithin f.context v arg body,
      KeepsScope p ∧ Progresses d p) :
    Safe (fun r => Settled d r ∧ r.type = κ)
      (substitute apply f.context v arg body >>= fun t =>
        ofTerm ((f.context.eraseVar v).merge arg.context) t) := by
  have htyped := hf.typed
  rw [hterm, htype] at htyped
  obtain ⟨⟨hv, -⟩, κ', hbody, hfunc⟩ := Context.fullType?_lambda_eq_some.1 htyped
  cases hfunc
  have hbodyvars : ∀ x ∈ body.vars, x ∈ f.term.vars := by
    rw [hterm]
    exact fun x hx => Term.mem_vars_lambda.2 (.inr hx)
  refine Safe.bind (safe_substitute hf.within hf.symbols harg (hargtype ▸ hv)
    hcalls hbody htraps (fun x hx => hf.vars x (hbodyvars x hx))
    fun h x hx => hf.vars x (hnests h x hx)) ?_
  intro t hsub ht
  refine safe_ofTerm ((hf.within.eraseVar v).merge harg.within) ?_ ht ?_
  · have hsame : arg.context.symbols = (f.context.eraseVar v).symbols :=
      harg.symbols.trans hf.symbols.symm
    rw [Context.symbols_merge hsame]
    exact hf.symbols
  · intro x hx
    obtain ⟨σ, hσ⟩ :=
      Context.known?_of_fullType? ht (Term.mem_vars_of_mem_freeVars hx)
    refine var?_eraseVar_merge hf harg hσ ?_
    rcases mem_freeVars_of_substituted (fun _ h => h)
      ⟨hsub, fun p hp => (hcalls p hp).1⟩ htraps hx with ⟨hx, hne⟩ | ⟨-, hx⟩
    · exact .inl ⟨hbodyvars x (Term.mem_vars_of_mem_freeVars hx), hne⟩
    · exact .inr (Term.mem_vars_of_mem_freeVars hx)

/-- In a run that `d` types, no application fails. -/
theorem progresses_of_runsIn {d : Context} {f a : Form} (hrun : RunsIn d f a) :
    Progresses d (f, a) := by
  refine apply_induct (P := fun f a => RunsIn d f a → Progresses d (f, a))
    (fun f a ih hrun => ?_) f a hrun
  show Settled d f → Movable d a → ∀ κ, f.type = .func a.type κ →
    Safe (fun r => Settled d r ∧ r.type = κ) (apply f a)
  intro hf ha κ htype
  rw [apply_eq]
  refine Safe.bind (x := moved f a)
    (safe_moved ha fun arg harg => hrun.moves _ (.itself f a) arg harg) ?_
  intro arg hmoved harg
  obtain ⟨harg, hargtype⟩ := harg
  refine Safe.bind (.of_ok (a := ()) (P := fun _ => True) rfl trivial) ?_
  intro _ _ _
  have hwrap := safe_wrap hf harg (hargtype ▸ htype)
  split
  · rename_i v type body hterm
    have htyped := hf.typed
    rw [hterm, htype] at htyped
    obtain ⟨-, κ', -, hfunc⟩ := Context.fullType?_lambda_eq_some.1 htyped
    cases hfunc
    rw [if_pos hargtype]
    refine safe_reduce hf harg hterm hargtype htype
      (hrun.clear.here.traps_body hterm) (fun hnests x hx => ?_) ?_
    · refine hrun.covered _ (.itself f a) ?_ x ?_
      · show f.term.nestsParameter = true
        rw [hterm]
        exact hnests
      · exact (mem_freeVars_moved_iff hmoved hrun.clear.here).1 hx
    · rw [← calls_lambda hterm hmoved hargtype]
      intro p hp
      have hcall := hrun.call hp
      exact ⟨keepsScope_of_clearRun hcall.clear, ih p hp hcall⟩
  · -- the type of a binder is no function type
    rename_i op v args hterm
    have htyped := hf.typed
    rw [hterm, htype] at htyped
    obtain ⟨-, -, -, hresult⟩ := Context.fullType?_binder_eq_some.1 htyped
    have hatomic := op.isAtomic_resultType
    rw [hresult] at hatomic
    cases hatomic
  · rename_i b hterm
    exact hwrap
  · rename_i head args hterm
    exact hwrap

end Form

end LogicalForm
