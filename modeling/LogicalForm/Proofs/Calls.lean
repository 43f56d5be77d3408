/-
The applications that an application performs. Reducing `f` applied to
`a` substitutes in the body of `f`, and every use of the variable as a
head applies the renumbered argument to further forms. `calls f a` lists
these applications, function and argument, and `Performs` closes them
under nesting.

# Two induction principles

Everything said about reduction goes by one of two inductions, and both
live here.

- `apply_induct` is well-founded induction along `calls`: the functions
  called have a spine strictly below that of `f` (`Form.SpineBelow`, the
  measure of `Form.Termination`).
- `substitute_induct` is the rule induction of a substitution that
  succeeds: one case for each way to rebuild a term, with the facts about
  the called applications handed to the one case that makes calls.

`apply_eq_ok` opens a successful application once and for all, and
`substitute_app_eq_ok` and its like open a successful substitution; later
proofs use them and never unfold the step.
-/
import LogicalForm.Form.Termination
import LogicalForm.Proofs.Scope
import Mathlib.Data.List.Forall2

namespace LogicalForm

/-- What a computation succeeds with can be asked for. -/
instance decidableExistsOk {ε α : Type} {P : α → Prop} [DecidablePred P] :
    (x : Except ε α) → Decidable (∃ a, x = .ok a ∧ P a)
  | .ok a => decidable_of_iff (P a)
      ⟨fun h => ⟨a, rfl, h⟩, fun ⟨_, hb, h⟩ => Except.ok.inj hb ▸ h⟩
  | .error _ => isFalse fun ⟨_, h, _⟩ => nomatch h

-- ====================================================== related lists

section

variable {α β : Type} {R : α → β → Prop} {as : List α} {bs : List β}

/-- An element on the left has a partner on the right. -/
theorem exists_right_of_mem (h : List.Forall₂ R as bs) {a : α} (ha : a ∈ as) :
    ∃ b ∈ bs, R a b := by
  induction h with
  | nil => cases ha
  | cons hab _ ih =>
      rcases List.mem_cons.1 ha with rfl | ha
      · exact ⟨_, List.mem_cons_self .., hab⟩
      · obtain ⟨b, hb, hR⟩ := ih ha
        exact ⟨b, List.mem_cons_of_mem _ hb, hR⟩

/-- A relation between lists may be replaced where it is known of their
elements. -/
theorem forall₂_imp_of_mem {Q : α → β → Prop} (h : List.Forall₂ R as bs)
    (himp : ∀ a ∈ as, ∀ b, R a b → Q a b) : List.Forall₂ Q as bs := by
  induction h with
  | nil => exact .nil
  | cons hab _ ih =>
      obtain ⟨hfirst, hrest⟩ := List.forall_mem_cons.1 himp
      exact .cons (hfirst _ hab) (ih hrest)

theorem exists_left_of_mem (h : List.Forall₂ R as bs) {b : β} (hb : b ∈ bs) :
    ∃ a ∈ as, R a b :=
  exists_right_of_mem h.flip hb

end

namespace Form

-- =================================================== opening a success

/-- The argument of an application, with its bound variables moved past
all variables of both operands. -/
def moved (f a : Form) : Traced Form :=
  a.renumber (max f.freshIndex a.freshIndex)

/-- What a successful application did: it moved the argument, and then
either substituted it in the body of an abstraction or wrapped the
function, which is no abstraction, around it. -/
theorem apply_eq_ok {f a r : Form} (h : (apply f a).result = .ok r) :
    ∃ arg, (moved f a).result = .ok arg
      ∧ ((∃ v type body t, f.term = .lambda v type body ∧ arg.type = type
          ∧ (substitute apply f.context v arg body).result = .ok t
          ∧ (ofTerm ((f.context.eraseVar v).merge arg.context) t).result
              = .ok r)
        ∨ (f.term.isLambda = false
          ∧ (ofTerm (f.context.merge arg.context)
              (.app f.term [arg.term])).result = .ok r)) := by
  rw [apply_eq] at h
  obtain ⟨arg, harg, h⟩ := Traced.result_bind_eq_ok h
  obtain ⟨-, -, h⟩ := Traced.result_bind_eq_ok h
  refine ⟨arg, harg, ?_⟩
  split at h
  · rename_i v type body hterm
    split at h
    · rename_i htype
      obtain ⟨t, ht, h⟩ := Traced.result_bind_eq_ok h
      exact .inl ⟨v, type, body, t, hterm, htype, ht, h⟩
    · cases h
  · cases h
  · rename_i hterm
    exact .inr ⟨by rw [hterm]; rfl, h⟩
  · rename_i hterm
    exact .inr ⟨by rw [hterm]; rfl, h⟩

/-- Reducing an abstraction, opened: the term of the result is the body
with the moved argument substituted. -/
theorem apply_lambda_eq_ok {f a r : Form} {v : Var} {type : Ty} {body : Term}
    (hf : f.term = .lambda v type body) (h : (apply f a).result = .ok r) :
    ∃ arg, (moved f a).result = .ok arg ∧ arg.type = type
      ∧ (substitute apply f.context v arg body).result = .ok r.term
      ∧ (ofTerm ((f.context.eraseVar v).merge arg.context) r.term).result
          = .ok r := by
  obtain ⟨arg, harg, ⟨v', type', body', t, hf', htype, ht, hr⟩ | ⟨hlam, -⟩⟩ :=
    apply_eq_ok h
  · rw [hf] at hf'
    cases hf'
    have hrt : r.term = t := (result_ofTerm_eq_ok hr).1
    rw [← hrt] at ht hr
    exact ⟨arg, harg, htype, ht, hr⟩
  · rw [hf] at hlam
    cases hlam

/-- Wrapping, opened: the function becomes the head of an application of
the moved argument. -/
theorem apply_wrap_eq_ok {f a r : Form} (hf : f.term.isLambda = false)
    (h : (apply f a).result = .ok r) :
    ∃ arg, (moved f a).result = .ok arg
      ∧ r.term = .app f.term [arg.term]
      ∧ r.context = (f.context.merge arg.context).register r.term := by
  obtain ⟨arg, harg, ⟨v, type, body, t, hf', -⟩ | ⟨-, hr⟩⟩ := apply_eq_ok h
  · rw [hf'] at hf
    cases hf
  · obtain ⟨hrt, hrc⟩ := result_ofTerm_eq_ok hr
    exact ⟨arg, harg, hrt, by rw [hrc, hrt]⟩

/-- The steps of a successful composition: the moved second form is applied
to the body of the abstraction, and the result is put under the lambda
again. -/
theorem compose_steps {f a r : Form} (h : (compose f a).result = .ok r) :
    ∃ v type body inner outer s, f.term = .lambda v type body
      ∧ (ofTerm f.context body).result = .ok inner
      ∧ (moved f a).result = .ok outer
      ∧ (apply outer inner).result = .ok s
      ∧ (ofTerm (f.context.merge s.context) (.lambda v type s.term)).result
          = .ok r := by
  unfold compose at h
  split at h
  · rename_i v type body hterm
    obtain ⟨-, -, h⟩ := Traced.result_bind_eq_ok h
    obtain ⟨inner, hinner, h⟩ := Traced.result_bind_eq_ok h
    obtain ⟨outer, houter, h⟩ := Traced.result_bind_eq_ok h
    obtain ⟨s, hs, h⟩ := Traced.result_bind_eq_ok h
    exact ⟨v, type, body, inner, outer, s, hterm, hinner, houter, hs, h⟩
  · cases h

/-- A list is substituted term by term. -/
theorem substituteAll_eq_ok {c : Context} {v : Var} {arg : Form}
    {ts us : List Term} :
    (substituteAll apply c v arg ts).result = .ok us
      ↔ List.Forall₂
          (fun t u => (substitute apply c v arg t).result = .ok u) ts us := by
  induction ts generalizing us with
  | nil =>
      rw [substituteAll, Traced.result_pure, List.forall₂_nil_left_iff]
      exact ⟨fun h => (Except.ok.inj h).symm, fun h => by rw [h]⟩
  | cons t ts ih =>
      rw [substituteAll, List.forall₂_cons_left_iff]
      constructor
      · intro h
        obtain ⟨u, hu, h⟩ := Traced.result_bind_eq_ok h
        obtain ⟨us', hus, h⟩ := Traced.result_bind_eq_ok h
        cases h
        exact ⟨u, us', hu, ih.1 hus, rfl⟩
      · intro h
        obtain ⟨u, us', hu, hus, rfl⟩ := h
        rw [Traced.result_bind, hu]
        show (substituteAll apply c v arg ts >>= fun us => _).result = _
        rw [Traced.result_bind, ih.2 hus]
        rfl

section

variable {c : Context} {v : Var} {arg : Form} {args : List Term} {u : Term}

/-- Substitution below the lambda of another variable works in its body. -/
theorem substitute_lambda_eq_ok {w : Var} {type : Ty} {body : Term}
    (hw : w ≠ v)
    (h : (substitute apply c v arg (.lambda w type body)).result = .ok u) :
    ∃ body', (substitute apply c v arg body).result = .ok body'
      ∧ u = .lambda w type body' := by
  rw [substitute, if_neg hw] at h
  obtain ⟨body', hbody, h⟩ := Traced.result_bind_eq_ok h
  cases h
  exact ⟨body', hbody, rfl⟩

/-- Substitution below a binder works in its arguments and leaves the bound
variable as it is. -/
theorem substitute_binder_eq_ok {op : Builtin} {w : Var}
    (h : (substitute apply c v arg (.binder op w args)).result = .ok u) :
    ∃ args', (substituteAll apply c v arg args).result = .ok args'
      ∧ u = .binder op w args' := by
  rw [substitute] at h
  obtain ⟨args', hargs, h⟩ := Traced.result_bind_eq_ok h
  cases h
  exact ⟨args', hargs, rfl⟩

/-- A use of the variable is replaced by what the form reduces to. -/
theorem substitute_use_eq_ok
    (h : (substitute apply c v arg (.app (.ofVar v) args)).result = .ok u) :
    ∃ args' g, (substituteAll apply c v arg args).result = .ok args'
      ∧ (applyAll apply c arg args').result = .ok g ∧ u = g.term := by
  rw [substitute] at h
  obtain ⟨args', hargs, h⟩ := Traced.result_bind_eq_ok h
  rw [if_pos rfl] at h
  obtain ⟨g, hg, h⟩ := Traced.result_bind_eq_ok h
  cases h
  exact ⟨args', g, hargs, hg, rfl⟩

/-- Any other application is put together again. -/
theorem substitute_app_eq_ok {head : Term} (hhead : head ≠ .ofVar v)
    (h : (substitute apply c v arg (.app head args)).result = .ok u) :
    ∃ head' args', (substitute apply c v arg head).result = .ok head'
      ∧ (substituteAll apply c v arg args).result = .ok args'
      ∧ u = .app head' args' := by
  rw [substitute] at h
  obtain ⟨args', hargs, h⟩ := Traced.result_bind_eq_ok h
  rw [if_neg hhead] at h
  obtain ⟨head', hh, h⟩ := Traced.result_bind_eq_ok h
  cases h
  exact ⟨head', args', hh, hargs, rfl⟩

end

-- =============================================================== calls

/-- The applications made while `f` is applied to the terms one after
the other. -/
def callsAlong (c : Context) (f : Form) : List Term → List (Form × Form)
  | [] => []
  | t :: ts =>
    match (ofTerm c t).result with
    | .error _ => []
    | .ok a =>
      (f, a) ::
        match (apply f a).result with
        | .error _ => []
        | .ok g => callsAlong c g ts

mutual
/-- The applications made while `arg` is substituted for `v` in a term,
those inside the applications made left out. -/
def callsWithin (c : Context) (v : Var) (arg : Form) :
    Term → List (Form × Form)
  | .atom _ => []
  | .lambda w _ body => if w = v then [] else callsWithin c v arg body
  | .binder _ _ args => callsWithinAll c v arg args
  | .app head args =>
    callsWithinAll c v arg args ++
      if head = .ofVar v then
        match (substituteAll apply c v arg args).result with
        | .error _ => []
        | .ok us => callsAlong c arg us
      else callsWithin c v arg head
/-- The applications made while `arg` is substituted for `v` in a list of
terms. -/
def callsWithinAll (c : Context) (v : Var) (arg : Form) :
    List Term → List (Form × Form)
  | [] => []
  | t :: ts => callsWithin c v arg t ++ callsWithinAll c v arg ts
end

@[simp] theorem callsWithinAll_eq_flatMap (c : Context) (v : Var) (arg : Form)
    (ts : List Term) :
    callsWithinAll c v arg ts = ts.flatMap (callsWithin c v arg) := by
  induction ts with
  | nil => rfl
  | cons t ts ih => rw [callsWithinAll, ih, List.flatMap_cons]

/-- The applications made while `f` is applied to `a`, those inside the
applications made left out. -/
def calls (f a : Form) : List (Form × Form) :=
  match f.term, (moved f a).result with
  | .lambda v type body, .ok arg =>
    if arg.type = type then callsWithin f.context v arg body else []
  | _, _ => []

/-- The calls of a reduction are those of its substitution. -/
theorem calls_lambda {f a arg : Form} {v : Var} {type : Ty} {body : Term}
    (hf : f.term = .lambda v type body) (harg : (moved f a).result = .ok arg)
    (htype : arg.type = type) :
    calls f a = callsWithin f.context v arg body := by
  rw [calls, hf, harg]
  exact if_pos htype

/-- A call comes from the body of an abstraction. -/
theorem exists_of_mem_calls {f a : Form} {p : Form × Form}
    (h : p ∈ calls f a) :
    ∃ v type body arg, f.term = .lambda v type body
      ∧ (moved f a).result = .ok arg ∧ arg.type = type
      ∧ p ∈ callsWithin f.context v arg body := by
  unfold calls at h
  split at h
  · rename_i v type body arg hterm harg
    split at h
    · exact ⟨v, type, body, arg, hterm, harg, ‹_›, h⟩
    · cases h
  · cases h

-- =========================================================== induction

/-- Application keeps a bound on the spine of its operands. -/
theorem keeps_apply {n : Nat} (hn : 0 < n) : Keeps apply n := by
  intro f a r hf h
  have hunfold : applyWithin refuse (max n f.type.size) f a = apply f a :=
    applyWithin_eq_apply refuse (Nat.le_max_right ..) a
  rw [← hunfold] at h
  exact keeps_applyWithin refuse hn (Nat.le_max_left ..) f a r hf h

/-- The arguments of the calls along a list are its members, typed in the
context. -/
theorem exists_of_mem_callsAlong {c : Context} {f : Form} {ts : List Term}
    {p : Form × Form} (h : p ∈ callsAlong c f ts) :
    ∃ t ∈ ts, (ofTerm c t).result = .ok p.2 := by
  induction ts generalizing f with
  | nil => cases h
  | cons t ts ih =>
      unfold callsAlong at h
      split at h
      · cases h
      · rename_i a ha
        rcases List.mem_cons.1 h with rfl | h
        · exact ⟨t, List.mem_cons_self .., ha⟩
        · split at h
          · cases h
          · obtain ⟨u, hu, hp⟩ := ih h
            exact ⟨u, List.mem_cons_of_mem _ hu, hp⟩

/-- Each function of a run over arguments has a spine below the bound of the
first one. -/
theorem spineBelow_of_mem_callsAlong {n : Nat} (hn : 0 < n) {c : Context}
    {f : Form} {ts : List Term} {p : Form × Form} (hf : f.term.SpineBelow n)
    (h : p ∈ callsAlong c f ts) : p.1.term.SpineBelow n := by
  induction ts generalizing f with
  | nil => cases h
  | cons t ts ih =>
      unfold callsAlong at h
      split at h
      · cases h
      · rename_i a ha
        rcases List.mem_cons.1 h with rfl | h
        · exact hf
        · split at h
          · cases h
          · rename_i g hg
            exact ih (keeps_apply hn f a g hf hg) h

/-- What a substitution applies is the argument or a result of it, whose
spine keeps its bound. -/
theorem spineBelow_of_mem_callsWithin {n : Nat} (hn : 0 < n) {c : Context}
    {v : Var} {arg : Form} {t : Term} {p : Form × Form}
    (harg : arg.term.SpineBelow n) (h : p ∈ callsWithin c v arg t) :
    p.1.term.SpineBelow n := by
  induction t with
  | atom a => cases h
  | lambda w type body ih =>
      rw [callsWithin] at h
      split at h
      · cases h
      · exact ih h
  | binder op w args ih =>
      rw [callsWithin, callsWithinAll_eq_flatMap] at h
      obtain ⟨t, ht, h⟩ := List.mem_flatMap.1 h
      exact ih t ht h
  | app head args ihHead ihArgs =>
      rw [callsWithin, callsWithinAll_eq_flatMap] at h
      rcases List.mem_append.1 h with h | h
      · obtain ⟨t, ht, h⟩ := List.mem_flatMap.1 h
        exact ihArgs t ht h
      · split at h
        · split at h
          · cases h
          · exact spineBelow_of_mem_callsAlong hn harg h
        · exact ihHead h

/-- The functions called have a lower spine. -/
theorem spineBelow_of_mem_calls {n : Nat} {f a : Form} {p : Form × Form}
    (hf : f.term.SpineBelow (n + 1)) (h : p ∈ calls f a) :
    p.1.term.SpineBelow n := by
  obtain ⟨v, type, body, arg, hterm, -, htype, h⟩ := exists_of_mem_calls h
  rw [hterm] at hf
  have harg : arg.term.SpineBelow type.size := htype ▸ arg.spineBelow_term
  have hp := spineBelow_of_mem_callsWithin type.size_pos harg h
  exact hp.mono (Nat.le_of_lt_succ hf.1)

/-- A form without lambdas at its spine calls nothing. -/
theorem not_mem_calls_of_spineBelow_zero {f a : Form} {p : Form × Form}
    (hf : f.term.SpineBelow 0) : p ∉ calls f a := by
  intro h
  obtain ⟨v, type, body, arg, hterm, -⟩ := exists_of_mem_calls h
  rw [hterm] at hf
  exact absurd hf.1 (Nat.not_lt_zero _)

/-- Induction along the calls: what holds of an application whenever it
holds of the applications it calls holds of every application. -/
theorem apply_induct {P : Form → Form → Prop}
    (step : ∀ f a, (∀ p ∈ calls f a, P p.1 p.2) → P f a) (f a : Form) :
    P f a := by
  suffices general : ∀ n f a, f.term.SpineBelow n → P f a from
    general _ f a f.spineBelow_term
  intro n
  induction n with
  | zero =>
      intro f a hf
      exact step f a fun p hp => absurd hp (not_mem_calls_of_spineBelow_zero hf)
  | succ n ih =>
      intro f a hf
      exact step f a fun p hp => ih p.1 p.2 (spineBelow_of_mem_calls hf hp)

-- ====================================================== rule induction

/-- A run over arguments calls the application to the first one and then
runs on from its result. -/
theorem callsAlong_cons {c : Context} {f a s : Form} {t : Term}
    {ts : List Term} (ha : (ofTerm c t).result = .ok a)
    (hs : (apply f a).result = .ok s) :
    callsAlong c f (t :: ts) = (f, a) :: callsAlong c s ts := by
  rw [callsAlong, ha]
  simp only [hs]

/-- What every application keeps, a chain of applications keeps. -/
theorem applyAll_keeps {R : Form → Prop} {c : Context} {f g : Form}
    {ts : List Term}
    (step : ∀ p ∈ callsAlong c f ts, ∀ s, R p.1 →
      (apply p.1 p.2).result = .ok s → R s)
    (hf : R f) (h : (applyAll apply c f ts).result = .ok g) : R g := by
  induction ts generalizing f with
  | nil =>
      cases h
      exact hf
  | cons t ts ih =>
      obtain ⟨a, ha, h⟩ := Traced.result_bind_eq_ok h
      obtain ⟨s, hs, h⟩ := Traced.result_bind_eq_ok h
      rw [callsAlong_cons ha hs] at step
      have hR : R s := step (f, a) (List.mem_cons_self ..) s hf hs
      exact ih (fun p hp => step p (List.mem_cons_of_mem _ hp)) hR h

/-- A substitution that succeeded, with what is known of the calls it
made. -/
structure Substituted (H : Form × Form → Prop) (c : Context) (v : Var)
    (arg : Form) (t u : Term) : Prop where
  run : (substitute apply c v arg t).result = .ok u
  calls : ∀ p ∈ callsWithin c v arg t, H p

/-- Rule induction over a substitution that succeeds. Only a curried use
of the variable makes calls. -/
theorem substitute_induct {H : Form × Form → Prop} {c : Context} {v : Var}
    {arg : Form} {P : Term → Term → Prop}
    (var : P (.ofVar v) arg.term)
    (atom : ∀ a, a ≠ .var v → P (.atom a) (.atom a))
    (shadowed : ∀ type body, P (.lambda v type body) (.lambda v type body))
    (lambda : ∀ w type body body', w ≠ v →
      Substituted H c v arg body body' → P body body' →
      P (.lambda w type body) (.lambda w type body'))
    (binder : ∀ op w args args',
      List.Forall₂ (fun t u => Substituted H c v arg t u ∧ P t u) args args' →
      P (.binder op w args) (.binder op w args'))
    (curried : ∀ args args' g,
      List.Forall₂ (fun t u => Substituted H c v arg t u ∧ P t u) args args' →
      (∀ p ∈ callsAlong c arg args', H p) →
      (applyAll apply c arg args').result = .ok g →
      P (.app (.ofVar v) args) g.term)
    (headed : ∀ head head' args args', head ≠ .ofVar v →
      Substituted H c v arg head head' → P head head' →
      List.Forall₂ (fun t u => Substituted H c v arg t u ∧ P t u) args args' →
      P (.app head args) (.app head' args'))
    {t u : Term} (h : Substituted H c v arg t u) : P t u := by
  have all : ∀ ts us : List Term,
      (∀ t ∈ ts, ∀ u, Substituted H c v arg t u → P t u) →
      (substituteAll apply c v arg ts).result = .ok us →
      (∀ p ∈ callsWithinAll c v arg ts, H p) →
      List.Forall₂ (fun t u => Substituted H c v arg t u ∧ P t u) ts us := by
    intro ts
    induction ts with
    | nil =>
        intro us _ h _
        cases substituteAll_eq_ok.1 h
        exact .nil
    | cons t ts ih =>
        intro us hts h hcalls
        cases substituteAll_eq_ok.1 h with
        | cons hu hus =>
            rw [callsWithinAll] at hcalls
            have hsub : Substituted H c v arg t _ :=
              ⟨hu, fun p hp => hcalls p (List.mem_append_left _ hp)⟩
            refine .cons ⟨hsub, hts t (List.mem_cons_self ..) _ hsub⟩ ?_
            exact ih _ (fun t ht => hts t (List.mem_cons_of_mem _ ht))
              (substituteAll_eq_ok.2 hus)
              fun p hp => hcalls p (List.mem_append_right _ hp)
  obtain ⟨h, hcalls⟩ := h
  induction t generalizing u with
  | atom a =>
      cases h
      by_cases ha : a = .var v
      · subst ha
        rw [if_pos rfl]
        exact var
      · rw [if_neg ha]
        exact atom a ha
  | lambda w type body ih =>
      rw [callsWithin] at hcalls
      by_cases hw : w = v
      · subst hw
        rw [substitute, if_pos rfl] at h
        cases h
        exact shadowed type body
      · rw [if_neg hw] at hcalls
        obtain ⟨body', hbody, rfl⟩ := substitute_lambda_eq_ok hw h
        exact lambda w type body body' hw ⟨hbody, hcalls⟩ (ih hbody hcalls)
  | binder op w args ih =>
      rw [callsWithin] at hcalls
      obtain ⟨args', hargs, rfl⟩ := substitute_binder_eq_ok h
      exact binder op w args args'
        (all args args' (fun t ht u hu => ih t ht hu.run hu.calls) hargs hcalls)
  | app head args ihHead ihArgs =>
      rw [callsWithin] at hcalls
      have hP {args' : List Term}
          (hargs : (substituteAll apply c v arg args).result = .ok args') :=
        all args args' (fun t ht u hu => ihArgs t ht hu.run hu.calls) hargs
          fun p hp => hcalls p (List.mem_append_left _ hp)
      have hrest := fun p hp => hcalls p (List.mem_append_right _ hp)
      by_cases hhead : head = .ofVar v
      · subst hhead
        obtain ⟨args', g, hargs, hg, rfl⟩ := substitute_use_eq_ok h
        rw [if_pos rfl, hargs] at hrest
        exact curried args args' g (hP hargs) hrest hg
      · rw [if_neg hhead] at hrest
        obtain ⟨head', args', hh, hargs, rfl⟩ := substitute_app_eq_ok hhead h
        exact headed head head' args args' hhead ⟨hh, hrest⟩
          (ihHead hh hrest) (hP hargs)

-- ============================================== performed applications

/-- `Performs f a p`: the application `p`, function and argument, is
carried out while `f` is applied to `a`. The application of `f` to `a`
counts among them. -/
inductive Performs : Form → Form → Form × Form → Prop
  | itself (f a : Form) : Performs f a (f, a)
  | nested {f a : Form} {p q : Form × Form} :
      p ∈ calls f a → Performs p.1 p.2 q → Performs f a q

/-- The applications performed, nested at most `n` deep. -/
def performedWithin : Nat → Form → Form → List (Form × Form)
  | 0, f, a => [(f, a)]
  | n + 1, f, a =>
    (f, a) :: (calls f a).flatMap fun p => performedWithin n p.1 p.2

/-- The applications performed while `f` is applied to `a`. -/
def performed (f a : Form) : List (Form × Form) :=
  performedWithin f.type.size f a

/-- What is performed up to a depth is all that is performed, if the depth
bounds the spine. -/
theorem mem_performedWithin {n : Nat} {f a : Form} {q : Form × Form}
    (hf : f.term.SpineBelow n) :
    q ∈ performedWithin n f a ↔ Performs f a q := by
  induction n generalizing f a with
  | zero =>
      rw [performedWithin, List.mem_singleton]
      constructor
      · intro heq
        subst heq
        exact .itself f a
      · intro h
        cases h with
        | itself => rfl
        | nested hp _ => exact absurd hp (not_mem_calls_of_spineBelow_zero hf)
  | succ n ih =>
      rw [performedWithin, List.mem_cons, List.mem_flatMap]
      constructor
      · intro h
        rcases h with rfl | ⟨p, hp, hq⟩
        · exact .itself f a
        · exact .nested hp ((ih (spineBelow_of_mem_calls hf hp)).1 hq)
      · intro h
        cases h with
        | itself => exact .inl rfl
        | nested hp hq =>
            exact .inr
              ⟨_, hp, (ih (spineBelow_of_mem_calls hf hp)).2 hq⟩

/-- The list of performed applications is complete. -/
theorem mem_performed {f a : Form} {q : Form × Form} :
    q ∈ performed f a ↔ Performs f a q :=
  mem_performedWithin f.spineBelow_term

/-- What all performed applications satisfy can be decided. -/
instance {P : Form × Form → Prop} [DecidablePred P] (f a : Form) :
    Decidable (∀ p, Performs f a p → P p) :=
  decidable_of_iff (∀ p ∈ performed f a, P p) (by simp only [mem_performed])

end Form

end LogicalForm
