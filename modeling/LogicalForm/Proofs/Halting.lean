/-
Every reduction ends. The recursion of application and substitution into
each other is given here as four relations, one for each of the mutually
recursive procedures, with no bound on the depth anywhere: a derivation
of `Applies f a n out` is a finished run, which made `n` calls and ended
with `out`. A run that went on for ever would have no derivation.

# Main statement

`application_and_composition_halt`: for all forms `f` and `a` there is
exactly one run of the application and exactly one of the composition,
and it ends with what `apply` and `compose` compute. Failing runs count
as well as successful ones.

# How the proof goes

A derivation is put together along the calls (`apply_induct`) and, inside
one application, along the body of the function. That there is no second
run needs no measure at all: two derivations from one start agree rule by
rule.
-/
import LogicalForm.Proofs.Calls

namespace LogicalForm

namespace Form

-- ================================================================ runs

mutual
/-- Applying `f` to `a` makes `n` calls of application and substitution,
itself included, and ends with `out`. -/
inductive Applies : Form → Form → Nat → Except Error Form → Prop
  | unmoved {f a : Form} {e : Error} :
      (moved f a).result = .error e → Applies f a 1 (.error e)
  | mismatch {f a arg : Form} {v : Var} {type : Ty} {body : Term} :
      (moved f a).result = .ok arg → f.term = .lambda v type body →
      arg.type ≠ type →
      Applies f a 1
        (.error (.typeMismatch type arg.type f.term a.term))
  | reduces {f a arg : Form} {v : Var} {type : Ty} {body : Term} {n : Nat}
      {out : Except Error Term} :
      (moved f a).result = .ok arg → f.term = .lambda v type body →
      arg.type = type → Substitutes f.context v arg body n out →
      Applies f a (n + 1) (out.bind fun t =>
        (ofTerm ((f.context.eraseVar v).merge arg.context) t).result)
  | stuck {f a arg : Form} {op : Builtin} {v : Var} {args : List Term} :
      (moved f a).result = .ok arg → f.term = .binder op v args →
      Applies f a 1 (.error (.notApplicable f.term))
  | wraps {f a arg : Form} :
      (moved f a).result = .ok arg → f.term.isLambda = false →
      (∀ op v args, f.term ≠ .binder op v args) →
      Applies f a 1
        (ofTerm (f.context.merge arg.context) (.app f.term [arg.term])).result
/-- Applying `f` to the terms in turn makes `n` calls and ends with
`out`. -/
inductive AppliesAll :
    Context → Form → List Term → Nat → Except Error Form → Prop
  | done {c : Context} {f : Form} : AppliesAll c f [] 0 (.ok f)
  | untyped {c : Context} {f : Form} {t : Term} {ts : List Term} {e : Error} :
      (ofTerm c t).result = .error e → AppliesAll c f (t :: ts) 0 (.error e)
  | fails {c : Context} {f a : Form} {t : Term} {ts : List Term} {n : Nat}
      {e : Error} :
      (ofTerm c t).result = .ok a → Applies f a n (.error e) →
      AppliesAll c f (t :: ts) n (.error e)
  | next {c : Context} {f a g : Form} {t : Term} {ts : List Term} {m n : Nat}
      {out : Except Error Form} :
      (ofTerm c t).result = .ok a → Applies f a m (.ok g) →
      AppliesAll c g ts n out → AppliesAll c f (t :: ts) (m + n) out
/-- Substituting `arg` for `v` in a term makes `n` calls, itself
included, and ends with `out`. -/
inductive Substitutes :
    Context → Var → Form → Term → Nat → Except Error Term → Prop
  | var {c : Context} {v : Var} {arg : Form} :
      Substitutes c v arg (.ofVar v) 1 (.ok arg.term)
  | atom {c : Context} {v : Var} {arg : Form} {a : Atom} :
      a ≠ .var v → Substitutes c v arg (.atom a) 1 (.ok (.atom a))
  | shadowed {c : Context} {v : Var} {arg : Form} {type : Ty} {body : Term} :
      Substitutes c v arg (.lambda v type body) 1 (.ok (.lambda v type body))
  | lambda {c : Context} {v w : Var} {arg : Form} {type : Ty} {body : Term}
      {n : Nat} {out : Except Error Term} :
      w ≠ v → Substitutes c v arg body n out →
      Substitutes c v arg (.lambda w type body) (n + 1)
        (out.map (.lambda w type))
  | binder {c : Context} {v w : Var} {arg : Form} {op : Builtin}
      {args : List Term} {n : Nat} {out : Except Error (List Term)} :
      SubstitutesAll c v arg args n out →
      Substitutes c v arg (.binder op w args) (n + 1) (out.map (.binder op w))
  | blocked {c : Context} {v : Var} {arg : Form} {head : Term}
      {args : List Term} {n : Nat} {e : Error} :
      SubstitutesAll c v arg args n (.error e) →
      Substitutes c v arg (.app head args) (n + 1) (.error e)
  | curried {c : Context} {v : Var} {arg : Form} {args args' : List Term}
      {m n : Nat} {out : Except Error Form} :
      SubstitutesAll c v arg args m (.ok args') →
      AppliesAll c arg args' n out →
      Substitutes c v arg (.app (.ofVar v) args) (m + n + 1)
        (out.map Form.term)
  | headed {c : Context} {v : Var} {arg : Form} {head : Term}
      {args args' : List Term} {m n : Nat} {out : Except Error Term} :
      head ≠ .ofVar v → SubstitutesAll c v arg args m (.ok args') →
      Substitutes c v arg head n out →
      Substitutes c v arg (.app head args) (m + n + 1)
        (out.map fun head' => .app head' args')
/-- Substituting `arg` for `v` in the terms in turn makes `n` calls and
ends with `out`. -/
inductive SubstitutesAll :
    Context → Var → Form → List Term → Nat → Except Error (List Term) → Prop
  | done {c : Context} {v : Var} {arg : Form} :
      SubstitutesAll c v arg [] 0 (.ok [])
  | fails {c : Context} {v : Var} {arg : Form} {t : Term} {ts : List Term}
      {n : Nat} {e : Error} :
      Substitutes c v arg t n (.error e) →
      SubstitutesAll c v arg (t :: ts) n (.error e)
  | next {c : Context} {v : Var} {arg : Form} {t u : Term} {ts : List Term}
      {m n : Nat} {out : Except Error (List Term)} :
      Substitutes c v arg t m (.ok u) → SubstitutesAll c v arg ts n out →
      SubstitutesAll c v arg (t :: ts) (m + n) (out.map (u :: ·))
end

/-- Composing `f` with `a` makes `n` calls of application and
substitution and ends with `out`. -/
inductive Composes : Form → Form → Nat → Except Error Form → Prop
  | refused {f a : Form} :
      f.term.isLambda = false → Composes f a 0 (.error (.notALambda f.term))
  | untyped {f a : Form} {v : Var} {type : Ty} {body : Term} {e : Error} :
      f.term = .lambda v type body →
      (ofTerm f.context body).result = .error e → Composes f a 0 (.error e)
  | unmoved {f a inner : Form} {v : Var} {type : Ty} {body : Term}
      {e : Error} :
      f.term = .lambda v type body →
      (ofTerm f.context body).result = .ok inner →
      (moved f a).result = .error e → Composes f a 0 (.error e)
  | applies {f a inner outer : Form} {v : Var} {type : Ty} {body : Term}
      {n : Nat} {out : Except Error Form} :
      f.term = .lambda v type body →
      (ofTerm f.context body).result = .ok inner →
      (moved f a).result = .ok outer → Applies outer inner n out →
      Composes f a n (out.bind fun r =>
        (ofTerm (f.context.merge r.context) (.lambda v type r.term)).result)

-- ============================================================ existence

/-- A run whose value is passed through a function at the end. -/
theorem result_bind_pure {α β : Type} (x : Traced α) (g : α → β) :
    (x >>= fun a => pure (g a)).result = x.result.map g := by
  rw [Traced.result_bind]
  cases x.result <;> rfl

/-- The run of an application that ends with what `apply` computes. -/
abbrev Ends (p : Form × Form) : Prop :=
  ∃ n, Applies p.1 p.2 n (apply p.1 p.2).result

/-- A run over arguments ends if each of its applications ends. -/
theorem exists_appliesAll {c : Context} {f : Form} {ts : List Term}
    (hcalls : ∀ p ∈ callsAlong c f ts, Ends p) :
    ∃ n, AppliesAll c f ts n (applyAll apply c f ts).result := by
  induction ts generalizing f with
  | nil => exact ⟨0, .done⟩
  | cons t ts ih =>
      rw [applyAll, Traced.result_bind]
      unfold callsAlong at hcalls
      cases ht : (ofTerm c t).result with
      | error e => exact ⟨0, .untyped ht⟩
      | ok a =>
          rw [ht] at hcalls
          show ∃ n, AppliesAll c f (t :: ts) n
            (apply f a >>= fun g => applyAll apply c g ts).result
          rw [Traced.result_bind]
          obtain ⟨m, hm⟩ := hcalls (f, a) (List.mem_cons_self ..)
          cases hg : (apply f a).result with
          | error e =>
              rw [hg] at hm
              exact ⟨m, .fails ht hm⟩
          | ok g =>
              rw [hg] at hm
              simp only [hg] at hcalls
              obtain ⟨n, hn⟩ :=
                ih fun p hp => hcalls p (List.mem_cons_of_mem _ hp)
              exact ⟨m + n, .next ht hm hn⟩

/-- A substitution ends if each application that it makes ends. -/
theorem exists_substitutes {c : Context} {v : Var} {arg : Form} {t : Term}
    (hcalls : ∀ p ∈ callsWithin c v arg t, Ends p) :
    ∃ n, Substitutes c v arg t n (substitute apply c v arg t).result := by
  have all : ∀ ts : List Term,
      (∀ t ∈ ts, (∀ p ∈ callsWithin c v arg t, Ends p) →
        ∃ n, Substitutes c v arg t n (substitute apply c v arg t).result) →
      (∀ p ∈ callsWithinAll c v arg ts, Ends p) →
      ∃ n, SubstitutesAll c v arg ts n
        (substituteAll apply c v arg ts).result := by
    intro ts
    induction ts with
    | nil =>
        intro _ _
        exact ⟨0, .done⟩
    | cons t ts ih =>
        intro hts hcalls
        rw [callsWithinAll] at hcalls
        obtain ⟨m, hm⟩ := hts t (List.mem_cons_self ..)
          fun p hp => hcalls p (List.mem_append_left _ hp)
        obtain ⟨n, hn⟩ := ih (fun t ht => hts t (List.mem_cons_of_mem _ ht))
          fun p hp => hcalls p (List.mem_append_right _ hp)
        rw [substituteAll, Traced.result_bind]
        cases hu : (substitute apply c v arg t).result with
        | error e =>
            rw [hu] at hm
            exact ⟨m, .fails hm⟩
        | ok u =>
            rw [hu] at hm
            refine ⟨m + n, ?_⟩
            show SubstitutesAll c v arg (t :: ts) (m + n)
              (substituteAll apply c v arg ts >>= fun us =>
                pure (u :: us)).result
            rw [result_bind_pure]
            exact .next hm hn
  induction t with
  | atom a =>
      rw [substitute, Traced.result_pure]
      by_cases ha : a = .var v
      · subst ha
        rw [if_pos rfl]
        exact ⟨1, .var⟩
      · rw [if_neg ha]
        exact ⟨1, .atom ha⟩
  | lambda w type body ih =>
      rw [substitute]
      rw [callsWithin] at hcalls
      by_cases hw : w = v
      · subst hw
        rw [if_pos rfl]
        exact ⟨1, .shadowed⟩
      · rw [if_neg hw] at hcalls ⊢
        obtain ⟨n, hn⟩ := ih hcalls
        rw [result_bind_pure]
        exact ⟨n + 1, .lambda hw hn⟩
  | binder op w args ih =>
      rw [substitute, result_bind_pure]
      rw [callsWithin] at hcalls
      obtain ⟨n, hn⟩ := all args ih hcalls
      exact ⟨n + 1, .binder hn⟩
  | app head args ihHead ihArgs =>
      rw [substitute, Traced.result_bind]
      rw [callsWithin] at hcalls
      obtain ⟨m, hm⟩ := all args ihArgs
        fun p hp => hcalls p (List.mem_append_left _ hp)
      have hrest := fun p hp => hcalls p (List.mem_append_right _ hp)
      cases hargs : (substituteAll apply c v arg args).result with
      | error e =>
          rw [hargs] at hm
          exact ⟨m + 1, .blocked hm⟩
      | ok args' =>
          rw [hargs] at hm
          show ∃ n, Substitutes c v arg (.app head args) n
            (if head = .ofVar v then
              applyAll apply c arg args' >>= fun g => pure g.term
            else substitute apply c v arg head >>= fun head' =>
              pure (.app head' args')).result
          by_cases hhead : head = .ofVar v
          · subst hhead
            rw [if_pos rfl, hargs] at hrest
            obtain ⟨n, hn⟩ := exists_appliesAll hrest
            rw [if_pos rfl, result_bind_pure]
            exact ⟨m + n + 1, .curried hm hn⟩
          · rw [if_neg hhead] at hrest ⊢
            obtain ⟨n, hn⟩ := ihHead hrest
            rw [result_bind_pure]
            exact ⟨m + n + 1, .headed hhead hm hn⟩

/-- The step after the move of the argument. -/
theorem result_apply {f a arg : Form} (harg : (moved f a).result = .ok arg) :
    (apply f a).result = (match f.term with
      | .lambda v type body =>
        if arg.type = type then do
          let t ← substitute apply f.context v arg body
          ofTerm ((f.context.eraseVar v).merge arg.context) t
        else throw (.typeMismatch type arg.type f.term a.term)
      | .binder .. => throw (.notApplicable f.term)
      | .atom _ | .app .. =>
        ofTerm (f.context.merge arg.context) (.app f.term [arg.term]) :
      Traced Form).result := by
  unfold moved at harg
  rw [apply_eq, applyStep, Traced.result_bind, harg]
  rfl

/-- Every application has a run. -/
theorem exists_applies (f a : Form) :
    ∃ n, Applies f a n (apply f a).result := by
  refine apply_induct (P := fun f a => Ends (f, a)) (fun f a hcalls => ?_) f a
  show ∃ n, Applies f a n (apply f a).result
  cases harg : (moved f a).result with
  | error e =>
      have hmoved := harg
      unfold moved at hmoved
      rw [apply_eq, applyStep, Traced.result_bind, hmoved]
      exact ⟨1, .unmoved harg⟩
  | ok arg =>
      rw [result_apply harg]
      split
      · rename_i v type body hterm
        by_cases htype : arg.type = type
        · rw [if_pos htype, Traced.result_bind]
          rw [calls_lambda hterm harg htype] at hcalls
          obtain ⟨n, hn⟩ := exists_substitutes hcalls
          exact ⟨n + 1, .reduces harg hterm htype hn⟩
        · rw [if_neg htype]
          exact ⟨1, .mismatch harg hterm htype⟩
      · rename_i hterm
        exact ⟨1, .stuck harg hterm⟩
      · rename_i hterm
        exact ⟨1, .wraps harg (by rw [hterm]; rfl) (by rw [hterm]; nofun)⟩
      · rename_i hterm
        exact ⟨1, .wraps harg (by rw [hterm]; rfl) (by rw [hterm]; nofun)⟩

/-- Every composition has a run. -/
theorem exists_composes (f a : Form) :
    ∃ n, Composes f a n (compose f a).result := by
  rw [compose]
  split
  · rename_i v type body hterm
    show ∃ n, Composes f a n (ofTerm f.context body >>= fun inner =>
      moved f a >>= fun outer => apply outer inner >>= fun r =>
      ofTerm (f.context.merge r.context) (.lambda v type r.term)).result
    rw [Traced.result_bind]
    cases hinner : (ofTerm f.context body).result with
    | error e => exact ⟨0, .untyped hterm hinner⟩
    | ok inner =>
        show ∃ n, Composes f a n (moved f a >>= fun outer =>
          apply outer inner >>= fun r =>
          ofTerm (f.context.merge r.context) (.lambda v type r.term)).result
        rw [Traced.result_bind]
        cases houter : (moved f a).result with
        | error e => exact ⟨0, .unmoved hterm hinner houter⟩
        | ok outer =>
            obtain ⟨n, hn⟩ := exists_applies outer inner
            show ∃ n, Composes f a n (apply outer inner >>= fun r =>
              ofTerm (f.context.merge r.context)
                (.lambda v type r.term)).result
            rw [Traced.result_bind]
            exact ⟨n, .applies hterm hinner houter hn⟩
  · rename_i hlambda
    have hf : f.term.isLambda = false := by
      cases hterm : f.term with
      | lambda v type body => exact absurd hterm (hlambda v type body)
      | _ => rfl
    exact ⟨0, .refused hf⟩

-- ========================================================== uniqueness

mutual
/-- Application has one run only: the same calls and the same end. -/
theorem Applies.unique :
    ∀ {f a m n out out'}, Applies f a m out → Applies f a n out' →
      m = n ∧ out = out'
  | _, _, _, _, _, _, .unmoved hmoved, h' => by
      cases h' <;> simp_all
  | _, _, _, _, _, _, .mismatch hmoved hterm htype, h' => by
      cases h' <;> simp_all [Term.isLambda]
  | _, _, _, _, _, _, .reduces hmoved hterm htype hsub, h' => by
      have ih := fun n out' => @Substitutes.unique _ _ _ _ _ n _ out' hsub
      cases h' with
      | reduces hmoved' hterm' htype' hsub' =>
          rw [hmoved] at hmoved'
          rw [hterm] at hterm'
          cases hmoved'
          cases hterm'
          obtain ⟨rfl, rfl⟩ := ih _ _ hsub'
          exact ⟨rfl, rfl⟩
      | _ => simp_all [Term.isLambda]
  | _, _, _, _, _, _, .stuck hmoved hterm, h' => by
      cases h' <;> simp_all
  | _, _, _, _, _, _, .wraps hmoved hlambda hbinder, h' => by
      cases h' <;> simp_all [Term.isLambda]
termination_by structural _ _ _ _ _ _ h => h
theorem AppliesAll.unique :
    ∀ {c f ts m n out out'}, AppliesAll c f ts m out →
      AppliesAll c f ts n out' → m = n ∧ out = out'
  | _, _, _, _, _, _, _, .done, h' => by
      cases h' with
      | done => exact ⟨rfl, rfl⟩
  | _, _, _, _, _, _, _, .untyped ha, h' => by
      cases h' <;> simp_all
  | _, _, _, _, _, _, _, .fails ha hf, h' => by
      have ih := fun n out' => @Applies.unique _ _ _ n _ out' hf
      cases h' with
      | untyped ha' => simp_all
      | fails ha' hf' =>
          rw [ha] at ha'
          cases ha'
          obtain ⟨rfl, he⟩ := ih _ _ hf'
          exact ⟨rfl, by rw [Except.error.inj he]⟩
      | next ha' hf' _ =>
          rw [ha] at ha'
          cases ha'
          obtain ⟨-, he⟩ := ih _ _ hf'
          cases he
  | _, _, _, _, _, _, _, .next ha hf hts, h' => by
      have ihf := fun n out' => @Applies.unique _ _ _ n _ out' hf
      have ihts := fun n out' => @AppliesAll.unique _ _ _ _ n _ out' hts
      cases h' with
      | untyped ha' => simp_all
      | fails ha' hf' =>
          rw [ha] at ha'
          cases ha'
          obtain ⟨-, he⟩ := ihf _ _ hf'
          cases he
      | next ha' hf' hts' =>
          rw [ha] at ha'
          cases ha'
          obtain ⟨rfl, he⟩ := ihf _ _ hf'
          cases he
          obtain ⟨rfl, rfl⟩ := ihts _ _ hts'
          exact ⟨rfl, rfl⟩
termination_by structural _ _ _ _ _ _ _ h => h
/-- Substitution has one run only. -/
theorem Substitutes.unique :
    ∀ {c v arg t m n out out'}, Substitutes c v arg t m out →
      Substitutes c v arg t n out' → m = n ∧ out = out'
  | _, _, _, _, _, _, _, _, .var, h' => by
      cases h' <;> simp_all
  | _, _, _, _, _, _, _, _, .atom ha, h' => by
      cases h' <;> simp_all
  | _, _, _, _, _, _, _, _, .shadowed, h' => by
      cases h' <;> simp_all
  | _, _, _, _, _, _, _, _, .lambda hw hb, h' => by
      have ih := fun n out' => @Substitutes.unique _ _ _ _ _ n _ out' hb
      cases h' with
      | shadowed => exact absurd rfl hw
      | lambda _ hb' =>
          obtain ⟨rfl, rfl⟩ := ih _ _ hb'
          exact ⟨rfl, rfl⟩
  | _, _, _, _, _, _, _, _, .binder hargs, h' => by
      have ih := fun n out' => @SubstitutesAll.unique _ _ _ _ _ n _ out' hargs
      cases h' with
      | binder hargs' =>
          obtain ⟨rfl, rfl⟩ := ih _ _ hargs'
          exact ⟨rfl, rfl⟩
  | _, _, _, _, _, _, _, _, .blocked hargs, h' => by
      have ih := fun n out' => @SubstitutesAll.unique _ _ _ _ _ n _ out' hargs
      cases h' with
      | blocked hargs' =>
          obtain ⟨rfl, he⟩ := ih _ _ hargs'
          exact ⟨rfl, by rw [Except.error.inj he]⟩
      | curried hargs' _ =>
          obtain ⟨-, he⟩ := ih _ _ hargs'
          cases he
      | headed _ hargs' _ =>
          obtain ⟨-, he⟩ := ih _ _ hargs'
          cases he
  | _, _, _, _, _, _, _, _, .curried hargs hall, h' => by
      have ih := fun n out' => @SubstitutesAll.unique _ _ _ _ _ n _ out' hargs
      have ihall := fun n out' => @AppliesAll.unique _ _ _ _ n _ out' hall
      cases h' with
      | blocked hargs' =>
          obtain ⟨-, he⟩ := ih _ _ hargs'
          cases he
      | curried hargs' hall' =>
          obtain ⟨rfl, he⟩ := ih _ _ hargs'
          cases he
          obtain ⟨rfl, rfl⟩ := ihall _ _ hall'
          exact ⟨rfl, rfl⟩
      | headed hhead _ _ => exact absurd rfl hhead
  | _, _, _, _, _, _, _, _, .headed hhead hargs hh, h' => by
      have ih := fun n out' => @SubstitutesAll.unique _ _ _ _ _ n _ out' hargs
      have ihhead := fun n out' => @Substitutes.unique _ _ _ _ _ n _ out' hh
      cases h' with
      | blocked hargs' =>
          obtain ⟨-, he⟩ := ih _ _ hargs'
          cases he
      | curried _ _ => exact absurd rfl hhead
      | headed _ hargs' hh' =>
          obtain ⟨rfl, he⟩ := ih _ _ hargs'
          cases he
          obtain ⟨rfl, rfl⟩ := ihhead _ _ hh'
          exact ⟨rfl, rfl⟩
termination_by structural _ _ _ _ _ _ _ _ h => h
theorem SubstitutesAll.unique :
    ∀ {c v arg ts m n out out'}, SubstitutesAll c v arg ts m out →
      SubstitutesAll c v arg ts n out' → m = n ∧ out = out'
  | _, _, _, _, _, _, _, _, .done, h' => by
      cases h' with
      | done => exact ⟨rfl, rfl⟩
  | _, _, _, _, _, _, _, _, .fails ht, h' => by
      have ih := fun n out' => @Substitutes.unique _ _ _ _ _ n _ out' ht
      cases h' with
      | fails ht' =>
          obtain ⟨rfl, he⟩ := ih _ _ ht'
          exact ⟨rfl, by rw [Except.error.inj he]⟩
      | next ht' _ =>
          obtain ⟨-, he⟩ := ih _ _ ht'
          cases he
  | _, _, _, _, _, _, _, _, .next ht hts, h' => by
      have ih := fun n out' => @Substitutes.unique _ _ _ _ _ n _ out' ht
      have ihts := fun n out' => @SubstitutesAll.unique _ _ _ _ _ n _ out' hts
      cases h' with
      | fails ht' =>
          obtain ⟨-, he⟩ := ih _ _ ht'
          cases he
      | next ht' hts' =>
          obtain ⟨rfl, he⟩ := ih _ _ ht'
          cases he
          obtain ⟨rfl, rfl⟩ := ihts _ _ hts'
          exact ⟨rfl, rfl⟩
termination_by structural _ _ _ _ _ _ _ _ h => h
end

/-- Composition has one run only. -/
theorem Composes.unique {f a : Form} {m n : Nat} {out out' : Except Error Form}
    (h : Composes f a m out) (h' : Composes f a n out') :
    m = n ∧ out = out' := by
  cases h with
  | refused hf =>
      cases h' <;> simp_all [Term.isLambda]
  | untyped hf hinner =>
      cases h' <;> simp_all [Term.isLambda]
  | unmoved hf hinner houter =>
      cases h' <;> simp_all [Term.isLambda]
  | applies hf hinner houter happly =>
      cases h' with
      | applies hf' hinner' houter' happly' =>
          rw [hf] at hf'
          cases hf'
          rw [hinner] at hinner'
          cases hinner'
          rw [houter] at houter'
          cases houter'
          obtain ⟨rfl, rfl⟩ := happly.unique happly'
          exact ⟨rfl, rfl⟩
      | _ => simp_all [Term.isLambda]

-- ============================================================ main theorem

/-- No pair of forms makes reduction run for ever: an application and a
composition make a definite number of calls and end, with a form or with
an error, in the outcome that `apply` and `compose` give. -/
theorem application_and_composition_halt (f a : Form) :
    (∃ n, ∀ m out, Applies f a m out ↔ m = n ∧ out = (apply f a).result)
      ∧ ∃ n, ∀ m out,
          Composes f a m out ↔ m = n ∧ out = (compose f a).result := by
  obtain ⟨n, hn⟩ := exists_applies f a
  obtain ⟨k, hk⟩ := exists_composes f a
  refine ⟨⟨n, fun m out => ⟨fun h => h.unique hn, ?_⟩⟩,
    ⟨k, fun m out => ⟨fun h => h.unique hk, ?_⟩⟩⟩
  · intro h
    obtain ⟨rfl, rfl⟩ := h
    exact hn
  · intro h
    obtain ⟨rfl, rfl⟩ := h
    exact hk

end Form

end LogicalForm
