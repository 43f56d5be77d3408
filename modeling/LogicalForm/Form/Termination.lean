/-
Why application ends. Inside the step for an abstraction over a variable
of type `T`, the argument has type `T`, and the forms that are applied
are the argument and what comes of applying it. The lambdas at the spine
of a form of type `T` state types smaller than `T`
(`Form.spineBelow_term`), and application adds no larger one to a spine
(`Form.Keeps`). So the applications inside a step are of functions whose
spine is strictly below the one outside, and the depth of the recursion
is bounded by the size of the type of the function.

Main statements: once `n` reaches that size, `applyWithin last n` is
application whatever `last` is (`Form.applyWithin_eq_apply`), and
application is its own step (`Form.apply_eq`).
-/
import LogicalForm.Form.Reduction

namespace LogicalForm

-- ============================================================ the spine

namespace Term

/-- Every lambda at the spine of the term, before the first shape of
another kind, states a type of a size below `n`. -/
def SpineBelow (n : Nat) : Term → Prop
  | .lambda _ type body => type.size < n ∧ body.SpineBelow n
  | _ => True

/-- A bound on the spine may be raised. -/
theorem SpineBelow.mono {m n : Nat} (h : m ≤ n) {t : Term}
    (ht : t.SpineBelow m) : t.SpineBelow n := by
  induction t with
  | lambda v type body ih =>
    obtain ⟨htype, hbody⟩ := ht
    exact ⟨Nat.lt_of_lt_of_le htype h, ih hbody⟩
  | atom a => trivial
  | binder op v args => trivial
  | app head args => trivial

theorem SpineBelow.min {m n : Nat} {t : Term} (hm : t.SpineBelow m)
    (hn : t.SpineBelow n) : t.SpineBelow (min m n) := by
  rcases Nat.le_total m n with h | h
  · rwa [Nat.min_eq_left h]
  · rwa [Nat.min_eq_right h]

/-- The spine of a term lies below the type of the term. -/
theorem spineBelow_of_infer {c : Context} {t : Term} {type : Ty}
    (h : c.infer t = .ok type) : t.SpineBelow type.size := by
  induction t generalizing type with
  | lambda v declared body ih =>
    obtain ⟨codomain, hbody, rfl⟩ := Context.infer_lambda_eq_ok h
    have hle : codomain.size ≤ (Ty.func declared codomain).size := by
      simp only [Ty.size]
      omega
    refine ⟨?_, (ih hbody).mono hle⟩
    simp only [Ty.size]
    omega
  | atom a => trivial
  | binder op v args => trivial
  | app head args => trivial

end Term

namespace Form

/-- The type of a form bounds the lambdas at the spine of its term. -/
theorem spineBelow_term (f : Form) : f.term.SpineBelow f.type.size :=
  Term.spineBelow_of_infer f.typed

-- ==================================================== spines of results

/-- Application keeps the spine of a function below `n`. -/
def Keeps (apply : Application) (n : Nat) : Prop :=
  ∀ f a r, f.term.SpineBelow n → (apply f a).result = .ok r →
    r.term.SpineBelow n

/-- Two applications agree on functions whose spine lies below `n`. -/
def AgreeBelow (n : Nat) (apply apply' : Application) : Prop :=
  ∀ f a, f.term.SpineBelow n → apply f a = apply' f a

section

variable {apply apply' : Application}

/-- A run over several arguments keeps the bound that each application
keeps. -/
theorem Keeps.applyAll {n : Nat} (hkeep : Keeps apply n) {c : Context}
    {ts : List Term} {f r : Form} (hf : f.term.SpineBelow n)
    (h : (applyAll apply c f ts).result = .ok r) : r.term.SpineBelow n := by
  induction ts generalizing f with
  | nil =>
    cases h
    exact hf
  | cons t ts ih =>
    obtain ⟨a, -, h⟩ := Traced.result_bind_eq_ok h
    obtain ⟨g, hg, h⟩ := Traced.result_bind_eq_ok h
    exact ih (hkeep f a g hf hg) h

/-- Substitution of a form whose spine lies low enough keeps the spine of
a term. -/
theorem Keeps.substitute {m n : Nat} (hkeep : Keeps apply m) (hmn : m ≤ n)
    {c : Context} {v : Var} {arg : Form} (harg : arg.term.SpineBelow m)
    {t r : Term} (ht : t.SpineBelow n)
    (h : (substitute apply c v arg t).result = .ok r) : r.SpineBelow n := by
  induction t generalizing r with
  | atom a =>
    cases h
    split
    · exact harg.mono hmn
    · trivial
  | lambda w type body ih =>
    obtain ⟨htype, hbody⟩ := ht
    rw [Form.substitute] at h
    split at h
    · cases h
      exact ⟨htype, hbody⟩
    · obtain ⟨body', hb, h⟩ := Traced.result_bind_eq_ok h
      cases h
      exact ⟨htype, ih hbody hb⟩
  | binder op w args =>
    rw [Form.substitute] at h
    obtain ⟨args', -, h⟩ := Traced.result_bind_eq_ok h
    cases h
    trivial
  | app head args =>
    rw [Form.substitute] at h
    obtain ⟨args', -, h⟩ := Traced.result_bind_eq_ok h
    split at h
    · obtain ⟨g, hg, h⟩ := Traced.result_bind_eq_ok h
      cases h
      exact (hkeep.applyAll harg hg).mono hmn
    · obtain ⟨head', -, h⟩ := Traced.result_bind_eq_ok h
      cases h
      trivial

/-- A step keeps spines below `n` when the applications inside it keep
those below every smaller bound. -/
theorem keeps_applyStep {n : Nat}
    (hkeep : ∀ m, 0 < m → m < n → Keeps apply m) :
    Keeps (applyStep apply) n := by
  intro f a r hf h
  obtain ⟨arg, -, h⟩ := Traced.result_bind_eq_ok h
  obtain ⟨-, -, h⟩ := Traced.result_bind_eq_ok h
  split at h
  · rename_i v type body hterm
    rw [hterm] at hf
    obtain ⟨htype, hbody⟩ := hf
    split at h
    · rename_i harg
      obtain ⟨t, ht, h⟩ := Traced.result_bind_eq_ok h
      rw [(result_ofTerm_eq_ok h).1]
      exact (hkeep _ type.size_pos htype).substitute (Nat.le_of_lt htype)
        (harg ▸ arg.spineBelow_term) hbody ht
    · cases h
  · cases h
  · rw [(result_ofTerm_eq_ok h).1]
    trivial
  · rw [(result_ofTerm_eq_ok h).1]
    trivial

-- ================================================== agreement of results

/-- Two ways to apply that agree below a bound agree on a run over several
arguments. -/
theorem AgreeBelow.applyAll {n : Nat} (hagree : AgreeBelow n apply apply')
    (hkeep : Keeps apply n) (c : Context) (ts : List Term) {f : Form}
    (hf : f.term.SpineBelow n) :
    applyAll apply c f ts = applyAll apply' c f ts := by
  induction ts generalizing f with
  | nil => rfl
  | cons t ts ih =>
    refine Traced.bind_congr fun a _ => ?_
    rw [← hagree f a hf]
    exact Traced.bind_congr fun g hg => ih (hkeep f a g hf hg)

/-- Two ways to apply that agree below a bound agree in substitution. -/
theorem AgreeBelow.substitute {n : Nat} (hagree : AgreeBelow n apply apply')
    (hkeep : Keeps apply n) (c : Context) (v : Var) {arg : Form}
    (harg : arg.term.SpineBelow n) (t : Term) :
    substitute apply c v arg t = substitute apply' c v arg t := by
  have all : ∀ ts : List Term,
      (∀ t ∈ ts, Form.substitute apply c v arg t
        = Form.substitute apply' c v arg t) →
      substituteAll apply c v arg ts = substituteAll apply' c v arg ts := by
    intro ts
    induction ts with
    | nil =>
      intro _
      rfl
    | cons t ts ih =>
      intro h
      rw [substituteAll, substituteAll, h t (List.mem_cons_self ..),
        ih fun u hu => h u (List.mem_cons_of_mem _ hu)]
  induction t with
  | atom a => rfl
  | lambda w type body ih => rw [Form.substitute, Form.substitute, ih]
  | binder op w args ih => rw [Form.substitute, Form.substitute, all args ih]
  | app head args ihHead ihArgs =>
    rw [Form.substitute, Form.substitute, all args ihArgs, ihHead]
    refine Traced.bind_congr fun args' _ => ?_
    rw [hagree.applyAll hkeep c args' harg]

/-- Steps agree on a function when the applications inside them agree on
functions of a lower spine. -/
theorem applyStep_congr {n : Nat}
    (hkeep : ∀ m, 0 < m → m < n → Keeps apply m)
    (hagree : ∀ m, 0 < m → m < n → AgreeBelow m apply apply') {f : Form}
    (hf : f.term.SpineBelow n) (a : Form) :
    applyStep apply f a = applyStep apply' f a := by
  refine Traced.bind_congr fun arg _ => Traced.bind_congr fun _ _ => ?_
  split
  · rename_i v type body hterm
    rw [hterm] at hf
    split
    · rename_i harg
      rw [(hagree _ type.size_pos hf.1).substitute (hkeep _ type.size_pos hf.1)
        f.context v (harg ▸ arg.spineBelow_term) body]
    · rfl
  · rfl
  · rfl
  · rfl

end

-- ========================================================== unfolding

/-- However deep application is unfolded, it keeps the bound on the spine.
-/
theorem keeps_applyWithin (last : Application) {k n : Nat} (hn : 0 < n)
    (hk : n ≤ k) : Keeps (applyWithin last k) n := by
  induction k generalizing n with
  | zero => omega
  | succ k ih => exact keeps_applyStep fun m hm hmn => ih hm (by omega)

/-- Unfolded far enough, application does not depend on how far, nor on
what stands below. -/
theorem applyWithin_congr {last last' : Application} {k k' n : Nat}
    (hn : 0 < n) (hk : n ≤ k) (hk' : n ≤ k') :
    AgreeBelow n (applyWithin last k) (applyWithin last' k') := by
  induction k generalizing k' n with
  | zero => omega
  | succ k ih =>
    cases k' with
    | zero => omega
    | succ k' =>
      intro f a hf
      exact applyStep_congr
        (fun m hm hmn => keeps_applyWithin last hm (by omega))
        (fun m hm hmn => ih hm (by omega) (by omega)) hf a

/-- Unfolding application as deep as the type of the function is large
reaches all of it. -/
theorem applyWithin_eq_apply (last : Application) {k : Nat} {f : Form}
    (hk : f.type.size ≤ k) (a : Form) : applyWithin last k f a = apply f a :=
  applyWithin_congr f.type.size_pos hk (Nat.le_refl _) f a f.spineBelow_term

/-- Application is its own step. -/
theorem apply_eq (f a : Form) : apply f a = applyStep apply f a := by
  have hunfold : apply f a = applyStep (applyWithin refuse f.type.size) f a :=
    (applyWithin_eq_apply refuse (Nat.le_succ _) a).symm
  rw [hunfold]
  refine applyStep_congr
    (fun m hm hmn => keeps_applyWithin refuse hm (Nat.le_of_lt hmn)) ?_
    f.spineBelow_term a
  intro m hm hmn g b hg
  have hpos : 0 < min m g.type.size := Nat.lt_min.2 ⟨hm, g.type.size_pos⟩
  exact applyWithin_congr hpos
    (Nat.le_trans (Nat.min_le_left ..) (Nat.le_of_lt hmn)) (Nat.min_le_right ..)
    g b (hg.min g.spineBelow_term)

end Form

end LogicalForm
