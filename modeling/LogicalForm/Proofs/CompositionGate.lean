/-
What stands before a composition. The second form is applied to the body
of the first, and the type of the body decides whether it may: an
abstraction over another type refuses it, a form headed by a binder takes
no argument at all. Nothing else comes in between but an index that would
pass the largest one.

# Why nothing else comes in between

- The body is typed again by itself, where its parameter has no binder any
  more. It keeps its type all the same: only its head variable is asked
  for, and the context of an abstraction knows that one
  (`exists_body`).
- The second form is moved, and inside the application the body is moved
  once more, past the second form at its new place. A move keeps the type
  and the shape of what moves (`type_moved`), and only an index can be
  missing (`overflow_of_moved`).

The relations `Composes` and `Applies` list the ways in which a run can
end, so each refusal is read off their rules.
-/
import LogicalForm.Proofs.Halting
import LogicalForm.Proofs.Relocation
import LogicalForm.Proofs.TypePreservation

namespace LogicalForm

namespace Form

variable {f g a arg inner : Form} {v : Var} {type : Ty} {body : Term}

-- ================================================================ moves

/-- Moving an argument leaves its type as it is. -/
theorem type_moved (h : (moved f a).result = .ok arg) : arg.type = a.type :=
  (renumber_relocates (keepsApart_of_le (Nat.le_max_right ..)) h).2.2

/-- The move of an argument has one way to fail: a variable would pass the
largest index. -/
theorem overflow_of_moved {e : Error} (h : (moved f a).result = .error e) :
    ∃ x n, e = .variableOverflow x n :=
  overflow_of_renumber (keepsApart_of_le (Nat.le_max_right ..)) h

-- ============================================================= the body

/-- The type of an abstraction is built from the type that it states and
that of its body, which is known. -/
theorem exists_type_body (hf : f.term = .lambda v type body) :
    ∃ κ, f.context.infer body = .ok κ ∧ κ ≠ .unknown
      ∧ f.type = .func type κ := by
  have htyped := f.typed
  rw [hf] at htyped
  obtain ⟨κ, -, htype⟩ := Context.infer_lambda_eq_ok htyped
  rw [htype] at htyped
  obtain ⟨-, hbody, hκ⟩ := Context.ne_unknown_of_infer_lambda htyped
  exact ⟨κ, hbody, hκ, htype⟩

/-- The body of an abstraction is a form of its own, with the type that it
has in the abstraction. -/
theorem exists_body (hf : f.term = .lambda v type body) :
    ∃ inner, (ofTerm f.context body).result = .ok inner ∧ inner.term = body
      ∧ f.type = .func type inner.type := by
  obtain ⟨κ, hbody, hκ, htype⟩ := exists_type_body hf
  have hinfer : (f.context.register body).infer body = .ok κ := by
    rw [← hbody]
    refine Context.infer_congr rfl fun w hw => ?_
    obtain ⟨σ, hσ⟩ := Context.known?_headVar hbody hκ hw
    rw [var?_register_of_known? (Term.mem_vars_of_headVar? hw) hσ,
      (Context.known?_eq_some.1 hσ).1]
  have hrange : body.freshIndex ≤ Var.maxIndex := by
    have hindex := f.index_lt
    rw [hf] at hindex
    exact Term.freshIndex_le_iff.2 (Term.forall_mem_vars_lambda.1 hindex).2
  have hinner := result_ofTerm_of_infer hinfer
  rw [dif_pos hrange] at hinner
  exact ⟨_, hinner, rfl, htype⟩

-- ============================================================= refusals

/-- No index is left for what the run would have to move. -/
def Overflows (x : Traced Form) : Prop :=
  ∃ w n, x.result = .error (.variableOverflow w n)

/-- An abstraction refuses a form of another type than it states. -/
theorem apply_of_ne_type (hf : f.term = .lambda v type body)
    (hne : type ≠ a.type) :
    Overflows (apply f a) ∨ (apply f a).result
      = .error (.typeMismatch type a.type f.term a.term) := by
  obtain ⟨n, hrun⟩ := exists_applies f a
  unfold Overflows
  generalize (apply f a).result = out at hrun ⊢
  cases hrun with
  | unmoved hmoved =>
      obtain ⟨x, n, rfl⟩ := overflow_of_moved hmoved
      exact .inl ⟨x, n, rfl⟩
  | mismatch harg hterm _ =>
      cases hf.symm.trans hterm
      rw [type_moved harg]
      exact .inr rfl
  | reduces harg hterm htype _ =>
      cases hf.symm.trans hterm
      exact absurd (htype.symm.trans (type_moved harg)) hne
  | stuck _ hterm => cases hf.symm.trans hterm
  | wraps _ hlambda _ =>
      rw [hf] at hlambda
      cases hlambda

/-- A form headed by a binder refuses every argument. -/
theorem apply_of_binder {op : Builtin} {args : List Term}
    (hf : f.term = .binder op v args) :
    Overflows (apply f a)
      ∨ (apply f a).result = .error (.notApplicable f.term) := by
  obtain ⟨n, hrun⟩ := exists_applies f a
  unfold Overflows
  generalize (apply f a).result = out at hrun ⊢
  cases hrun with
  | unmoved hmoved =>
      obtain ⟨x, n, rfl⟩ := overflow_of_moved hmoved
      exact .inl ⟨x, n, rfl⟩
  | mismatch _ hterm _ => cases hf.symm.trans hterm
  | reduces _ hterm _ _ => cases hf.symm.trans hterm
  | stuck _ _ => exact .inr rfl
  | wraps _ _ hbinder => exact absurd hf (hbinder op v args)

/-- Composing with an abstraction comes to the application inside, unless
the second form cannot be moved. -/
theorem compose_comes_to_apply (hf : f.term = .lambda v type body)
    (hinner : (ofTerm f.context body).result = .ok inner) :
    Overflows (compose f g) ∨ ∃ outer, (moved f g).result = .ok outer
      ∧ (compose f g).result = (apply outer inner).result.bind fun s =>
          (ofTerm (f.context.merge s.context) (.lambda v type s.term)).result := by
  obtain ⟨n, hrun⟩ := exists_composes f g
  unfold Overflows
  generalize (compose f g).result = out at hrun ⊢
  cases hrun with
  | refused hlambda =>
      rw [hf] at hlambda
      cases hlambda
  | untyped hterm he =>
      cases hf.symm.trans hterm
      cases hinner.symm.trans he
  | unmoved _ _ hmoved =>
      obtain ⟨x, n, rfl⟩ := overflow_of_moved hmoved
      exact .inl ⟨x, n, rfl⟩
  | applies hterm hinner' houter happly =>
      cases hf.symm.trans hterm
      cases hinner.symm.trans hinner'
      obtain ⟨m, hend⟩ := exists_applies _ inner
      rw [(happly.unique hend).2]
      exact .inr ⟨_, houter, rfl⟩

/-- What the application inside is refused with, the composition is. -/
theorem compose_of_refusal (hf : f.term = .lambda v type body)
    (hinner : (ofTerm f.context body).result = .ok inner)
    {refusal : Form → Error}
    (happly : ∀ outer, (moved f g).result = .ok outer →
      Overflows (apply outer inner)
        ∨ (apply outer inner).result = .error (refusal outer)) :
    Overflows (compose f g) ∨ ∃ outer, (moved f g).result = .ok outer
      ∧ (compose f g).result = .error (refusal outer) := by
  rcases compose_comes_to_apply (g := g) hf hinner with
    hover | ⟨outer, houter, hcompose⟩
  · exact .inl hover
  · rcases happly outer houter with ⟨x, n, he⟩ | he
    · exact .inl ⟨x, n, by rw [hcompose, he]; rfl⟩
    · exact .inr ⟨outer, houter, by rw [hcompose, he]; rfl⟩

/-- What is no abstraction is not composed with anything. -/
theorem compose_of_not_lambda (hf : f.term.isLambda = false) :
    (compose f g).result = .error (.notALambda f.term) := by
  obtain ⟨n, hrun⟩ := exists_composes f g
  generalize (compose f g).result = out at hrun ⊢
  cases hrun with
  | refused _ => rfl
  | untyped hterm _ =>
      rw [hterm] at hf
      cases hf
  | unmoved hterm _ _ =>
      rw [hterm] at hf
      cases hf
  | applies hterm _ _ _ =>
      rw [hterm] at hf
      cases hf

/-- A composition is an abstraction over the variable of the first form,
with its domain. -/
theorem lambda_of_compose {r : Form} (hf : f.term = .lambda v type body)
    (hr : (compose f g).result = .ok r) :
    (∃ t, r.term = .lambda v type t) ∧ ∃ τ, r.type = .func type τ := by
  obtain ⟨_, _, _, _, _, s, hterm, -, -, -, hs⟩ := compose_steps hr
  cases hf.symm.trans hterm
  have hrterm : r.term = .lambda v type s.term := (result_ofTerm_eq_ok hs).1
  obtain ⟨τ, -, -, htype⟩ := exists_type_body hrterm
  exact ⟨⟨s.term, hrterm⟩, τ, htype⟩

-- ========================================================= main theorem

/-- Only an abstraction is composed, and its codomain decides: the body is
a form of that type, an abstraction over another type and a form headed by
a binder refuse it, unless an index is missing, and what comes out is an
abstraction over the same variable, with the domain of the first form. -/
theorem composition_is_gated (f g : Form) :
    (f.term.isLambda = false →
      (compose f g).result = .error (.notALambda f.term))
      ∧ ∀ v type body σ κ, f.term = .lambda v type body →
        f.type = .func σ κ →
        (∃ inner, (ofTerm f.context body).result = .ok inner
            ∧ inner.type = κ)
          ∧ (∀ w domain gbody, g.term = .lambda w domain gbody →
            domain ≠ κ → Overflows (compose f g)
              ∨ ∃ outer, (moved f g).result = .ok outer
                ∧ (compose f g).result
                  = .error (.typeMismatch domain κ outer.term body))
          ∧ (∀ op w args, g.term = .binder op w args →
            Overflows (compose f g)
              ∨ ∃ outer, (moved f g).result = .ok outer
                ∧ (compose f g).result = .error (.notApplicable outer.term))
          ∧ ∀ r, (compose f g).result = .ok r →
            (∃ t, r.term = .lambda v type t) ∧ ∃ τ, r.type = .func σ τ := by
  refine ⟨compose_of_not_lambda, fun v type body σ κ hf htype => ?_⟩
  obtain ⟨inner, hinner, rfl, hfunc⟩ := exists_body hf
  cases htype.symm.trans hfunc
  refine ⟨⟨inner, hinner, rfl⟩, fun w domain gbody hg hne => ?_,
    fun op w args hg => ?_, fun r hr => lambda_of_compose hf hr⟩
  · refine compose_of_refusal hf hinner fun outer houter => ?_
    have hmoved := term_moved houter
    rw [hg] at hmoved
    exact apply_of_ne_type hmoved hne
  · refine compose_of_refusal hf hinner fun outer houter => ?_
    have hmoved := term_moved houter
    rw [hg] at hmoved
    exact apply_of_binder hmoved

/-- A predicate of entities is composed with a predicate of entities, with
a form headed by a binder, with a function of truth values and, as the
second form, with what is no abstraction. -/
theorem predicate_gates_compositions :
    ∃ f, (parse .empty "(lambda $0 e (dog:t $0))").result = .ok f
      ∧ ∃ g₁, (parse .empty "(lambda $1 e (cat:t $1))").result = .ok g₁
      ∧ ∃ g₂, (parse .empty "(exists $1 (cat:t $1))").result = .ok g₂
      ∧ ∃ g₃, (parse .empty "(lambda $1 t (not $1))").result = .ok g₃
      ∧ (Overflows (compose f g₁) ∨ ∃ outer, (moved f g₁).result = .ok outer
        ∧ (compose f g₁).result = .error (.typeMismatch .entity .truth outer.term
            (.app (.atom (.const "dog:t" (some .truth))) [.ofVar ⟨0⟩])))
      ∧ (Overflows (compose f g₂) ∨ ∃ outer, (moved f g₂).result = .ok outer
        ∧ (compose f g₂).result = .error (.notApplicable outer.term))
      ∧ (∃ r, (compose f g₃).result = .ok r
        ∧ (∃ t, r.term = .lambda ⟨0⟩ .entity t)
        ∧ ∃ τ, r.type = .func .entity τ)
      ∧ (compose g₂ f).result = .error (.notALambda g₂.term) := by
  have hrun : ∃ f, (parse .empty "(lambda $0 e (dog:t $0))").result = .ok f
      ∧ ∃ g₁, (parse .empty "(lambda $1 e (cat:t $1))").result = .ok g₁
      ∧ ∃ g₂, (parse .empty "(exists $1 (cat:t $1))").result = .ok g₂
      ∧ ∃ g₃, (parse .empty "(lambda $1 t (not $1))").result = .ok g₃
      ∧ ∃ r, (compose f g₃).result = .ok r
      ∧ f.term = .lambda ⟨0⟩ .entity
          (.app (.atom (.const "dog:t" (some .truth))) [.ofVar ⟨0⟩])
      ∧ f.type = .func .entity .truth
      ∧ g₁.term = .lambda ⟨1⟩ .entity
          (.app (.atom (.const "cat:t" (some .truth))) [.ofVar ⟨1⟩])
      ∧ g₂.term = .binder .existential ⟨1⟩
          [.app (.atom (.const "cat:t" (some .truth))) [.ofVar ⟨1⟩]] := by
    decide +kernel
  obtain ⟨f, hf, g₁, hg₁, g₂, hg₂, g₃, hg₃, r, hr, hfterm, hftype, hterm₁,
    hterm₂⟩ := hrun
  have hgate := fun g =>
    (composition_is_gated f g).2 ⟨0⟩ .entity _ _ _ hfterm hftype
  refine ⟨f, hf, g₁, hg₁, g₂, hg₂, g₃, hg₃, ?_, ?_, ⟨r, hr, ?_⟩, ?_⟩
  · exact (hgate g₁).2.1 _ _ _ hterm₁ (by decide)
  · exact (hgate g₂).2.2.1 _ _ _ hterm₂
  · exact (hgate g₃).2.2.2 r hr
  · exact (composition_is_gated g₂ f).1 (by rw [hterm₂]; rfl)

end Form

end LogicalForm
