/-
What a form carries besides its term. Typing, reading, renumbering,
application and composition all end alike: some context types the term of
the result from scratch (`Built.exists_typing`). So one look at typing
tells what every form in use is like, whatever it was built from.

- Its context has an entry for each variable that occurs in the term, at
  a binding place or elsewhere, and for no other.
- Its fresh index is the successor of the largest index in the term, and
  still an index.
- Typing its term once more, in its own context, gives the same form. The
  first occurrence of a variable decides its type both times, and a
  variable that comes out unknown the first time is not known to the
  context the second time (`Context.register_register`).
-/
import LogicalForm.Proofs.Calls

namespace LogicalForm

-- =========================================================== fresh index

/-- The number is the successor of the largest index in the list, or 0
for the empty list. -/
def Var.Succeeds (n : Nat) (vs : List Var) : Prop :=
  (vs = [] ∧ n = 0) ∨ ∃ v ∈ vs, n = v.index + 1 ∧ ∀ w ∈ vs, w.index ≤ v.index

/-- The index above a list is the successor of the largest one in it. -/
theorem Var.succeeds_above (vs : List Var) : Var.Succeeds (Var.above vs) vs := by
  induction vs with
  | nil => exact .inl ⟨rfl, rfl⟩
  | cons v vs ih =>
      refine .inr ?_
      rw [above]
      rcases ih with ⟨rfl, hnone⟩ | ⟨w, hw, hnext, hmax⟩
      · refine ⟨v, List.mem_cons_self .., by omega, ?_⟩
        exact List.forall_mem_cons.2 ⟨Nat.le_refl _, List.forall_mem_nil _⟩
      · rcases Nat.le_total v.index w.index with hle | hle
        · exact ⟨w, List.mem_cons_of_mem _ hw, by omega,
            List.forall_mem_cons.2 ⟨hle, hmax⟩⟩
        · refine ⟨v, List.mem_cons_self .., by omega,
            List.forall_mem_cons.2 ⟨Nat.le_refl _, fun x hx => ?_⟩⟩
          exact Nat.le_trans (hmax x hx) hle

namespace Form

-- ============================================================== building

/-- The forms that the operations build, whatever they are given. -/
inductive Built : Form → Prop
  | typed {c : Context} {t : Term} {f : Form} :
      (ofTerm c t).result = .ok f → Built f
  | read {c : Context} {text : String} {f : Form} :
      (parse c text).result = .ok f → Built f
  | renumbered {g f : Form} {offset : Nat} :
      (g.renumber offset).result = .ok f → Built f
  | applied {g a f : Form} : (apply g a).result = .ok f → Built f
  | composed {g a f : Form} : (compose g a).result = .ok f → Built f

/-- Typing keeps the term. -/
theorem typing_of_ofTerm {c : Context} {t : Term} {f : Form}
    (h : (ofTerm c t).result = .ok f) : (ofTerm c f.term).result = .ok f := by
  rwa [(result_ofTerm_eq_ok h).1]

/-- A renumbered form is built from its own term. -/
theorem exists_typing_renumber {g f : Form} {offset : Nat}
    (h : (g.renumber offset).result = .ok f) :
    ∃ c, (ofTerm c f.term).result = .ok f := by
  obtain ⟨-, -, h⟩ := Traced.result_bind_eq_ok h
  split at h
  · cases h
  · obtain ⟨c, -, h⟩ := Traced.result_bind_eq_ok h
    exact ⟨c, typing_of_ofTerm h⟩

/-- The result of an application is built from its own term. -/
theorem exists_typing_apply {g a f : Form} (h : (apply g a).result = .ok f) :
    ∃ c, (ofTerm c f.term).result = .ok f := by
  obtain ⟨arg, -, ⟨v, type, body, t, -, -, -, h⟩ | ⟨-, h⟩⟩ := apply_eq_ok h
  · exact ⟨_, typing_of_ofTerm h⟩
  · exact ⟨_, typing_of_ofTerm h⟩

/-- The result of a composition is built from its own term. -/
theorem exists_typing_compose {g a f : Form}
    (h : (compose g a).result = .ok f) :
    ∃ c, (ofTerm c f.term).result = .ok f := by
  obtain ⟨_, _, _, _, _, s, -, -, -, -, h⟩ := compose_steps h
  exact ⟨_, typing_of_ofTerm h⟩

/-- Every operation ends by typing the term of its result. -/
theorem Built.exists_typing {f : Form} (h : Built f) :
    ∃ c, (ofTerm c f.term).result = .ok f := by
  cases h with
  | typed h => exact ⟨_, typing_of_ofTerm h⟩
  | read h =>
      obtain ⟨t, -, h⟩ := Traced.result_bind_eq_ok h
      exact ⟨_, typing_of_ofTerm h⟩
  | renumbered h => exact exists_typing_renumber h
  | applied h => exact exists_typing_apply h
  | composed h => exact exists_typing_compose h

-- ======================================================== representation

/-- What the context and the fresh index of a form have to do with its
term. -/
structure Represents (f : Form) : Prop where
  /-- The variables of the context are those of the term. -/
  keys : ∀ v, v ∈ f.context.vars.keys ↔ v ∈ f.term.vars
  /-- Every index lies below the largest possible one. -/
  below : ∀ v ∈ f.term.vars, v.index < Var.maxIndex
  /-- The fresh index follows the largest index of the term. -/
  next : Var.Succeeds f.freshIndex f.term.vars
  /-- The fresh variable does not occur. -/
  fresh : f.freshVar ∉ f.term.vars
  /-- Typed once more in its own context, the term gives the same form. -/
  retyped : (ofTerm f.context f.term).result = .ok f

/-- What typing a term gives represents it. -/
theorem represents_of_typing {c : Context} {f : Form}
    (h : (ofTerm c f.term).result = .ok f) : Represents f := by
  have hcontext : f.context = c.register f.term := (result_ofTerm_eq_ok h).2
  refine ⟨fun v => ?_, f.index_lt, Var.succeeds_above _,
    freshVar_not_mem_vars f, result_ofTerm_self f⟩
  rw [Table.mem_keys_iff, hcontext]
  exact Context.isSome_var?_register

/-- Every form that an operation builds has entries for exactly the
variables of its term, has as its fresh index the first one past them, and
is what typing its term in its own context gives. -/
theorem built_form_represents_its_term {f : Form} (h : Built f) :
    Represents f := by
  obtain ⟨c, h⟩ := h.exists_typing
  exact represents_of_typing h

/-- A nested application: the parameter is shadowed once, `$4` is of a type
that only the context knows, and the bound variables of the argument have
moved twice. -/
theorem nested_application_represents_its_term :
    ∃ f, (parse (Context.empty.insertVar ⟨4⟩ .count)
          ("(lambda $0 <e,t> (and ($0 (the $1 ($0 $1))) (> (n:i $4) 3:i) "
            ++ "(lambda $0 t $0)))")).result = .ok f
      ∧ ∃ a, (parse .empty
          "(lambda $2 e (exists $0 (r:t $0 $2)))").result = .ok a
      ∧ ∃ r, (apply f a).result = .ok r ∧ r.freshIndex = 14 ∧ Represents r := by
  have hrun : ∃ f, (parse (Context.empty.insertVar ⟨4⟩ .count)
          ("(lambda $0 <e,t> (and ($0 (the $1 ($0 $1))) (> (n:i $4) 3:i) "
            ++ "(lambda $0 t $0)))")).result = .ok f
      ∧ ∃ a, (parse .empty
          "(lambda $2 e (exists $0 (r:t $0 $2)))").result = .ok a
      ∧ ∃ r, (apply f a).result = .ok r ∧ r.freshIndex = 14 := by
    decide +kernel
  obtain ⟨f, hf, a, ha, r, hr, hnext⟩ := hrun
  exact ⟨f, hf, a, ha, r, hr, hnext,
    built_form_represents_its_term (.applied hr)⟩

end Form

end LogicalForm
