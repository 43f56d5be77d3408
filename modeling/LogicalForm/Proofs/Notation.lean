/-
Which results of reduction can be read back. The display of a form is
read as the term of the form unless an application in it opens with a
word that makes its group a lambda or a binder. Reading never builds such
an application, and renumbering never does. Application does, and only in
one way: it puts an atom at the head of an application, and the atom is
one of those words, which then has to be registered as a symbol
(`display_reads_back_iff`).

So a session whose contexts leave these words alone stays inside the
notation. `registered_binder_reads_as_other_tree` is a session that does
not: a symbol under the name of a binder is applied to a variable.
-/
import LogicalForm.Context.Signature
import LogicalForm.Proofs.HeadVariable
import LogicalForm.Proofs.Reached

namespace LogicalForm

-- ======================================================== reserved words

/-- The context registers no word that opens a lambda or a binder. -/
def Context.NoOpeners (c : Context) : Prop :=
  ∀ name type, c.symbol? name = some type →
    isLambdaWord name.toList = false ∧ Builtin.binderOfWord? name.toList = none

instance : DecidablePred Context.NoOpeners := fun c =>
  decidable_of_iff
    (∀ e ∈ c.symbols.entries, isLambdaWord e.1.toList = false
      ∧ Builtin.binderOfWord? e.1.toList = none)
    ⟨fun h name type hname => h (name, type) (Table.mem_entries_iff.2 hname),
      fun h e he => h e.1 e.2 (Table.mem_entries_iff.1 he)⟩

/-- A word that opens a lambda states no type as a constant. -/
theorem Atom.constant_of_isLambdaWord {text : String}
    (h : isLambdaWord text.toList = true) :
    (constant text).result = .ok (.const text none) := by
  have hsuffix : suffix? text.toList = none := by
    simp only [isLambdaWord, Bool.or_eq_true, decide_eq_true_eq] at h
    rcases h with (h | h) | h <;> rw [h] <;> rfl
  rw [constant, hsuffix]
  rfl

/-- Where no opener is registered, an atom that the context types opens
neither a lambda nor a binder. -/
theorem Context.NoOpeners.applies {c : Context} (hc : c.NoOpeners)
    {a : Atom} (ha : a.Spelled) {type : Ty}
    (htyped : c.inferAtom a = .ok type) : a.Applies := by
  cases a with
  | var v => rfl
  | builtin b =>
      have hbinder := (hc _ _ (inferAtom_builtin_eq_ok.1 htyped)).2
      rw [Builtin.binderOfWord?, String.ofList_toList, Builtin.ofName?_name]
        at hbinder
      simpa [Atom.Applies, Term.opensBinding] using hbinder
  | const text stated =>
      cases hlambda : isLambdaWord text.toList with
      | false => exact hlambda
      | true =>
          -- it states no type, so the context has one for it
          have hconst := Atom.constant_of_isLambdaWord hlambda
          rw [ha.2.2.2] at hconst
          cases hconst
          have htype := inferAtom_const_eq_ok.1 htyped
          rw [Option.or_none] at htype
          exact (hc _ _ htype).1

namespace Form

-- ============================================================ invariants

/-- Every form of a session is spelled from words that texts have. -/
theorem stable_spelled : Stable (fun _ => True) (Term.spelled fun _ => True)
    where
  merge _ _ _ _ := trivial
  eraseVar _ _ _ := trivial
  moved _ _ _ _ := trivial
  register _ _ _ _ := trivial
  atom_var _ := trivial
  head_var _ := trivial
  head_typed _ _ _ _ _ _ := trivial
  readable _ h := (Term.spelled_iff.1 (Term.readable_iff.1 h).1).1

/-- Where no opener is registered, none comes to stand at a head. -/
theorem stable_applies :
    Stable Context.NoOpeners (Term.spelled Atom.Applies) where
  merge c d hc hd name type h := by
    rw [Context.symbol?_merge, Option.or_eq_some_iff] at h
    rcases h with h | ⟨-, h⟩
    · exact hc name type h
    · exact hd name type h
  eraseVar _ _ hc := hc
  moved _ _ _ hc := hc
  register _ _ hc _ := hc
  atom_var _ := trivial
  head_var _ := rfl
  head_typed _ _ _ hc ha htyped := hc.applies ha htyped
  readable _ h := (Term.readable_iff.1 h).1

/-- The terms of the forms that are reached have the nodes of terms that can
be read. -/
theorem Reached.spelled {given : Context → Prop} {r : Form}
    (h : Reached given r) : r.term.Shaped (Term.spelled fun _ => True) :=
  (h.meets stable_spelled fun _ _ => trivial).term

/-- Only an application that opens a lambda or a binder keeps a reached
form from being readable. -/
theorem Reached.readable_iff {given : Context → Prop} {r : Form}
    (h : Reached given r) :
    r.term.Readable ↔ ∀ head args, .app head args ∈ r.term.subterms →
      head.opensBinding = false := by
  rw [Term.readable_iff, and_iff_left r.index_lt, Term.spelled_iff,
    and_iff_right h.spelled]
  simp only [Term.opensBinding_eq_false_iff]

-- ============================================================ main result

/-- Either display of a form that is reached is read as the term of the
form exactly if no application in it opens with the name of a binder or a
word for lambda. That is so for every form that is reached where no
context registers one of these words. -/
theorem display_reads_back_iff {given : Context → Prop} {r : Form}
    (h : Reached given r) :
    (∀ m, (Term.parse (r.render m)).result = .ok r.term
        ↔ ∀ head args, .app head args ∈ r.term.subterms →
          head.opensBinding = false)
      ∧ ((∀ c, given c → c.NoOpeners) →
          ∀ m, (Term.parse (r.render m)).result = .ok r.term) := by
  refine ⟨fun m => ?_, fun hgiven m => ?_⟩
  · rw [← h.readable_iff]
    exact ⟨Term.readable_of_parse, fun hr => Term.parse_render_of_readable hr m⟩
  · have hshaped := (h.meets stable_applies hgiven).term
    exact Term.parse_render_of_readable
      (Term.readable_iff.2 ⟨hshaped, r.index_lt⟩) m

/-- A registered built-in that binds nothing comes to stand at a head, an
abstraction is applied to the variable of a binder, and a binder and the
free variable of the argument share an index in the end. -/
theorem reduced_connective_reads_back :
    ∃ c, Context.ofSignature "and <t,<t,t>>\n$2 e" = .ok c
      ∧ ∃ f, (parse c ("(lambda $0 <t,<t,t>> (lambda $1 <e,t> "
            ++ "(($0) ($1 j:e) (exists $2 ($1 $2)))))")).result = .ok f
      ∧ ∃ a, (parse c "and").result = .ok a
      ∧ ∃ b, (parse c "(λ $3 e (loves:<e,<e,t>> $3 $2))").result = .ok b
      ∧ ∃ g, (apply f a).result = .ok g
      ∧ ∃ r, (apply g b).result = .ok r
      ∧ r.render .letter = "(and (loves:<e,<e,t>> j:e $2) "
          ++ "(exists $2 (loves:<e,<e,t>> $2 $2)))"
      ∧ ∀ m, (Term.parse (r.render m)).result = .ok r.term := by
  have hrun : ∃ c, Context.ofSignature "and <t,<t,t>>\n$2 e" = .ok c
      ∧ c.NoOpeners
      ∧ ∃ f, (parse c ("(lambda $0 <t,<t,t>> (lambda $1 <e,t> "
            ++ "(($0) ($1 j:e) (exists $2 ($1 $2)))))")).result = .ok f
      ∧ ∃ a, (parse c "and").result = .ok a
      ∧ ∃ b, (parse c "(λ $3 e (loves:<e,<e,t>> $3 $2))").result = .ok b
      ∧ ∃ g, (apply f a).result = .ok g
      ∧ ∃ r, (apply g b).result = .ok r
      ∧ r.render .letter = "(and (loves:<e,<e,t>> j:e $2) "
          ++ "(exists $2 (loves:<e,<e,t>> $2 $2)))" := by
    decide +kernel
  obtain ⟨c, hc, hopeners, f, hf, a, ha, b, hb, g, hg, r, hr, hdisplay⟩ := hrun
  have hreached : Reached (· = c) r :=
    .applied (.applied (.read rfl hf) (.read rfl ha) hg) (.read rfl hb) hr
  exact ⟨c, hc, f, hf, a, ha, b, hb, g, hg, r, hr, hdisplay,
    (display_reads_back_iff hreached).2 fun d hd => hd ▸ hopeners⟩

/-- What a symbol under the name of a binder is applied to becomes the
variable that the binder binds. -/
theorem registered_binder_reads_as_other_tree :
    ∃ c, Context.ofSignature "exists <e,t>\n$3 e" = .ok c
      ∧ ∃ f, (parse c "exists").result = .ok f
      ∧ ∃ a, (parse c "$3").result = .ok a
      ∧ ∃ r, (apply f a).result = .ok r ∧ Reached (· = c) r
      ∧ r.render .word = "(exists $3)"
      ∧ ∃ t, (Term.parse (r.render .word)).result = .ok t ∧ t ≠ r.term := by
  have hrun : ∃ c, Context.ofSignature "exists <e,t>\n$3 e" = .ok c
      ∧ ∃ f, (parse c "exists").result = .ok f
      ∧ ∃ a, (parse c "$3").result = .ok a
      ∧ ∃ r, (apply f a).result = .ok r
      ∧ r.render .word = "(exists $3)"
      ∧ ∃ t, (Term.parse (r.render .word)).result = .ok t ∧ t ≠ r.term := by
    decide +kernel
  obtain ⟨c, hc, f, hf, a, ha, r, hr, hdisplay, hread⟩ := hrun
  exact ⟨c, hc, f, hf, a, ha, r, hr, .applied (.read rfl hf) (.read rfl ha) hr,
    hdisplay, hread⟩

end Form

end LogicalForm
