/-
Invariants of the forms that a session reaches. A session reads forms
under contexts that are given, and renumbers, applies and composes what
it has, in any order. Two kinds of facts survive all of that
(`Reached.meets`).

- Facts about contexts that taking out, moving and merging entries keeps.
- Facts about the nodes of a term, one by one: which atoms there are,
  what lambdas state, which built-ins bind, and which atoms stand at the
  head of an application (`Term.Shape`).

# Where heads come from

No step invents an atom, a lambda or a binder, so three of the four facts
about nodes pass through every step unseen. Heads are different: wrapping
makes the term of a function a head, and substitution may replace a head
by the term of any form on the way. But a form is well typed, so such a
head is an atom that a context types, and `Stable.head_typed` asks for no
more than that.
-/
import LogicalForm.Proofs.Renaming
import LogicalForm.Proofs.RoundTrip

namespace LogicalForm

namespace Term

-- ============================================================= subterms

mutual
/-- The term and all terms inside it, in the order of the display. -/
def subterms : Term → List Term
  | .atom a => [.atom a]
  | .lambda v type body => .lambda v type body :: subterms body
  | .binder op v args => .binder op v args :: subtermsAll args
  | .app head args => .app head args :: (subterms head ++ subtermsAll args)
/-- The subterms of a list of terms. -/
def subtermsAll : List Term → List Term
  | [] => []
  | t :: ts => subterms t ++ subtermsAll ts
end

theorem subtermsAll_eq_flatMap (ts : List Term) :
    subtermsAll ts = ts.flatMap subterms := by
  induction ts with
  | nil => rfl
  | cons t ts ih => rw [subtermsAll, ih, List.flatMap_cons]

/-- What holds of the subterms of a list holds of the subterms of each of
its terms. -/
theorem forall_mem_subtermsAll {P : Term → Prop} {ts : List Term} :
    (∀ s ∈ subtermsAll ts, P s) ↔ ∀ t ∈ ts, ∀ s ∈ t.subterms, P s := by
  rw [subtermsAll_eq_flatMap, List.forall_mem_flatMap]

-- ================================================================ shapes

/-- What the nodes of a term may be. -/
structure Shape where
  /-- The atoms, wherever they stand. -/
  atom : Atom → Prop
  /-- The types that lambdas state. -/
  type : Ty → Prop
  /-- The built-ins that bind a variable. -/
  binder : Builtin → Prop
  /-- The atoms that stand at the head of an application. -/
  head : Atom → Prop

/-- The term is of the shape at its root. -/
def Shape.Root (S : Shape) : Term → Prop
  | .atom a => S.atom a
  | .lambda _ type _ => S.type type
  | .binder op _ _ => S.binder op
  | .app head _ => ∀ a, head = .atom a → S.head a

/-- The term is of the shape at each of its nodes. -/
def Shaped (S : Shape) (t : Term) : Prop := ∀ s ∈ t.subterms, S.Root s

namespace Shaped

variable {S : Shape} {v : Var} {type : Ty} {op : Builtin} {head body : Term}
  {args : List Term}

theorem atom_iff {a : Atom} : (Term.atom a).Shaped S ↔ S.atom a := by
  rw [Shaped, subterms, List.forall_mem_singleton, Shape.Root]

theorem lambda_iff :
    (Term.lambda v type body).Shaped S ↔ S.type type ∧ body.Shaped S := by
  rw [Shaped, subterms, List.forall_mem_cons, Shape.Root, Shaped]

theorem binder_iff :
    (Term.binder op v args).Shaped S
      ↔ S.binder op ∧ ∀ t ∈ args, t.Shaped S := by
  rw [Shaped, subterms, List.forall_mem_cons, Shape.Root,
    forall_mem_subtermsAll]
  exact Iff.rfl

theorem app_iff :
    (Term.app head args).Shaped S
      ↔ (∀ a, head = .atom a → S.head a) ∧ head.Shaped S
        ∧ ∀ t ∈ args, t.Shaped S := by
  rw [Shaped, subterms, List.forall_mem_cons, List.forall_mem_append,
    Shape.Root, forall_mem_subtermsAll]
  exact Iff.rfl

/-- The type that a lambda states is of the shape, wherever its variable
is visited. -/
theorem of_lambda_visit {t : Term} (h : t.Shaped S) {o : Visit}
    (ho : o ∈ t.visits) {type : Ty} (hsite : o.site = .lambda type) :
    S.type type := by
  induction t with
  | atom a =>
      cases a with
      | var v =>
          rw [visits, List.mem_singleton] at ho
          subst ho
          cases hsite
      | builtin b => cases ho
      | const text stated => cases ho
  | lambda v declared body ih =>
      obtain ⟨hdeclared, hbody⟩ := lambda_iff.1 h
      rw [visits] at ho
      rcases List.mem_cons.1 ho with rfl | ho
      · cases hsite
        exact hdeclared
      · exact ih hbody ho
  | binder op v args ih =>
      rw [visits, visitsAll_eq_flatMap] at ho
      rcases List.mem_cons.1 ho with rfl | ho
      · cases hsite
      · obtain ⟨t, ht, ho⟩ := List.mem_flatMap.1 ho
        exact ih t ht ((binder_iff.1 h).2 t ht) ho
  | app head args ihHead ihArgs =>
      obtain ⟨-, hhead, hargs⟩ := app_iff.1 h
      rw [visits, visitsAll_eq_flatMap] at ho
      rcases List.mem_append.1 ho with ho | ho
      · exact ihHead hhead ho
      · obtain ⟨t, ht, ho⟩ := List.mem_flatMap.1 ho
        exact ihArgs t ht (hargs t ht) ho

end Shaped

/-- From the one term to the other a shape is kept. Where a term that was
no atom has become one, that atom may stand at a head. -/
def KeepsShape (S : Shape) (t u : Term) : Prop :=
  t.Shaped S →
    u.Shaped S ∧ (t.isAtom = false → ∀ a, u = .atom a → S.head a)

/-- A list whose terms keep the shape keeps it. -/
theorem shaped_of_forall₂ {S : Shape} {R : Term → Term → Prop}
    {ts us : List Term}
    (h : List.Forall₂ (fun t u => R t u ∧ KeepsShape S t u) ts us)
    (hts : ∀ t ∈ ts, t.Shaped S) : ∀ u ∈ us, u.Shaped S := by
  intro u hu
  obtain ⟨t, ht, -, hkeeps⟩ := exists_left_of_mem h hu
  exact (hkeeps (hts t ht)).1

end Term

-- ======================================================== readable terms

/-- What is read as an atom, the index of a variable left aside. -/
def Atom.Spelled : Atom → Prop
  | .const text stated => (Atom.const text stated).Readable
  | _ => True

/-- The nodes of the terms that can be read, with only such atoms at the
head of an application. -/
def Term.spelled (head : Atom → Prop) : Term.Shape where
  atom := Atom.Spelled
  type := Ty.Known
  binder op := op.isBinder = true
  head := head

/-- A group that opens with the atom is an application. -/
def Atom.Applies (a : Atom) : Prop := Term.opensBinding (.atom a) = false

namespace Term

/-- A group that opens with the term is an application unless the term is an
atom that opens a binding. -/
theorem opensBinding_eq_false_iff {t : Term} :
    t.opensBinding = false ↔ ∀ a, t = .atom a → a.Applies := by
  cases t with
  | atom a => simp [Atom.Applies]
  | lambda v type body => simp [opensBinding]
  | binder op v args => simp [opensBinding]
  | app head args => simp [opensBinding]

/-- Which atoms stand at a head is a matter of the applications alone. -/
theorem spelled_iff {head : Atom → Prop} {t : Term} :
    t.Shaped (spelled head) ↔ t.Shaped (spelled fun _ => True)
      ∧ ∀ f args, .app f args ∈ t.subterms → ∀ a, f = .atom a → head a := by
  constructor
  · intro h
    refine ⟨fun s hs => ?_, fun f args hmem => h _ hmem⟩
    have hroot := h s hs
    cases s with
    | app f args => exact fun _ _ => trivial
    | atom a => exact hroot
    | lambda v type body => exact hroot
    | binder op v args => exact hroot
  · rintro ⟨h, happ⟩ s hs
    have hroot := h s hs
    cases s with
    | app f args => exact happ f args hs
    | atom a => exact hroot
    | lambda v type body => exact hroot
    | binder op v args => exact hroot

/-- The readable terms, node by node. -/
theorem readable_iff {t : Term} :
    t.Readable ↔ t.Shaped (spelled Atom.Applies)
      ∧ ∀ v ∈ t.vars, v.index < Var.maxIndex := by
  constructor
  · intro h
    induction h with
    | @atom a ha =>
        cases a with
        | var v =>
            refine ⟨Shaped.atom_iff.2 trivial, fun w hw => ?_⟩
            cases mem_vars_atom.1 hw
            exact ha
        | builtin b =>
            exact ⟨Shaped.atom_iff.2 trivial, by simp [mem_vars_atom]⟩
        | const text stated =>
            exact ⟨Shaped.atom_iff.2 ha, by simp [mem_vars_atom]⟩
    | lambda hv htype _ ih =>
        exact ⟨Shaped.lambda_iff.2 ⟨htype, ih.1⟩,
          forall_mem_vars_lambda.2 ⟨hv, ih.2⟩⟩
    | binder hop hv _ ih =>
        exact ⟨Shaped.binder_iff.2 ⟨hop, fun t ht => (ih t ht).1⟩,
          forall_mem_vars_binder.2 ⟨hv, fun t ht => (ih t ht).2⟩⟩
    | app hopens _ _ ihHead ihArgs =>
        exact ⟨Shaped.app_iff.2 ⟨opensBinding_eq_false_iff.1 hopens, ihHead.1,
            fun t ht => (ihArgs t ht).1⟩,
          forall_mem_vars_app.2 ⟨ihHead.2, fun t ht => (ihArgs t ht).2⟩⟩
  · rintro ⟨h, hindex⟩
    induction t with
    | atom a =>
        refine .atom ?_
        cases a with
        | var v => exact hindex v (mem_vars_atom.2 rfl)
        | builtin b => trivial
        | const text stated => exact Shaped.atom_iff.1 h
    | lambda v type body ih =>
        obtain ⟨htype, hbody⟩ := Shaped.lambda_iff.1 h
        obtain ⟨hv, hindices⟩ := forall_mem_vars_lambda.1 hindex
        exact .lambda hv htype (ih hbody hindices)
    | binder op v args ih =>
        obtain ⟨hop, hargs⟩ := Shaped.binder_iff.1 h
        obtain ⟨hv, hindices⟩ := forall_mem_vars_binder.1 hindex
        exact .binder hop hv fun t ht => ih t ht (hargs t ht) (hindices t ht)
    | app head args ihHead ihArgs =>
        obtain ⟨hatom, hhead, hargs⟩ := Shaped.app_iff.1 h
        obtain ⟨hheadIndices, hindices⟩ := forall_mem_vars_app.1 hindex
        exact .app (opensBinding_eq_false_iff.2 hatom)
          (ihHead hhead hheadIndices)
          fun t ht => ihArgs t ht (hargs t ht) (hindices t ht)

end Term

-- ========================================================= stable facts

/-- What moves away from somewhere was there before. -/
theorem Context.exists_var?_of_moved {c : Context} {vs : List Var}
    {offset : Nat} {w : Var} {type : Ty}
    (h : (c.moved vs offset).var? w = some type) :
    ∃ v, c.var? v = some type := by
  by_cases harrival : ∃ v ∈ vs, v.shift offset = w ∧ c.var? v ≠ none
  · obtain ⟨v, hv, rfl, hsome⟩ := harrival
    obtain ⟨σ, hσ⟩ := Option.ne_none_iff_exists'.1 hsome
    rw [var?_moved_shift hv hσ] at h
    exact ⟨v, h ▸ hσ⟩
  · have hnone : ∀ v ∈ vs, v.shift offset = w → c.var? v = none :=
      fun v hv hw => by_contra fun hsome => harrival ⟨v, hv, hw, hsome⟩
    rw [var?_moved_of_no_arrival hnone] at h
    split at h
    · cases h
    · exact ⟨w, h⟩

/-- Facts about contexts and about the nodes of terms that no operation on
forms breaks. -/
structure Stable (C : Context → Prop) (S : Term.Shape) : Prop where
  merge : ∀ c d, C c → C d → C (c.merge d)
  eraseVar : ∀ c v, C c → C (c.eraseVar v)
  moved : ∀ c vs offset, C c → C (c.moved vs offset)
  register : ∀ c t, C c → t.Shaped S → C (c.register t)
  atom_var : ∀ v, S.atom (.var v)
  head_var : ∀ v, S.head (.var v)
  /-- An atom that a context types may become a head. -/
  head_typed : ∀ c a type, C c → S.atom a → c.inferAtom a = .ok type →
    S.head a
  /-- What can be read is of the shape. -/
  readable : ∀ t : Term, t.Readable → t.Shaped S

section

variable {C : Context → Prop} {S : Term.Shape}

/-- A change of variables keeps a shape. -/
theorem Stable.mapVars (hstable : Stable C S) (f : Var → Var) {t : Term}
    (h : t.Shaped S) : (t.mapVars f).Shaped S := by
  have hall {ts : List Term} (hts : ∀ t ∈ ts, (t.mapVars f).Shaped S) :
      ∀ u ∈ Term.mapVarsAll f ts, u.Shaped S := by
    rwa [Term.mapVarsAll_eq_map, List.forall_mem_map]
  induction t with
  | atom a =>
      cases a with
      | var v => exact Term.Shaped.atom_iff.2 (hstable.atom_var (f v))
      | builtin b => exact h
      | const text stated => exact h
  | lambda v type body ih =>
      obtain ⟨htype, hbody⟩ := Term.Shaped.lambda_iff.1 h
      exact Term.Shaped.lambda_iff.2 ⟨htype, ih hbody⟩
  | binder op v args ih =>
      obtain ⟨hop, hargs⟩ := Term.Shaped.binder_iff.1 h
      exact Term.Shaped.binder_iff.2
        ⟨hop, hall fun t ht => ih t ht (hargs t ht)⟩
  | app head args ihHead ihArgs =>
      obtain ⟨hatom, hhead, hargs⟩ := Term.Shaped.app_iff.1 h
      refine Term.Shaped.app_iff.2 ⟨fun b hb => ?_, ihHead hhead,
        hall fun t ht => ihArgs t ht (hargs t ht)⟩
      cases head with
      | atom a =>
          cases a with
          | var v =>
              cases hb
              exact hstable.head_var (f v)
          | builtin b => exact hatom _ hb
          | const text stated => exact hatom _ hb
      | lambda v type body => cases hb
      | binder op v args => cases hb
      | app head args => cases hb

namespace Form

/-- The context and the term of the form meet the facts. -/
structure Meets (C : Context → Prop) (S : Term.Shape) (f : Form) : Prop where
  context : C f.context
  term : f.term.Shaped S

/-- Applying the one form to the other keeps the facts. -/
def KeepsFacts (C : Context → Prop) (S : Term.Shape) (p : Form × Form) : Prop :=
  p.1.Meets C S → p.2.Meets C S →
    ∀ r, (apply p.1 p.2).result = .ok r → r.Meets C S

variable (hstable : Stable C S)

include hstable

/-- A form that is built meets what its context and its term meet. -/
theorem meets_of_ofTerm {c : Context} {t : Term} {f : Form} (hc : C c)
    (ht : t.Shaped S) (h : (ofTerm c t).result = .ok f) : f.Meets C S := by
  obtain ⟨hterm, hcontext⟩ := result_ofTerm_eq_ok h
  exact ⟨hcontext ▸ hstable.register c t hc ht, hterm ▸ ht⟩

/-- Renumbering keeps the facts. -/
theorem meets_renumber {a r : Form} {offset : Nat} (ha : a.Meets C S)
    (h : (a.renumber offset).result = .ok r) : r.Meets C S := by
  obtain ⟨hterm, hcontext⟩ := renumber_eq_ok h
  have hshaped : r.term.Shaped S := hterm ▸ hstable.mapVars _ ha.term
  refine ⟨?_, hshaped⟩
  rw [hcontext]
  exact hstable.register _ _ (hstable.moved _ _ _ ha.context) hshaped

/-- Where the term of a form is an atom, it may become a head. -/
theorem Meets.head {f : Form} (hf : f.Meets C S) {a : Atom}
    (ha : f.term = .atom a) : S.head a := by
  have hatom := hf.term
  have htyped := f.typed
  rw [ha] at hatom htyped
  exact hstable.head_typed _ a _ hf.context (Term.Shaped.atom_iff.1 hatom)
    htyped

-- ========================================================== applications

/-- Substitution keeps a shape, also where the term of a form comes to
stand at a head. -/
theorem keepsShape_of_substituted {c : Context} {v : Var} {arg : Form}
    (hc : C c) (harg : arg.Meets C S) {t u : Term}
    (h : Substituted (KeepsFacts C S) c v arg t u) : Term.KeepsShape S t u := by
  refine substitute_induct (P := Term.KeepsShape S) ?_ ?_ ?_ ?_ ?_ ?_ ?_ h
  · -- the variable itself
    intro _
    refine ⟨harg.term, fun hatom => ?_⟩
    cases hatom
  · -- another atom
    intro a _ ha
    refine ⟨ha, fun hatom => ?_⟩
    cases hatom
  · -- a lambda over the variable
    intro type body hlambda
    refine ⟨hlambda, fun _ a ha => ?_⟩
    cases ha
  · intro w type body body' _ _ ih hlambda
    obtain ⟨htype, hbody⟩ := Term.Shaped.lambda_iff.1 hlambda
    refine ⟨Term.Shaped.lambda_iff.2 ⟨htype, (ih hbody).1⟩, fun _ a ha => ?_⟩
    cases ha
  · intro op w args args' hargs hbinder
    obtain ⟨hop, hshaped⟩ := Term.Shaped.binder_iff.1 hbinder
    refine ⟨Term.Shaped.binder_iff.2
      ⟨hop, Term.shaped_of_forall₂ hargs hshaped⟩, fun _ a ha => ?_⟩
    cases ha
  · -- a curried use: what it reduces to is the term of a form
    intro args args' g hargs hcalls hg happ
    obtain ⟨-, -, hshaped⟩ := Term.Shaped.app_iff.1 happ
    have hmeets : g.Meets C S := by
      refine applyAll_keeps (fun p hp s hfirst hs => ?_) harg hg
      obtain ⟨u, hu, hsecond⟩ := exists_of_mem_callsAlong hp
      have hu : u.Shaped S := Term.shaped_of_forall₂ hargs hshaped u hu
      exact hcalls p hp hfirst (meets_of_ofTerm hstable hc hu hsecond) s hs
    exact ⟨hmeets.term, fun _ a ha => hmeets.head hstable ha⟩
  · intro head head' args args' hne hsub ih hargs happ
    obtain ⟨hatom, hhead, hshaped⟩ := Term.Shaped.app_iff.1 happ
    have hroot : ∀ b, head' = .atom b → S.head b := by
      intro b hb
      cases head with
      | atom a =>
          -- an atom other than the variable stays
          have hother : a ≠ .var v := fun hav => hne (congrArg Term.atom hav)
          have hrun := hsub.run
          rw [substitute, if_neg hother] at hrun
          cases hrun
          exact hatom b hb
      | lambda w type body => exact (ih hhead).2 rfl b hb
      | binder op w args => exact (ih hhead).2 rfl b hb
      | app head args => exact (ih hhead).2 rfl b hb
    have hargs' : ∀ u ∈ args', u.Shaped S :=
      Term.shaped_of_forall₂ hargs hshaped
    refine ⟨Term.Shaped.app_iff.2 ⟨hroot, (ih hhead).1, hargs'⟩,
      fun _ a ha => ?_⟩
    cases ha

/-- Every application keeps the facts, by induction on the calls that it
makes. -/
theorem keepsFacts (f a : Form) : KeepsFacts C S (f, a) := by
  refine apply_induct (P := fun f a => KeepsFacts C S (f, a)) ?_ f a
  intro f a ih hf ha r hr
  obtain ⟨arg, harg, hreduced | ⟨-, hr⟩⟩ := apply_eq_ok hr
  · obtain ⟨v, type, body, t, hterm, htype, hrun, hr⟩ := hreduced
    have hmoved : arg.Meets C S := meets_renumber hstable ha harg
    have hbody : body.Shaped S :=
      (Term.Shaped.lambda_iff.1 (hterm ▸ hf.term)).2
    have hsub : Substituted (KeepsFacts C S) f.context v arg body t :=
      ⟨hrun, fun p hp => ih p (calls_lambda hterm harg htype ▸ hp)⟩
    have ht : t.Shaped S :=
      (keepsShape_of_substituted hstable hf.context hmoved hsub hbody).1
    have hcontext : C ((f.context.eraseVar v).merge arg.context) :=
      hstable.merge _ _ (hstable.eraseVar _ _ hf.context) hmoved.context
    exact meets_of_ofTerm hstable hcontext ht hr
  · have hmoved : arg.Meets C S := meets_renumber hstable ha harg
    have happ : (Term.app f.term [arg.term]).Shaped S :=
      Term.Shaped.app_iff.2 ⟨fun b hb => hf.head hstable hb, hf.term,
        List.forall_mem_singleton.2 hmoved.term⟩
    have hcontext : C (f.context.merge arg.context) :=
      hstable.merge _ _ hf.context hmoved.context
    exact meets_of_ofTerm hstable hcontext happ hr

/-- An application whose operands meet the facts has a result that meets
them. -/
theorem meets_apply {f a r : Form} (hf : f.Meets C S) (ha : a.Meets C S)
    (h : (apply f a).result = .ok r) : r.Meets C S :=
  keepsFacts hstable f a hf ha r h

/-- A composition whose operands meet the facts has a result that meets
them. -/
theorem meets_compose {f a r : Form} (hf : f.Meets C S) (ha : a.Meets C S)
    (h : (compose f a).result = .ok r) : r.Meets C S := by
  obtain ⟨v, type, body, inner, outer, s, hterm, hinner, houter, hs, hr⟩ :=
    compose_steps h
  obtain ⟨htype, hbody⟩ := Term.Shaped.lambda_iff.1 (hterm ▸ hf.term)
  have hs : s.Meets C S :=
    meets_apply hstable (meets_renumber hstable ha houter)
      (meets_of_ofTerm hstable hf.context hbody hinner) hs
  exact meets_of_ofTerm hstable (hstable.merge _ _ hf.context hs.context)
    (Term.Shaped.lambda_iff.2 ⟨htype, hs.term⟩) hr

omit hstable

-- =============================================================== sessions

/-- The forms that are reached from texts read under the given contexts by
renumbering, applying and composing, in any order. -/
inductive Reached (given : Context → Prop) : Form → Prop
  | read {c : Context} {text : String} {f : Form} :
      given c → (parse c text).result = .ok f → Reached given f
  | renumbered {f r : Form} {offset : Nat} : Reached given f →
      (f.renumber offset).result = .ok r → Reached given r
  | applied {f a r : Form} : Reached given f → Reached given a →
      (apply f a).result = .ok r → Reached given r
  | composed {f a r : Form} : Reached given f → Reached given a →
      (compose f a).result = .ok r → Reached given r

/-- Stable facts that hold of the given contexts hold of every form that
is reached. -/
theorem Reached.meets (hstable : Stable C S) {given : Context → Prop}
    (hgiven : ∀ c, given c → C c) {f : Form} (h : Reached given f) :
    f.Meets C S := by
  induction h with
  | read hc hread =>
      obtain ⟨t, ht, hf⟩ := Traced.result_bind_eq_ok hread
      exact meets_of_ofTerm hstable (hgiven _ hc)
        (hstable.readable t (Term.readable_of_parse ht)) hf
  | renumbered _ hr ih => exact meets_renumber hstable ih hr
  | applied _ _ hr ihf iha => exact meets_apply hstable ihf iha hr
  | composed _ _ hr ihf iha => exact meets_compose hstable ihf iha hr

end Form

end

end LogicalForm
