/-
What renumbering does to a form: it renames the variables of the term and
of the context alike (`renumber_relocates`), for every offset at which no
bound variable comes to the place of a variable that stays (`KeepsApart`). An
offset above all variables of the form is such an offset, and so is 0.

# Why the form keeps its type

- Entries move all at once, so each is found at the new place of its
  variable (`var?_moved_relocateBy`).
- The first occurrence of a variable stays the first one of its new name
  (`Term.find?_visits_mapVars`), so registering the renamed term from the
  moved entries gives the renamed context (`register_moved`).
- A type is inferred from the head variable alone, so the renamed context
  gives the renamed term the type that it had (`infer_relocated`).

All that can fail is an index: a bound variable has to have one left above
its new place (`Fits`, `exists_renumber`, `overflow_of_renumber`).
-/
import LogicalForm.Proofs.HeadVariable
import LogicalForm.Proofs.Renaming

namespace LogicalForm

namespace Term

/-- The first visit of a variable stays the first one under a change of
variables that keeps them apart. -/
theorem find?_visits_mapVars {f : Var → Var} {t : Term} {v : Var}
    (h : ∀ w ∈ t.vars, f w = f v → w = v) :
    (t.mapVars f).visits.find? (fun o => o.var = f v)
      = (t.visits.find? fun o => o.var = v).map (Visit.mapVar f) := by
  have hvisits : ∀ o ∈ t.visits, f o.var = f v → o.var = v :=
    fun o ho => h o.var (List.mem_map_of_mem ho)
  rw [visits_mapVars]
  generalize t.visits = os at hvisits
  induction os with
  | nil => rfl
  | cons o os ih =>
      obtain ⟨ho, hos⟩ := List.forall_mem_cons.1 hvisits
      rw [List.map_cons, List.find?_cons, List.find?_cons]
      by_cases hv : o.var = v
      · have hmapped : (o.mapVar f).var = f v := congrArg f hv
        simp [hv, hmapped]
      · have hmapped : (o.mapVar f).var ≠ f v := fun he => hv (ho he)
        simpa [hv, hmapped] using ih hos

end Term

namespace Context

/-- The context with the variables of its entries replaced through `f`. -/
def mapVars (f : Var → Var) (c : Context) : Context :=
  ⟨.ofList (c.vars.entries.map fun e => (f e.1, e.2)), c.symbols⟩

/-- A variable that no other one comes to has its entry at its new place. -/
theorem var?_mapVars {c : Context} {f : Var → Var} {v : Var}
    (h : ∀ w ∈ c.vars.keys, f v = f w → v = w) :
    (c.mapVars f).var? (f v) = c.var? v := by
  show (Table.ofList _).find? (f v) = c.vars.find? v
  rw [Table.find?_ofList]
  exact Entries.lookup_map_of_inj fun e he => h e.1 (List.mem_map_of_mem he)

/-- Where no variable comes to, there is no entry. -/
theorem var?_mapVars_eq_none {c : Context} {f : Var → Var} {w : Var}
    (h : ∀ v ∈ c.vars.keys, w ≠ f v) : (c.mapVars f).var? w = none := by
  show (Table.ofList _).find? w = none
  rw [Table.find?_ofList]
  exact Entries.lookup_map_eq_none fun e he => h e.1 (List.mem_map_of_mem he)

/-- What counts as known depends on the entry alone. -/
theorem known?_congr {c d : Context} {v w : Var} (h : d.var? w = c.var? v) :
    d.known? w = c.known? v := by
  unfold known?
  rw [h]

-- ========================================================== registration

section

variable {c d : Context} {f : Var → Var} {t : Term}
  (hinj : ∀ x ∈ t.vars, ∀ y ∈ t.vars, f x = f y → x = y)
  (hvar : ∀ v ∈ t.vars, d.var? (f v) = c.var? v)

include hinj hvar

/-- The first visits move along, so registration classifies as before. -/
theorem var?_register_mapVars {v : Var} (hv : v ∈ t.vars) :
    (d.register (t.mapVars f)).var? (f v) = (c.register t).var? v := by
  have hfirst := Term.find?_visits_mapVars (f := f) (t := t)
    fun u hu => hinj u hu v hv
  rw [var?_register, var?_register, hfirst, Option.map_map]
  refine Option.map_congr fun o ho => ?_
  have hov : o.var = v := Term.var_of_find? ho
  show d.classify (o.mapVar f) = c.classify o
  rw [classify, classify, Visit.mapVar, hov, known?_congr (hvar v hv)]

/-- Registering a renamed term from a renamed context is renaming what is
registered. -/
theorem register_mapVars (hsymbols : d.symbols = c.symbols) :
    d.register (t.mapVars f) = (c.register t).mapVars f := by
  have hkeys : ∀ v, v ∈ (c.register t).vars.keys ↔ v ∈ t.vars :=
    fun v => Table.mem_keys_iff.trans isSome_var?_register
  refine ext_lookups (fun w => ?_) fun name => symbol?_congr hsymbols name
  by_cases hw : w ∈ (t.mapVars f).vars
  · rw [Term.vars_mapVars] at hw
    obtain ⟨v, hv, rfl⟩ := List.mem_map.1 hw
    rw [var?_register_mapVars hinj hvar hv, var?_mapVars]
    exact fun u hu => hinj v hv u ((hkeys u).1 hu)
  · -- neither side speaks of a variable that nothing is renamed to
    have hnone : (d.register (t.mapVars f)).var? w = none := by
      rw [← Option.not_isSome_iff_eq_none, isSome_var?_register]
      exact hw
    rw [hnone, var?_mapVars_eq_none]
    intro v hv heq
    rw [Term.vars_mapVars] at hw
    exact hw (List.mem_map.2 ⟨v, (hkeys v).1 hv, heq.symm⟩)

end

-- ================================================================ typing

/-- A change of variables that keeps the type of the head variable keeps
the type of the term. -/
theorem infer_mapVars {c d : Context} {f : Var → Var} {t : Term} {τ : Ty}
    (hsymbols : d.symbols = c.symbols)
    (hvar : ∀ w, t.headVar? = some w → d.var? (f w) = c.var? w)
    (h : c.infer t = .ok τ) : d.infer (t.mapVars f) = .ok τ := by
  induction t generalizing τ with
  | atom a =>
      cases a with
      | var v =>
          refine inferAtom_var_eq_ok.2 ?_
          rw [hvar v rfl]
          exact inferAtom_var_eq_ok.1 h
      | builtin b =>
          rw [← h]
          refine infer_congr hsymbols fun w hw => ?_
          cases hw
      | const text stated =>
          rw [← h]
          refine infer_congr hsymbols fun w hw => ?_
          cases hw
  | lambda v type body ih =>
      obtain ⟨κ, -, rfl⟩ := infer_lambda_eq_ok h
      obtain ⟨-, hbody, hκ⟩ := ne_unknown_of_infer_lambda h
      exact infer_lambda_of_infer (ih hvar hbody) hκ
  | binder op v args _ => exact h
  | app head args ih _ =>
      rw [Term.mapVars, Term.mapVarsAll_eq_map]
      rcases head.exists_atom_or_not with ⟨a, rfl⟩ | hnot
      · cases a with
        | var v =>
            obtain ⟨σ, hσ, hafter⟩ := inferAtomHead_var_eq_ok.1 h
            refine inferAtomHead_var_eq_ok.2 ⟨σ, ?_, ?_⟩
            · rw [known?_congr (hvar v rfl), hσ]
            · rw [List.length_map]
              exact Ty.afterArgs_eq_ok hafter
        | builtin b => exact h
        | const text stated =>
            show d.inferAtomHead _ (args.map _).length = _
            rw [List.length_map, ← h]
            refine inferAtomHead_congr (symbol?_congr hsymbols) fun w hw => ?_
            cases hw
      · obtain ⟨σ, hσ, hafter⟩ := infer_app_eq_ok hnot h
        rw [infer_app_of_not_atom (by rwa [Term.isAtom_mapVars]), ih hvar hσ,
          List.length_map]
        exact Ty.afterArgs_eq_ok hafter

end Context

namespace Form

/-- What moves still has an index above it. -/
def Fits (f : Form) (offset : Nat) : Prop :=
  ∀ x ∈ f.term.binders, x.index + offset < Var.maxIndex

variable {f r : Form} {offset : Nat}

/-- A renumbering that succeeds had room for all that moves. -/
theorem fits_of_renumber (hr : (f.renumber offset).result = .ok r) :
    f.Fits offset := by
  intro x hx
  have hmem := (mem_binders_renumbered hr).2 ⟨x, hx, rfl⟩
  have hlt := r.index_lt _ (Term.mem_vars_of_mem_binders hmem)
  rwa [Var.index_shift] at hlt

/-- Where all that moves fits, renumbering comes to typing the result. -/
theorem result_renumber_of_fits (hfits : f.Fits offset) :
    (f.renumber offset).result
      = (ofTerm (f.context.moved f.boundVars offset)
          (f.term.mapVars (f.relocateBy offset))).result := by
  have hstays : ∀ v ∈ f.boundVars, v.overflows offset = false := by
    intro v hv
    have hlt := hfits v (Term.mem_boundVars.1 hv)
    unfold Var.overflows
    rw [decide_eq_false_iff_not]
    omega
  rw [result_renumber, f.term.overflowing?_eq_none hstays,
    f.context.shift_of_no_overflow hstays]
  rfl

/-- Where all that moves fits, an index is left above the moved term. -/
theorem freshIndex_relocated_le (hfits : f.Fits offset) :
    (f.term.mapVars (f.relocateBy offset)).freshIndex ≤ Var.maxIndex := by
  rw [Term.freshIndex_le_iff, Term.vars_mapVars, List.forall_mem_map]
  intro v hv
  by_cases hbound : v ∈ f.term.binders
  · rw [relocateBy_of_mem hbound]
    exact hfits v hbound
  · rw [relocateBy_of_not_mem hbound]
    exact f.index_lt v hv

section

variable (hapart : f.KeepsApart offset)

include hapart

/-- All entries move at once, so each arrives with its type. -/
theorem var?_moved_relocateBy {v : Var} (hv : v ∈ f.term.vars) :
    (f.context.moved f.boundVars offset).var? (f.relocateBy offset v)
      = f.context.var? v := by
  by_cases hbound : v ∈ f.term.binders
  · obtain ⟨type, htype⟩ := Option.isSome_iff_exists.1 (isSome_var?.2 hv)
    rw [relocateBy_of_mem hbound, htype]
    exact Context.var?_moved_shift (Term.mem_boundVars.2 hbound) htype
  · rw [relocateBy_of_not_mem hbound, Context.var?_moved_of_no_arrival, if_neg]
    · exact fun hmem => hbound (Term.mem_boundVars.1 hmem)
    · intro w hw harrives
      exact absurd harrives (hapart w (Term.mem_boundVars.1 hw) v hv hbound)

/-- A variable of the form has its entry at the place where renumbering
takes it. -/
theorem var?_mapVars_relocateBy {v : Var} (hv : v ∈ f.term.vars) :
    (f.context.mapVars (f.relocateBy offset)).var? (f.relocateBy offset v)
      = f.context.var? v :=
  Context.var?_mapVars fun w hw =>
    relocateBy_inj hapart v hv w (mem_keys_iff.1 hw)

/-- The moved term, registered from the moved entries, gives the renamed
context. -/
theorem register_moved :
    (f.context.moved f.boundVars offset).register
        (f.term.mapVars (f.relocateBy offset))
      = f.context.mapVars (f.relocateBy offset) := by
  have hregister := Context.register_mapVars (relocateBy_inj hapart)
    (fun v hv => var?_moved_relocateBy hapart hv) rfl
  rwa [f.registered] at hregister

/-- The form keeps its type when term and context are renamed alike. -/
theorem infer_relocated :
    (f.context.mapVars (f.relocateBy offset)).infer
      (f.term.mapVars (f.relocateBy offset)) = .ok f.type := by
  have hsymbols : (f.context.mapVars (f.relocateBy offset)).symbols
      = f.context.symbols := rfl
  refine Context.infer_mapVars hsymbols (fun w hw => ?_) f.typed
  exact var?_mapVars_relocateBy hapart (Term.mem_vars_of_headVar? hw)

/-- A renumbering that succeeds renames the variables of the form and of
its context alike and keeps the type. -/
theorem renumber_relocates (h : (f.renumber offset).result = .ok r) :
    r.term = f.term.mapVars (f.relocateBy offset)
      ∧ r.context = f.context.mapVars (f.relocateBy offset)
      ∧ r.type = f.type := by
  obtain ⟨hterm, hcontext⟩ := renumber_eq_ok h
  have hrenamed : r.context = f.context.mapVars (f.relocateBy offset) := by
    rw [hcontext, hterm]
    exact register_moved hapart
  refine ⟨hterm, hrenamed, ?_⟩
  have htyped := r.typed
  rw [hterm, hrenamed] at htyped
  exact Except.ok.inj (htyped.symm.trans (infer_relocated hapart))

/-- Renumbering types the moved term as the form is typed. -/
theorem infer_register_moved :
    ((f.context.moved f.boundVars offset).register
        (f.term.mapVars (f.relocateBy offset))).infer
      (f.term.mapVars (f.relocateBy offset)) = .ok f.type := by
  rw [register_moved hapart]
  exact infer_relocated hapart

/-- Room for all that moves is enough for renumbering to succeed. -/
theorem exists_renumber (hfits : f.Fits offset) :
    ∃ r, (f.renumber offset).result = .ok r := by
  rw [result_renumber_of_fits hfits,
    result_ofTerm_of_infer (infer_register_moved hapart),
    dif_pos (freshIndex_relocated_le hfits)]
  exact ⟨_, rfl⟩

/-- Nothing but an index can fail to exist. -/
theorem overflow_of_renumber {e : Error}
    (h : (f.renumber offset).result = .error e) :
    ∃ v n, e = .variableOverflow v n := by
  rw [result_renumber] at h
  split at h
  · cases h
    exact ⟨_, _, rfl⟩
  · split at h
    · rename_i hshift
      cases h
      obtain ⟨v, rfl⟩ := Context.overflow_of_shift hshift
      exact ⟨v, offset, rfl⟩
    · rename_i c hshift
      have hinfer := infer_register_moved hapart
      rw [← Context.shift_eq_ok hshift] at hinfer
      replace h := (result_ofTerm_of_infer hinfer).symm.trans h
      split at h
      · cases h
      · cases h
        exact ⟨_, _, rfl⟩

end

-- ============================================================ equal forms

/-- Forms with the same term and symbols are equal if they agree on the
variables of the term. -/
theorem ext_vars {g : Form} (hterm : f.term = g.term)
    (hsymbols : f.context.symbols = g.context.symbols)
    (hvars : ∀ v ∈ f.term.vars, f.context.var? v = g.context.var? v) :
    f = g := by
  refine ext_term hterm (Context.ext_lookups (fun v => ?_) fun name => ?_)
  · by_cases hv : v ∈ f.term.vars
    · exact hvars v hv
    · have hg : v ∉ g.term.vars := by rwa [← hterm]
      rw [var?_eq_none hv, var?_eq_none hg]
  · exact Context.symbol?_congr hsymbols name

/-- The context of a renumbered form has every variable at its new place
with the type that it had. -/
theorem var?_renumbered (hapart : f.KeepsApart offset)
    (h : (f.renumber offset).result = .ok r) {v : Var} (hv : v ∈ f.term.vars) :
    r.context.var? (f.relocateBy offset v) = f.context.var? v := by
  rw [(renumber_relocates hapart h).2.1]
  exact var?_mapVars_relocateBy hapart hv

end Form

end LogicalForm
