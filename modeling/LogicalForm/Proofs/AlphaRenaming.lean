/-
Renumbering and the scopes of a form, told on lexically scoped trees. A
change of variables that keeps them apart changes nothing in the tree but
the names of free variables (`Term.toScoped_mapVars_map`): whatever is
bound stays bound by the lambda or the binder that bound it. So a form
and what it is renumbered to have the same tree, up to where the free
variables have gone, and a free variable has gone somewhere exactly if
its index is bound elsewhere in the form.

`renumbering_keeps_scopes` says both. The second part is the proviso
under which renumbering is alpha-renaming, for the move of an argument as
for any other (`toScoped_moved_eq_iff`), and it is exact;
`renumbering_moves_free_namesake` is a form that does not meet it.
-/
import LogicalForm.Proofs.Reference
import LogicalForm.Proofs.Relocation

namespace LogicalForm

namespace Scoped

-- ======================================================== free variables

mutual
/-- The tree with its free variables replaced through `f`. -/
def mapFree (f : Var → Var) : Scoped → Scoped
  | .bound i => .bound i
  | .atom (.var v) => .atom (.var (f v))
  | .atom a => .atom a
  | .lambda type body => .lambda type (mapFree f body)
  | .binder op args => .binder op (mapFreeAll f args)
  | .app head args => .app (mapFree f head) (mapFreeAll f args)
/-- The trees with their free variables replaced through `f`. -/
def mapFreeAll (f : Var → Var) : List Scoped → List Scoped
  | [] => []
  | t :: ts => mapFree f t :: mapFreeAll f ts
end

@[simp] theorem mapFreeAll_eq_map (f : Var → Var) (ts : List Scoped) :
    mapFreeAll f ts = ts.map (mapFree f) := by
  induction ts with
  | nil => rfl
  | cons t ts ih => rw [mapFreeAll, ih, List.map_cons]

/-- A replacement leaves a list of trees alone if it leaves each of them
alone. -/
theorem mapFreeAll_eq_self_iff {f : Var → Var} {ts : List Scoped} :
    mapFreeAll f ts = ts ↔ ∀ t ∈ ts, t.mapFree f = t := by
  rw [mapFreeAll_eq_map]
  conv_lhs => rhs; rw [← List.map_id ts]
  exact List.map_inj_left

/-- A tree stays what it is exactly if each of its free variables does. -/
theorem mapFree_eq_self_iff {f : Var → Var} {s : Scoped} :
    s.mapFree f = s ↔ ∀ v ∈ s.freeVars, f v = v := by
  have all_iff {ts : List Scoped}
      (ih : ∀ t ∈ ts, t.mapFree f = t ↔ ∀ v ∈ t.freeVars, f v = v) :
      mapFreeAll f ts = ts ↔ ∀ v ∈ freeVarsAll ts, f v = v := by
    rw [mapFreeAll_eq_self_iff, freeVarsAll_eq_flatMap, List.forall_mem_flatMap]
    exact forall₂_congr ih
  induction s using Scoped.ind with
  | bound i => simp [mapFree, freeVars]
  | atom a => cases a <;> simp [mapFree, freeVars]
  | lambda type body ih =>
      rw [mapFree, freeVars, lambda.injEq]
      exact (and_iff_right rfl).trans ih
  | binder op args ih =>
      rw [mapFree, freeVars, binder.injEq]
      exact (and_iff_right rfl).trans (all_iff ih)
  | app head args ihHead ihArgs =>
      rw [mapFree, freeVars, List.forall_mem_append, app.injEq]
      exact and_congr ihHead (all_iff ihArgs)

/-- Below the same binders under their new names, a variable is what it
was, under its new name if it is free. -/
theorem ofVar_map {f : Var → Var} {Δ : List Var} {v : Var}
    (hinj : ∀ w ∈ Δ, f w = f v → w = v) :
    ofVar (Δ.map f) (f v) = (ofVar Δ v).mapFree f := by
  have hmem : f v ∈ Δ.map f ↔ v ∈ Δ := Term.mem_map_iff_of_inj hinj
  unfold ofVar
  by_cases hv : v ∈ Δ
  · rw [if_pos hv, if_pos (hmem.2 hv), Term.idxOf_map_of_inj hinj, mapFree]
  · rw [if_neg hv, if_neg fun h => hv (hmem.1 h), mapFree]

end Scoped

/-- A change of variables that keeps them apart does nothing to the tree
but to take its free variables along. -/
theorem Term.toScoped_mapVars_map {f : Var → Var} {S : List Var}
    (hinj : ∀ x ∈ S, ∀ y ∈ S, f x = f y → x = y) {Δ : List Var} {t : Term}
    (ht : ∀ y ∈ t.vars, y ∈ S) (hΔ : ∀ y ∈ Δ, y ∈ S) :
    (t.mapVars f).toScoped (Δ.map f) = (t.toScoped Δ).mapFree f := by
  induction t generalizing Δ with
  | atom a =>
      cases a with
      | builtin b => rfl
      | const text stated => rfl
      | var v =>
          have hv : v ∈ S := ht v (mem_vars_atom.2 rfl)
          exact Scoped.ofVar_map fun w hw => hinj w (hΔ w hw) v hv
  | lambda w type body ih =>
      obtain ⟨hw, hbody⟩ := forall_mem_vars_lambda.1 ht
      have hcons : ∀ y ∈ w :: Δ, y ∈ S := List.forall_mem_cons.2 ⟨hw, hΔ⟩
      rw [mapVars, toScoped, toScoped, Scoped.mapFree]
      exact congrArg _ (ih hbody hcons)
  | binder op w args ih =>
      obtain ⟨hw, hargs⟩ := forall_mem_vars_binder.1 ht
      have hcons : ∀ y ∈ w :: Δ, y ∈ S := List.forall_mem_cons.2 ⟨hw, hΔ⟩
      rw [mapVars, toScoped, toScoped, Scoped.mapFree, mapVarsAll_eq_map,
        toScopedAll_eq_map, toScopedAll_eq_map, Scoped.mapFreeAll_eq_map,
        List.map_map, List.map_map]
      exact congrArg _ (List.map_congr_left fun t hmem =>
        ih t hmem (hargs t hmem) hcons)
  | app head args ihHead ihArgs =>
      obtain ⟨hhead, hargs⟩ := forall_mem_vars_app.1 ht
      rw [mapVars, toScoped, toScoped, Scoped.mapFree, mapVarsAll_eq_map,
        toScopedAll_eq_map, toScopedAll_eq_map, Scoped.mapFreeAll_eq_map,
        List.map_map, List.map_map, ihHead hhead hΔ]
      exact congrArg _ (List.map_congr_left fun t hmem =>
        ihArgs t hmem (hargs t hmem) hΔ)

namespace Form

variable {f r : Form} {offset : Nat}

-- =========================================================== renumbering

/-- On trees, renumbering replaces free variables and does no more, since
the binders of a tree have no names. -/
theorem toScoped_renumbered (hapart : f.KeepsApart offset)
    (hr : (f.renumber offset).result = .ok r) :
    r.term.toScoped []
      = (f.term.toScoped []).mapFree (f.relocateBy offset) := by
  rw [(renumber_relocates hapart hr).1]
  exact Term.toScoped_mapVars_map (Δ := []) (relocateBy_inj hapart)
    (fun _ hy => hy) (List.forall_mem_nil _)

/-- What moves at a fresh offset does not stay where it is. -/
theorem relocateBy_eq_self_iff (hoffset : f.freshIndex ≤ offset) {v : Var}
    (hv : v ∈ f.term.vars) :
    f.relocateBy offset v = v ↔ v ∉ f.term.binders := by
  refine ⟨fun heq hbound => ?_, relocateBy_of_not_mem⟩
  have hlt := index_lt_freshIndex hv
  have hindex := congrArg Var.index heq
  rw [relocateBy_of_mem hbound, Var.index_shift] at hindex
  omega

/-- The tree stays what it is exactly if no index is both bound and free:
such an index moves at its free occurrences too. -/
theorem toScoped_renumbered_eq_iff (hoffset : f.freshIndex ≤ offset)
    (hr : (f.renumber offset).result = .ok r) :
    r.term.toScoped [] = f.term.toScoped []
      ↔ ∀ x ∈ f.term.binders, x ∉ f.term.freeVars := by
  rw [toScoped_renumbered (keepsApart_of_le hoffset) hr,
    Scoped.mapFree_eq_self_iff]
  constructor
  · intro h x hbound hfree
    have hstays := h x (Term.mem_freeVars_toScoped.2 ⟨hfree, List.not_mem_nil⟩)
    have hvar := Term.mem_vars_of_mem_freeVars hfree
    exact (relocateBy_eq_self_iff hoffset hvar).1 hstays hbound
  · intro h v hv
    obtain ⟨hfree, -⟩ := Term.mem_freeVars_toScoped.1 hv
    exact relocateBy_of_not_mem fun hbound => h v hbound hfree

/-- So what `toScoped_moved` asks of an argument is needed. -/
theorem toScoped_moved_eq_iff {f a arg : Form}
    (harg : (moved f a).result = .ok arg) :
    arg.term.toScoped [] = a.term.toScoped []
      ↔ ∀ x ∈ a.term.binders, x ∉ a.term.freeVars :=
  toScoped_renumbered_eq_iff (Nat.le_max_right ..) harg

-- ========================================================== main result

/-- Renumbering at a fresh offset keeps every bound occurrence with its
lambda or binder and takes free variables along where they have a bound
namesake. So it is alpha-renaming exactly if no index is both bound and
free in the form. -/
theorem renumbering_keeps_scopes (hoffset : f.freshIndex ≤ offset)
    (hr : (f.renumber offset).result = .ok r) :
    r.term.toScoped []
        = (f.term.toScoped []).mapFree (f.relocateBy offset)
      ∧ (r.term.toScoped [] = f.term.toScoped []
          ↔ ∀ x ∈ f.term.binders, x ∉ f.term.freeVars) :=
  ⟨toScoped_renumbered (keepsApart_of_le hoffset) hr,
    toScoped_renumbered_eq_iff hoffset hr⟩

/-- One index is bound twice, once within the scope of the other, and a
free variable stands in both scopes. -/
theorem renumbering_keeps_shadowing :
    ∃ f, (parse .empty
          "(lambda $0 e (and (p:t $0 $3) (exists $0 (q:t $3 $0))))").result
        = .ok f
      ∧ f.freshIndex ≤ 4
      ∧ ∃ r, (f.renumber 4).result = .ok r
        ∧ r.render .word
          = "(lambda $4 e (and (p:t $4 $3) (exists $4 (q:t $3 $4))))"
        ∧ r.term.toScoped []
          = (f.term.toScoped []).mapFree (f.relocateBy 4)
        ∧ r.term.toScoped [] = f.term.toScoped [] := by
  have hrun : ∃ f, (parse .empty
          "(lambda $0 e (and (p:t $0 $3) (exists $0 (q:t $3 $0))))").result
        = .ok f
      ∧ f.freshIndex ≤ 4
      ∧ (∀ x ∈ f.term.binders, x ∉ f.term.freeVars)
      ∧ ∃ r, (f.renumber 4).result = .ok r
        ∧ r.render .word
          = "(lambda $4 e (and (p:t $4 $3) (exists $4 (q:t $3 $4))))" := by
    decide +kernel
  obtain ⟨f, hf, hfresh, hsplit, r, hr, hdisplay⟩ := hrun
  obtain ⟨htree, hiff⟩ := renumbering_keeps_scopes hfresh hr
  exact ⟨f, hf, hfresh, r, hr, hdisplay, htree, hiff.2 hsplit⟩

/-- Where an index is free in one place and bound in another, the free
occurrence moves too and the tree becomes another one. -/
theorem renumbering_moves_free_namesake :
    ∃ f, (parse (Context.empty.insertVar ⟨0⟩ .entity)
          "(and $0 (exists $0 (p:t $0)))").result = .ok f
      ∧ f.freshIndex ≤ 1
      ∧ ∃ r, (f.renumber 1).result = .ok r
        ∧ r.render .word = "(and $1 (exists $1 (p:t $1)))"
        ∧ r.term.toScoped [] ≠ f.term.toScoped [] := by
  have hrun : ∃ f, (parse (Context.empty.insertVar ⟨0⟩ .entity)
          "(and $0 (exists $0 (p:t $0)))").result = .ok f
      ∧ f.freshIndex ≤ 1 ∧ f.term.freeVars = [⟨0⟩]
      ∧ ∃ r, (f.renumber 1).result = .ok r
        ∧ r.render .word = "(and $1 (exists $1 (p:t $1)))"
        ∧ r.term.freeVars = [⟨1⟩] := by
    decide +kernel
  obtain ⟨f, hf, hfresh, hbefore, r, hr, hdisplay, hafter⟩ := hrun
  refine ⟨f, hf, hfresh, r, hr, hdisplay, fun htree => ?_⟩
  have hmem : ⟨0⟩ ∈ (f.term.toScoped []).freeVars := by
    rw [Term.mem_freeVars_toScoped, hbefore]
    exact ⟨List.mem_singleton_self _, List.not_mem_nil⟩
  rw [← htree, Term.mem_freeVars_toScoped, hafter] at hmem
  exact absurd (List.mem_singleton.1 hmem.1) (by decide)

end Form

end LogicalForm
