/-
Lexically scoped trees. A bound variable is the number of lambdas and
binders between it and its own, so two terms have the same tree exactly
when they differ in the names of bound variables only: equality of trees
is alpha-equivalence. `Term.toScoped` reads a term below a list of enclosing
binders, the innermost first; a lambda and a binder both count.

# The two laws of reading

- Reading below more binders lifts the tree, as long as the additional
  ones capture nothing (`toScoped_append`).
- A change of variables that keeps the variables of a term apart, and
  those free in it where they are, does not change the tree
  (`toScoped_mapVars`). So moving the bound variables of an argument keeps
  its reading, provided that no index is both bound and free in it
  (`toScoped_moved`). `AlphaRenaming` shows that this proviso is exact.
-/
import LogicalForm.Proofs.Renaming

namespace LogicalForm

/-- A tree in which a bound variable counts the binders up to its own. A
variable as an atom is free. -/
inductive Scoped where
  | bound (i : Nat)
  | atom (a : Atom)
  | lambda (type : Ty) (body : Scoped)
  | binder (op : Builtin) (args : List Scoped)
  | app (head : Scoped) (args : List Scoped)

namespace Scoped

mutual
/-- The tree below `d` more binders, of which those around the innermost
`k` are the new ones. -/
def lift (d k : Nat) : Scoped → Scoped
  | .bound i => if i < k then .bound i else .bound (i + d)
  | .atom a => .atom a
  | .lambda type body => .lambda type (lift d (k + 1) body)
  | .binder op args => .binder op (liftAll d (k + 1) args)
  | .app head args => .app (lift d k head) (liftAll d k args)
/-- The trees below `d` more binders. -/
def liftAll (d k : Nat) : List Scoped → List Scoped
  | [] => []
  | t :: ts => lift d k t :: liftAll d k ts
end

@[simp] theorem liftAll_eq_map (d k : Nat) (ts : List Scoped) :
    liftAll d k ts = ts.map (lift d k) := by
  induction ts with
  | nil => rfl
  | cons t ts ih => rw [liftAll, ih, List.map_cons]

mutual
/-- The free variables of a tree. -/
def freeVars : Scoped → List Var
  | .bound _ => []
  | .atom (.var v) => [v]
  | .atom _ => []
  | .lambda _ body => freeVars body
  | .binder _ args => freeVarsAll args
  | .app head args => freeVars head ++ freeVarsAll args
/-- The free variables of a list of trees. -/
def freeVarsAll : List Scoped → List Var
  | [] => []
  | t :: ts => freeVars t ++ freeVarsAll ts
end

@[simp] theorem freeVarsAll_eq_flatMap (ts : List Scoped) :
    freeVarsAll ts = ts.flatMap freeVars := by
  induction ts with
  | nil => rfl
  | cons t ts ih => rw [freeVarsAll, ih, List.flatMap_cons]

/-- A variable below the binders in the list. -/
def ofVar (Γ : List Var) (v : Var) : Scoped :=
  if v ∈ Γ then .bound (Γ.idxOf v) else .atom (.var v)

end Scoped

namespace Term

mutual
/-- The tree that a term stands for below the binders in the list. -/
def toScoped (Γ : List Var) : Term → Scoped
  | .atom (.var v) => .ofVar Γ v
  | .atom a => .atom a
  | .lambda v type body => .lambda type (toScoped (v :: Γ) body)
  | .binder op v args => .binder op (toScopedAll (v :: Γ) args)
  | .app head args => .app (toScoped Γ head) (toScopedAll Γ args)
/-- The trees that a list of terms stands for. -/
def toScopedAll (Γ : List Var) : List Term → List Scoped
  | [] => []
  | t :: ts => toScoped Γ t :: toScopedAll Γ ts
end

@[simp] theorem toScopedAll_eq_map (Γ : List Var) (ts : List Term) :
    toScopedAll Γ ts = ts.map (toScoped Γ) := by
  induction ts with
  | nil => rfl
  | cons t ts ih => rw [toScopedAll, ih, List.map_cons]

end Term

-- ====================================================== single variables

namespace Scoped

variable {Δ Ξ Γ : List Var} {v : Var}

/-- A variable bound by an inner binder counts the binders up to that one.
-/
theorem ofVar_of_mem (h : v ∈ Δ) : ofVar (Δ ++ Γ) v = .bound (Δ.idxOf v) := by
  rw [ofVar, if_pos (List.mem_append_left _ h), List.idxOf_append_of_mem h]

/-- A variable that no inner binder binds counts these and looks on farther
out. -/
theorem ofVar_of_not_mem (h : v ∉ Δ) :
    ofVar (Δ ++ Γ) v
      = if v ∈ Γ then .bound (Δ.length + Γ.idxOf v) else .atom (.var v) := by
  rw [ofVar]
  by_cases hΓ : v ∈ Γ
  · rw [if_pos (List.mem_append_right _ hΓ), if_pos hΓ,
      List.idxOf_append_of_notMem h]
  · have hnot : v ∉ Δ ++ Γ := by
      rw [List.mem_append, not_or]
      exact ⟨h, hΓ⟩
    rw [if_neg hnot, if_neg hΓ]

/-- More binders between `Δ` and `Γ` lift a variable, unless one of them
captures it. -/
theorem ofVar_append (h : v ∉ Δ → v ∉ Ξ) :
    ofVar (Δ ++ (Ξ ++ Γ)) v = (ofVar (Δ ++ Γ) v).lift Ξ.length Δ.length := by
  by_cases hΔ : v ∈ Δ
  · have hlt : Δ.idxOf v < Δ.length := List.idxOf_lt_length_of_mem hΔ
    rw [ofVar_of_mem hΔ, ofVar_of_mem hΔ, lift, if_pos hlt]
  · rw [ofVar_of_not_mem hΔ, ofVar_of_not_mem hΔ]
    by_cases hΓ : v ∈ Γ
    · have hge : ¬ Δ.length + Γ.idxOf v < Δ.length := by omega
      rw [if_pos (List.mem_append_right _ hΓ), if_pos hΓ,
        List.idxOf_append_of_notMem (h hΔ), lift, if_neg hge]
      congr 1
      omega
    · have hnot : v ∉ Ξ ++ Γ := by
        rw [List.mem_append, not_or]
        exact ⟨h hΔ, hΓ⟩
      rw [if_neg hnot, if_neg hΓ, lift]

end Scoped

namespace Term

-- ======================================================== weakening

section

variable {P : Var → Prop} {Δ : List Var}

/-- Going below the lambda, one binder more is excepted. -/
theorem forall_freeVars_lambda {w : Var} {type : Ty} {body : Term}
    (h : ∀ v ∈ (Term.lambda w type body).freeVars, v ∉ Δ → P v) :
    ∀ v ∈ body.freeVars, v ∉ w :: Δ → P v := by
  intro v hv hnot
  rw [List.mem_cons, not_or] at hnot
  exact h v (mem_freeVars_lambda.2 ⟨hv, hnot.1⟩) hnot.2

/-- What is known of the free variables of a binder is known of those of its
arguments other than its own. -/
theorem forall_freeVars_binder {w : Var} {op : Builtin} {args : List Term}
    (h : ∀ v ∈ (Term.binder op w args).freeVars, v ∉ Δ → P v) :
    ∀ t ∈ args, ∀ v ∈ t.freeVars, v ∉ w :: Δ → P v := by
  intro t ht v hv hnot
  rw [List.mem_cons, not_or] at hnot
  exact h v (mem_freeVars_binder.2 ⟨⟨t, ht, hv⟩, hnot.1⟩) hnot.2

end

/-- Reading below more binders lifts the tree, unless one of them
captures a free variable of the term. -/
theorem toScoped_append {Δ Ξ Γ : List Var} {t : Term}
    (h : ∀ v ∈ t.freeVars, v ∉ Δ → v ∉ Ξ) :
    t.toScoped (Δ ++ (Ξ ++ Γ)) = (t.toScoped (Δ ++ Γ)).lift Ξ.length Δ.length := by
  induction t generalizing Δ with
  | atom a =>
      cases a with
      | var v => exact Scoped.ofVar_append (h v (mem_freeVars_atom.2 rfl))
      | builtin b => rfl
      | const text stated => rfl
  | lambda w type body ih =>
      rw [toScoped, toScoped, Scoped.lift]
      exact congrArg _ (ih (forall_freeVars_lambda h))
  | binder op w args ih =>
      have hargs := forall_freeVars_binder h
      rw [toScoped, toScoped, Scoped.lift, toScopedAll_eq_map, toScopedAll_eq_map,
        Scoped.liftAll_eq_map, List.map_map]
      exact congrArg _ (List.map_congr_left fun t ht => ih t ht (hargs t ht))
  | app head args ihHead ihArgs =>
      have hhead := ihHead fun v hv => h v (mem_freeVars_app.2 (.inl hv))
      have hargs : ∀ t ∈ args, ∀ v ∈ t.freeVars, v ∉ Δ → v ∉ Ξ :=
        fun t ht v hv => h v (mem_freeVars_app.2 (.inr ⟨t, ht, hv⟩))
      rw [toScoped, toScoped, Scoped.lift, toScopedAll_eq_map, toScopedAll_eq_map,
        Scoped.liftAll_eq_map, List.map_map, hhead]
      exact congrArg _
        (List.map_congr_left fun t ht => ihArgs t ht (hargs t ht))

-- ========================================================== new names

/-- A variable that stays apart from the others keeps its place under a
renaming. -/
theorem idxOf_map_of_inj {f : Var → Var} {Δ : List Var} {v : Var}
    (hinj : ∀ w ∈ Δ, f w = f v → w = v) :
    (Δ.map f).idxOf (f v) = Δ.idxOf v := by
  induction Δ with
  | nil => rfl
  | cons w Δ ih =>
      obtain ⟨hw, hΔ⟩ := List.forall_mem_cons.1 hinj
      by_cases h : w = v
      · rw [h, List.map_cons, List.idxOf_cons_self, List.idxOf_cons_self]
      · have hf : f w ≠ f v := fun e => h (hw e)
        rw [List.map_cons, List.idxOf_cons_ne _ hf, List.idxOf_cons_ne _ h,
          ih hΔ]

/-- A variable that stays apart from the others is renamed into the list
only if it was there. -/
theorem mem_map_iff_of_inj {f : Var → Var} {Δ : List Var} {v : Var}
    (hinj : ∀ w ∈ Δ, f w = f v → w = v) : f v ∈ Δ.map f ↔ v ∈ Δ := by
  refine ⟨fun h => ?_, List.mem_map_of_mem⟩
  obtain ⟨w, hw, hfw⟩ := List.mem_map.1 h
  rwa [← hinj w hw hfw]

/-- A change of variables that keeps them apart and leaves the free ones
where they are does not change the tree. -/
theorem toScoped_mapVars {f : Var → Var} {S : List Var}
    (hinj : ∀ x ∈ S, ∀ y ∈ S, f x = f y → x = y) {Δ Γ : List Var} {t : Term}
    (ht : ∀ y ∈ t.vars, y ∈ S) (hΔ : ∀ y ∈ Δ, y ∈ S)
    (hfree : ∀ v ∈ t.freeVars, v ∉ Δ → f v = v) :
    (t.mapVars f).toScoped (Δ.map f ++ Γ) = t.toScoped (Δ ++ Γ) := by
  induction t generalizing Δ with
  | atom a =>
      cases a with
      | builtin b => rfl
      | const text stated => rfl
      | var v =>
          have hv : v ∈ S := ht v (mem_vars_atom.2 rfl)
          have hplaces : ∀ w ∈ Δ, f w = f v → w = v :=
            fun w hw => hinj w (hΔ w hw) v hv
          have hmem : f v ∈ Δ.map f ↔ v ∈ Δ := mem_map_iff_of_inj hplaces
          show Scoped.ofVar (Δ.map f ++ Γ) (f v) = Scoped.ofVar (Δ ++ Γ) v
          by_cases hΔv : v ∈ Δ
          · rw [Scoped.ofVar_of_mem hΔv, Scoped.ofVar_of_mem (hmem.2 hΔv),
              idxOf_map_of_inj hplaces]
          · have hfix : f v = v := hfree v (mem_freeVars_atom.2 rfl) hΔv
            have hnot : v ∉ Δ.map f := by
              rw [← hfix, hmem]
              exact hΔv
            rw [hfix, Scoped.ofVar_of_not_mem hΔv, Scoped.ofVar_of_not_mem hnot,
              List.length_map]
  | lambda w type body ih =>
      obtain ⟨hw, hbody⟩ := forall_mem_vars_lambda.1 ht
      have hcons : ∀ y ∈ w :: Δ, y ∈ S := List.forall_mem_cons.2 ⟨hw, hΔ⟩
      rw [mapVars, toScoped, toScoped]
      exact congrArg _ (ih hbody hcons (forall_freeVars_lambda hfree))
  | binder op w args ih =>
      obtain ⟨hw, hargs⟩ := forall_mem_vars_binder.1 ht
      have hcons : ∀ y ∈ w :: Δ, y ∈ S := List.forall_mem_cons.2 ⟨hw, hΔ⟩
      have hfix := forall_freeVars_binder hfree
      rw [mapVars, toScoped, toScoped, mapVarsAll_eq_map, toScopedAll_eq_map,
        toScopedAll_eq_map, List.map_map]
      exact congrArg _ (List.map_congr_left fun t hmem =>
        ih t hmem (hargs t hmem) hcons (hfix t hmem))
  | app head args ihHead ihArgs =>
      obtain ⟨hhead, hargs⟩ := forall_mem_vars_app.1 ht
      have ihHead := ihHead hhead hΔ
        fun v hv => hfree v (mem_freeVars_app.2 (.inl hv))
      have hfix : ∀ t ∈ args, ∀ v ∈ t.freeVars, v ∉ Δ → f v = v :=
        fun t hmem v hv => hfree v (mem_freeVars_app.2 (.inr ⟨t, hmem, hv⟩))
      rw [mapVars, toScoped, toScoped, mapVarsAll_eq_map, toScopedAll_eq_map,
        toScopedAll_eq_map, List.map_map, ihHead]
      exact congrArg _ (List.map_congr_left fun t hmem =>
        ihArgs t hmem (hargs t hmem) hΔ (hfix t hmem))

/-- The free variables of a tree are those of the term that no enclosing
binder captures. -/
theorem mem_freeVars_toScoped {Γ : List Var} {t : Term} {x : Var} :
    x ∈ (t.toScoped Γ).freeVars ↔ x ∈ t.freeVars ∧ x ∉ Γ := by
  induction t generalizing Γ with
  | atom a =>
      cases a with
      | var v =>
          rw [toScoped, mem_freeVars_atom, Scoped.ofVar]
          by_cases hv : v ∈ Γ
          · rw [if_pos hv, Scoped.freeVars]
            simp only [List.not_mem_nil, false_iff]
            intro h
            obtain ⟨h, hx⟩ := h
            exact hx (Atom.var.inj h ▸ hv)
          · rw [if_neg hv, Scoped.freeVars, List.mem_singleton]
            constructor
            · intro heq
              subst heq
              exact ⟨rfl, hv⟩
            · intro h
              obtain ⟨h, -⟩ := h
              exact (Atom.var.inj h).symm
      | builtin b => simp [toScoped, Scoped.freeVars]
      | const text stated => simp [toScoped, Scoped.freeVars]
  | lambda w type body ih =>
      rw [toScoped, Scoped.freeVars, ih, mem_freeVars_lambda, List.mem_cons, not_or,
        and_assoc]
  | binder op w args ih =>
      rw [toScoped, Scoped.freeVars, Scoped.freeVarsAll_eq_flatMap, toScopedAll_eq_map,
        List.mem_flatMap, mem_freeVars_binder]
      constructor
      · intro h
        obtain ⟨s, hs, hx⟩ := h
        obtain ⟨t, ht, rfl⟩ := List.mem_map.1 hs
        obtain ⟨hfree, hnot⟩ := (ih t ht).1 hx
        rw [List.mem_cons, not_or] at hnot
        exact ⟨⟨⟨t, ht, hfree⟩, hnot.1⟩, hnot.2⟩
      · intro h
        obtain ⟨⟨⟨t, ht, hfree⟩, hw⟩, hΓ⟩ := h
        refine ⟨_, List.mem_map_of_mem ht, (ih t ht).2 ⟨hfree, ?_⟩⟩
        rw [List.mem_cons, not_or]
        exact ⟨hw, hΓ⟩
  | app head args ihHead ihArgs =>
      rw [toScoped, Scoped.freeVars, Scoped.freeVarsAll_eq_flatMap, toScopedAll_eq_map,
        List.mem_append, List.mem_flatMap, mem_freeVars_app, ihHead]
      constructor
      · intro h
        rcases h with ⟨hfree, hΓ⟩ | ⟨s, hs, hx⟩
        · exact ⟨.inl hfree, hΓ⟩
        · obtain ⟨t, ht, rfl⟩ := List.mem_map.1 hs
          obtain ⟨hfree, hΓ⟩ := (ihArgs t ht).1 hx
          exact ⟨.inr ⟨t, ht, hfree⟩, hΓ⟩
      · intro h
        obtain ⟨hfree | ⟨t, ht, hfree⟩, hΓ⟩ := h
        · exact .inl ⟨hfree, hΓ⟩
        · exact .inr
            ⟨_, List.mem_map_of_mem ht, (ihArgs t ht).2 ⟨hfree, hΓ⟩⟩

end Term

namespace Form

/-- Moving the bound variables of an argument keeps its reading, unless
an index is both bound and free in it. -/
theorem toScoped_moved {f a arg : Form} (harg : (moved f a).result = .ok arg)
    (hsplit : ∀ x ∈ a.term.binders, x ∉ a.term.freeVars) (Γ : List Var) :
    arg.term.toScoped Γ = a.term.toScoped Γ := by
  rw [term_moved harg]
  refine Term.toScoped_mapVars (Δ := []) relocate_inj (fun _ hy => hy)
    (List.forall_mem_nil _) fun v hv _ => ?_
  exact relocate_of_not_mem fun hbound => hsplit v hbound hv

end Form

end LogicalForm
