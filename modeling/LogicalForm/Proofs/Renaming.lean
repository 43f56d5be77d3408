/-
What the move of the bound variables does to the scopes of a form. A
change of variables that keeps the variables of a term apart keeps every
scope: what occurs free occurs free under its new name
(`mem_freeVars_mapVars`). A renumbering is such a change if no bound
variable comes to the place of a variable that stays (`KeepsApart`), and
so is the shift of an argument: the offset lies above every variable of
both operands, so what has moved lies above the offset and what has
stayed lies below.

# Two facts per move

- The binders of a moved argument lie at or above the offset
  (`le_index_of_mem_binders_moved`).
- A free variable that the argument does not bind elsewhere keeps its
  index (`mem_freeVars_moved_of_not_mem_binders`). One that it does bind
  elsewhere moves along with its namesake: the shift goes by the index
  and does not look at scopes.
-/
import LogicalForm.Proofs.Calls

namespace LogicalForm

namespace Term

/-- A renaming acts on the variables of a term one by one. -/
theorem vars_mapVars (f : Var → Var) (t : Term) :
    (t.mapVars f).vars = t.vars.map f := by
  unfold vars
  rw [visits_mapVars, List.map_map, List.map_map]
  rfl

/-- A renaming acts on the binders of a term one by one. -/
theorem binders_mapVars (f : Var → Var) (t : Term) :
    (t.mapVars f).binders = t.binders.map f := by
  unfold binders
  rw [visits_mapVars, List.filter_map, List.map_map, List.map_map]
  rfl

/-- Changes of variables that agree on a term do the same to it. -/
theorem mapVars_congr {f g : Var → Var} {t : Term}
    (h : ∀ v ∈ t.vars, f v = g v) : t.mapVars f = t.mapVars g := by
  induction t with
  | atom a =>
      cases a with
      | var v => rw [mapVars, mapVars, h v (mem_vars_atom.2 rfl)]
      | builtin b => rfl
      | const text stated => rfl
  | lambda v type body ih =>
      obtain ⟨hv, hbody⟩ := forall_mem_vars_lambda.1 h
      rw [mapVars, mapVars, hv, ih hbody]
  | binder op v args ih =>
      obtain ⟨hv, hargs⟩ := forall_mem_vars_binder.1 h
      rw [mapVars, mapVars, hv, mapVarsAll_eq_map, mapVarsAll_eq_map,
        List.map_congr_left fun t ht => ih t ht (hargs t ht)]
  | app head args ihHead ihArgs =>
      obtain ⟨hhead, hargs⟩ := forall_mem_vars_app.1 h
      rw [mapVars, mapVars, ihHead hhead, mapVarsAll_eq_map, mapVarsAll_eq_map,
        List.map_congr_left fun t ht => ihArgs t ht (hargs t ht)]

theorem mapVars_id (t : Term) : t.mapVars id = t := by
  induction t with
  | atom a => cases a <;> rfl
  | lambda v type body ih => rw [mapVars, ih, id]
  | binder op v args ih =>
      rw [mapVars, mapVarsAll_eq_map, List.map_congr_left ih, List.map_id', id]
  | app head args ihHead ihArgs =>
      rw [mapVars, mapVarsAll_eq_map, ihHead, List.map_congr_left ihArgs,
        List.map_id']

/-- Two changes of variables in a row are one. -/
theorem mapVars_mapVars (f g : Var → Var) (t : Term) :
    (t.mapVars f).mapVars g = t.mapVars (g ∘ f) := by
  induction t with
  | atom a => cases a <;> rfl
  | lambda v type body ih => rw [mapVars, mapVars, mapVars, ih, Function.comp]
  | binder op v args ih =>
      simp only [mapVars, mapVarsAll_eq_map, List.map_map]
      exact congrArg _ (List.map_congr_left ih)
  | app head args ihHead ihArgs =>
      simp only [mapVars, mapVarsAll_eq_map, List.map_map, ihHead]
      exact congrArg _ (List.map_congr_left ihArgs)

@[simp] theorem isAtom_mapVars (f : Var → Var) (t : Term) :
    (t.mapVars f).isAtom = t.isAtom := by
  cases t with
  | atom a => cases a <;> rfl
  | _ => rfl

@[simp] theorem isLambda_mapVars (f : Var → Var) (t : Term) :
    (t.mapVars f).isLambda = t.isLambda := by
  cases t with
  | atom a => cases a <;> rfl
  | _ => rfl

section

variable {f : Var → Var} {S : List Var}
  (hinj : ∀ x ∈ S, ∀ y ∈ S, f x = f y → x = y)

include hinj

/-- A change of variables that keeps them apart keeps free occurrences
free and bound ones bound. -/
theorem mem_freeVars_mapVars {t : Term} (ht : ∀ y ∈ t.vars, y ∈ S) {x : Var}
    (hx : x ∈ S) : f x ∈ (t.mapVars f).freeVars ↔ x ∈ t.freeVars := by
  have exists_iff {ts : List Term} (hts : ∀ t ∈ ts, ∀ y ∈ t.vars, y ∈ S)
      (ih : ∀ t ∈ ts, (∀ y ∈ t.vars, y ∈ S) →
        (f x ∈ (t.mapVars f).freeVars ↔ x ∈ t.freeVars)) :
      (∃ t ∈ ts.map (mapVars f), f x ∈ t.freeVars)
        ↔ ∃ t ∈ ts, x ∈ t.freeVars := by
    constructor
    · intro h
      obtain ⟨u, hu, hfx⟩ := h
      obtain ⟨t, ht, rfl⟩ := List.mem_map.1 hu
      exact ⟨t, ht, (ih t ht (hts t ht)).1 hfx⟩
    · intro h
      obtain ⟨t, ht, hxt⟩ := h
      exact ⟨t.mapVars f, List.mem_map_of_mem ht, (ih t ht (hts t ht)).2 hxt⟩
  have ne_iff {w : Var} (hw : w ∈ S) : f x ≠ f w ↔ x ≠ w := by
    refine not_congr ⟨hinj x hx w hw, ?_⟩
    intro heq
    subst heq
    rfl
  induction t with
  | atom a =>
      cases a with
      | var v =>
          have hv : v ∈ S := ht v (mem_vars_atom.2 rfl)
          rw [mapVars, mem_freeVars_atom, mem_freeVars_atom]
          constructor
          · intro h
            have hfv : f x = f v := (Atom.var.inj h).symm
            rw [hinj x hx v hv hfv]
          · intro h
            rw [Atom.var.inj h]
      | builtin b => simp [mapVars]
      | const text stated => simp [mapVars]
  | lambda w type body ih =>
      obtain ⟨hw, hbody⟩ := forall_mem_vars_lambda.1 ht
      have hiff : f x ∈ (body.mapVars f).freeVars ↔ x ∈ body.freeVars :=
        ih hbody
      rw [mapVars, mem_freeVars_lambda, mem_freeVars_lambda, hiff, ne_iff hw]
  | binder op w args ih =>
      obtain ⟨hw, hargs⟩ := forall_mem_vars_binder.1 ht
      rw [mapVars, mapVarsAll_eq_map, mem_freeVars_binder, mem_freeVars_binder,
        exists_iff hargs ih, ne_iff hw]
  | app head args ihHead ihArgs =>
      obtain ⟨hhead, hargs⟩ := forall_mem_vars_app.1 ht
      have hiff : f x ∈ (head.mapVars f).freeVars ↔ x ∈ head.freeVars :=
        ihHead hhead
      rw [mapVars, mapVarsAll_eq_map, mem_freeVars_app, mem_freeVars_app,
        exists_iff hargs ihArgs, hiff]

end

end Term

namespace Form

/-- A renumbered form has the shifted term, and its context is registered
from the moved entries. -/
theorem renumber_eq_ok {a arg : Form} {offset : Nat}
    (h : (a.renumber offset).result = .ok arg) :
    arg.term = a.term.mapVars (Var.shiftIn a.boundVars offset)
      ∧ arg.context = (a.context.moved a.boundVars offset).register arg.term := by
  rw [result_renumber] at h
  split at h
  · cases h
  · split at h
    · cases h
    · rename_i c hshift
      obtain ⟨hterm, hcontext⟩ := result_ofTerm_eq_ok h
      rw [hcontext, hterm, Context.shift_eq_ok hshift]
      exact ⟨rfl, rfl⟩

-- ============================================================= any offset

/-- Where renumbering by the offset moves a variable. -/
def relocateBy (f : Form) (offset : Nat) : Var → Var :=
  Var.shiftIn f.boundVars offset

/-- No bound variable moves to the place of a variable that stays. -/
def KeepsApart (f : Form) (offset : Nat) : Prop :=
  ∀ x ∈ f.term.binders, ∀ y ∈ f.term.vars, y ∉ f.term.binders →
    x.shift offset ≠ y

section

variable {f r : Form} {offset : Nat}

/-- A bound variable moves by the offset. -/
theorem relocateBy_of_mem {x : Var} (h : x ∈ f.term.binders) :
    f.relocateBy offset x = x.shift offset :=
  Var.shiftIn_of_mem (Term.mem_boundVars.2 h)

theorem relocateBy_of_not_mem {x : Var} (h : x ∉ f.term.binders) :
    f.relocateBy offset x = x :=
  Var.shiftIn_of_not_mem fun hx => h (Term.mem_boundVars.1 hx)

/-- An offset above all variables of the form keeps them apart. -/
theorem keepsApart_of_le (h : f.freshIndex ≤ offset) : f.KeepsApart offset := by
  intro x _ y hy _ heq
  have hlt := index_lt_freshIndex hy
  rw [← heq, Var.index_shift] at hlt
  omega

/-- Such a renumbering keeps the variables of the form apart. -/
theorem relocateBy_inj (hapart : f.KeepsApart offset) :
    ∀ x ∈ f.term.vars, ∀ y ∈ f.term.vars,
      f.relocateBy offset x = f.relocateBy offset y → x = y := by
  intro x hx y hy h
  by_cases hxb : x ∈ f.term.binders
  · by_cases hyb : y ∈ f.term.binders
    · rw [relocateBy_of_mem hxb, relocateBy_of_mem hyb] at h
      exact Var.shift_injective h
    · rw [relocateBy_of_mem hxb, relocateBy_of_not_mem hyb] at h
      exact absurd h (hapart x hxb y hy hyb)
  · by_cases hyb : y ∈ f.term.binders
    · rw [relocateBy_of_not_mem hxb, relocateBy_of_mem hyb] at h
      exact absurd h.symm (hapart y hyb x hx hxb)
    · rwa [relocateBy_of_not_mem hxb, relocateBy_of_not_mem hyb] at h

/-- Renumbering moves all binders by the offset. -/
theorem mem_binders_renumbered (hr : (f.renumber offset).result = .ok r)
    {x : Var} :
    x ∈ r.term.binders ↔ ∃ y ∈ f.term.binders, x = y.shift offset := by
  rw [(renumber_eq_ok hr).1, Term.binders_mapVars, List.mem_map]
  constructor
  · rintro ⟨y, hy, rfl⟩
    exact ⟨y, hy, relocateBy_of_mem hy⟩
  · rintro ⟨y, hy, rfl⟩
    exact ⟨y, hy, relocateBy_of_mem hy⟩

/-- After renumbering nothing is bound below the offset. -/
theorem le_index_of_mem_binders_renumbered
    (hr : (f.renumber offset).result = .ok r) {x : Var}
    (hx : x ∈ r.term.binders) : offset ≤ x.index := by
  obtain ⟨y, -, rfl⟩ := (mem_binders_renumbered hr).1 hx
  rw [Var.index_shift]
  omega

/-- The variables of a renumbered form are those of the form, moved. -/
theorem mem_vars_renumbered (hr : (f.renumber offset).result = .ok r)
    {x : Var} :
    x ∈ r.term.vars ↔ ∃ y ∈ f.term.vars, x = f.relocateBy offset y := by
  rw [(renumber_eq_ok hr).1, Term.vars_mapVars, List.mem_map]
  exact exists_congr fun y => and_congr_right fun _ => eq_comm

end

-- ================================================== past two operands

/-- The offset by which an argument moves. -/
def offset (f a : Form) : Nat := max f.freshIndex a.freshIndex

/-- Where a variable of the argument moves. -/
def relocate (f a : Form) : Var → Var := Var.shiftIn a.boundVars (offset f a)

/-- The term of a moved argument is that of the argument, renamed. -/
theorem term_moved {f a arg : Form} (h : (moved f a).result = .ok arg) :
    arg.term = a.term.mapVars (relocate f a) :=
  (renumber_eq_ok h).1

/-- A moved argument has the moved context, registered for its term. -/
theorem context_moved {f a arg : Form} (h : (moved f a).result = .ok arg) :
    arg.context
      = (a.context.moved a.boundVars (offset f a)).register arg.term :=
  (renumber_eq_ok h).2

theorem index_lt_offset_left {f a : Form} {x : Var} (h : x ∈ f.term.vars) :
    x.index < offset f a :=
  Nat.lt_of_lt_of_le (index_lt_freshIndex h) (Nat.le_max_left ..)

/-- The offset of an application lies above the parameter and the body. -/
theorem index_lt_offset_of_lambda {f a : Form} {v : Var} {type : Ty}
    {body : Term} (hterm : f.term = .lambda v type body) :
    v.index < offset f a ∧ ∀ y ∈ body.vars, y.index < offset f a := by
  have hlt : ∀ y ∈ f.term.vars, y.index < offset f a :=
    fun y hy => index_lt_offset_left hy
  rw [hterm] at hlt
  exact Term.forall_mem_vars_lambda.1 hlt

theorem index_lt_offset_right {f a : Form} {x : Var} (h : x ∈ a.term.vars) :
    x.index < offset f a :=
  Nat.lt_of_lt_of_le (index_lt_freshIndex h) (Nat.le_max_right ..)

/-- The move keeps the variables of the argument apart. -/
theorem relocate_inj {f a : Form} :
    ∀ x ∈ a.term.vars, ∀ y ∈ a.term.vars,
      relocate f a x = relocate f a y → x = y :=
  relocateBy_inj (keepsApart_of_le (Nat.le_max_right ..))

/-- A bound variable of the argument moves by the offset. -/
theorem relocate_of_mem {f a : Form} {x : Var} (h : x ∈ a.term.binders) :
    relocate f a x = x.shift (offset f a) :=
  relocateBy_of_mem h

theorem relocate_of_not_mem {f a : Form} {x : Var} (h : x ∉ a.term.binders) :
    relocate f a x = x :=
  relocateBy_of_not_mem h

/-- What a moved argument binds lies past both operands. -/
theorem le_index_of_mem_binders_moved {f a arg : Form}
    (h : (moved f a).result = .ok arg) {x : Var} (hx : x ∈ arg.term.binders) :
    offset f a ≤ x.index :=
  le_index_of_mem_binders_renumbered h hx

/-- The free variables of a moved argument. -/
theorem mem_freeVars_moved {f a arg : Form} (h : (moved f a).result = .ok arg)
    {x : Var} :
    x ∈ arg.term.freeVars ↔ ∃ y ∈ a.term.freeVars, x = relocate f a y := by
  rw [term_moved h]
  constructor
  · intro hx
    have hvar := Term.mem_vars_of_mem_freeVars hx
    rw [Term.vars_mapVars] at hvar
    obtain ⟨y, hy, rfl⟩ := List.mem_map.1 hvar
    exact ⟨y, (Term.mem_freeVars_mapVars relocate_inj (fun _ hz => hz) hy).1 hx,
      rfl⟩
  · intro h
    obtain ⟨y, hy, rfl⟩ := h
    exact (Term.mem_freeVars_mapVars relocate_inj (fun _ hz => hz)
      (Term.mem_vars_of_mem_freeVars hy)).2 hy

/-- A free variable that is bound nowhere in the argument stays free
under its own index. -/
theorem mem_freeVars_moved_of_not_mem_binders {f a arg : Form}
    (h : (moved f a).result = .ok arg) {x : Var} (hx : x ∈ a.term.freeVars)
    (hbound : x ∉ a.term.binders) : x ∈ arg.term.freeVars :=
  (mem_freeVars_moved h).2 ⟨x, hx, (relocate_of_not_mem hbound).symm⟩

end Form

end LogicalForm
