/-
Renumbering at fresh offsets. Above all variables of a form any offset
keeps them apart, so renumbering is a renaming there. It is refused if
the largest bound index comes too high and for nothing else, and if it
succeeds, term, type, context and fresh index of the result are told by
the form (`renumbering_moves_bound_variables`).

# Twice

What was free stays below the first offset and what was bound lies at or
above it, so a second renumbering keeps variables apart whatever its
offset is, also where old and new places overlap (`keepsApart_of_renumber`).
Two renumberings therefore rename like one by the sum
(`relocateBy_relocateBy`), they are refused alike
(`fits_renumbered_iff`), and they end in the same form
(`renumberings_add`).
-/
import LogicalForm.Proofs.Relocation

namespace LogicalForm

-- ===================================================== ascending shifts

namespace Var

variable {offset : Nat}

/-- Moving a list of variables by one offset keeps its order. -/
theorem insertAscending_map_shift (v : Var) (ws : List Var) :
    insertAscending (v.shift offset) (ws.map (shift offset))
      = (insertAscending v ws).map (shift offset) := by
  induction ws with
  | nil => rfl
  | cons w ws ih =>
      have hlt : (v.shift offset).index < (w.shift offset).index
          ↔ v.index < w.index := by
        rw [index_shift, index_shift]
        omega
      have heq : v.shift offset = w.shift offset ↔ v = w :=
        ⟨shift_injective, congrArg _⟩
      rw [List.map_cons, insertAscending, insertAscending]
      by_cases hvw : v.index < w.index
      · rw [if_pos hvw, if_pos (hlt.2 hvw)]
        rfl
      · rw [if_neg hvw, if_neg fun h => hvw (hlt.1 h)]
        by_cases hsame : v = w
        · rw [if_pos hsame, if_pos (heq.2 hsame)]
          rfl
        · rw [if_neg hsame, if_neg fun h => hsame (heq.1 h), ih]
          rfl

/-- A shift keeps the order. -/
theorem ascending_map_shift (vs : List Var) :
    ascending (vs.map (shift offset)) = (ascending vs).map (shift offset) := by
  induction vs with
  | nil => rfl
  | cons v vs ih =>
      rw [List.map_cons, ascending, ascending, ih, insertAscending_map_shift]

end Var

namespace Form

variable {f r s : Form} {offset a b : Nat}

-- ========================================================= fresh offsets

/-- The largest index that the form binds. -/
def largestBound? (f : Form) : Option Nat := (f.boundVars.map Var.index).max?

/-- The largest bound index is the index of a binder, and no binder has a
larger one. -/
theorem largestBound?_eq_some {m : Nat} :
    f.largestBound? = some m
      ↔ (∃ x ∈ f.term.binders, x.index = m)
        ∧ ∀ x ∈ f.term.binders, x.index ≤ m := by
  unfold largestBound? boundVars
  rw [List.max?_eq_some_iff]
  simp only [List.mem_map, Term.mem_boundVars, forall_exists_index, and_imp,
    forall_apply_eq_imp_iff₂]

/-- A form binds nothing, or it has a largest bound index. -/
theorem boundVars_eq_nil_or (f : Form) :
    f.boundVars = [] ∨ ∃ m, f.largestBound? = some m := by
  unfold largestBound?
  cases f.boundVars with
  | nil => exact .inl rfl
  | cons x xs => exact .inr ⟨_, List.max?_cons⟩

/-- Where nothing is bound, nothing has to fit. -/
theorem fits_of_nil (h : f.boundVars = []) : f.Fits offset := by
  intro x hx
  rw [← Term.mem_boundVars] at hx
  unfold boundVars at h
  rw [h] at hx
  cases hx

/-- The largest index decides whether all that moves fits. -/
theorem fits_iff_of_largest {m : Nat} (hm : f.largestBound? = some m) :
    f.Fits offset ↔ m + offset < Var.maxIndex := by
  obtain ⟨⟨x, hx, rfl⟩, hle⟩ := largestBound?_eq_some.1 hm
  constructor
  · intro h
    exact h x hx
  · intro h y hy
    have hyx := hle y hy
    omega

/-- All that moves fits if the largest bound index does. -/
theorem fits_iff : f.Fits offset
    ↔ f.boundVars = [] ∨ ∃ m, f.largestBound? = some m
        ∧ m + offset < Var.maxIndex := by
  constructor
  · intro h
    rcases f.boundVars_eq_nil_or with hnil | ⟨m, hm⟩
    · exact .inl hnil
    · exact .inr ⟨m, hm, (fits_iff_of_largest hm).1 h⟩
  · rintro (hnil | ⟨m, hm, hlt⟩)
    · exact fits_of_nil hnil
    · exact (fits_iff_of_largest hm).2 hlt

/-- What a renumbering that succeeds has made of a form. -/
structure Renumbered (f : Form) (offset : Nat) (r : Form) : Prop where
  type : r.type = f.type
  /-- Every occurrence of a bound variable has moved, and no other. -/
  term : r.term = f.term.mapVars (f.relocateBy offset)
  injective : ∀ x ∈ f.term.vars, ∀ y ∈ f.term.vars,
    f.relocateBy offset x = f.relocateBy offset y → x = y
  /-- The entries of the context have moved along. -/
  context : r.context = f.context.mapVars (f.relocateBy offset)
  boundVars : r.boundVars = f.boundVars.map (Var.shift offset)
  above : ∀ x ∈ r.boundVars, offset ≤ x.index
  next : r.freshIndex = match f.largestBound? with
    | none => f.freshIndex
    | some m => m + offset + 1

section

variable (hr : (f.renumber offset).result = .ok r)

include hr

/-- The bound variables of a renumbered form are the moved ones, in the same
order. -/
theorem boundVars_renumbered :
    r.boundVars = f.boundVars.map (Var.shift offset) := by
  have hmoved : f.term.binders.map (f.relocateBy offset)
      = f.term.binders.map (Var.shift offset) :=
    List.map_congr_left fun x hx => relocateBy_of_mem hx
  unfold boundVars Term.boundVars
  rw [(renumber_eq_ok hr).1, Term.binders_mapVars, ← Var.ascending_map_shift]
  exact congrArg Var.ascending hmoved

/-- Where nothing is bound, the fresh index stays. -/
theorem freshIndex_renumbered_of_nil (hnil : f.boundVars = []) :
    r.freshIndex = f.freshIndex := by
  have hstays : f.relocateBy offset = id := by
    unfold relocateBy
    rw [hnil]
    rfl
  have hterm : r.term = f.term.mapVars (f.relocateBy offset) :=
    (renumber_eq_ok hr).1
  rw [hstays, Term.mapVars_id] at hterm
  unfold freshIndex
  rw [hterm]

/-- Above a fresh offset the largest bound variable comes last. -/
theorem freshIndex_renumbered_of_largest {m : Nat}
    (hoffset : f.freshIndex ≤ offset) (hm : f.largestBound? = some m) :
    r.freshIndex = m + offset + 1 := by
  obtain ⟨⟨x, hx, rfl⟩, hle⟩ := largestBound?_eq_some.1 hm
  refine Nat.le_antisymm ?_ ?_
  · refine Term.freshIndex_le_iff.2 fun w hw => ?_
    obtain ⟨v, hv, rfl⟩ := (mem_vars_renumbered hr).1 hw
    by_cases hbound : v ∈ f.term.binders
    · have hvx := hle v hbound
      rw [relocateBy_of_mem hbound, Var.index_shift]
      omega
    · have hlt := index_lt_freshIndex hv
      rw [relocateBy_of_not_mem hbound]
      omega
  · have hmem : x.shift offset ∈ r.term.binders :=
      (mem_binders_renumbered hr).2 ⟨x, hx, rfl⟩
    have hlt := index_lt_freshIndex (Term.mem_vars_of_mem_binders hmem)
    rw [Var.index_shift] at hlt
    exact hlt

/-- A renumbering at a fresh offset that succeeds has the properties listed.
-/
theorem renumbered_of_ok (hoffset : f.freshIndex ≤ offset) :
    Renumbered f offset r := by
  have hapart : f.KeepsApart offset := keepsApart_of_le hoffset
  obtain ⟨hterm, hcontext, htype⟩ := renumber_relocates hapart hr
  refine ⟨htype, hterm, relocateBy_inj hapart, hcontext,
    boundVars_renumbered hr, fun x hx => ?_, ?_⟩
  · exact le_index_of_mem_binders_renumbered hr (Term.mem_boundVars.1 hx)
  · rcases f.boundVars_eq_nil_or with hnil | ⟨m, hm⟩
    · rw [largestBound?, hnil]
      exact freshIndex_renumbered_of_nil hr hnil
    · rw [hm]
      exact freshIndex_renumbered_of_largest hr hoffset hm

end

/-- At an offset above its variables a form is renumbered exactly if its
largest bound index stays below the largest possible one, nothing else
goes wrong, and term, type, context and fresh index of the result are
those of the form with its bound variables moved. -/
theorem renumbering_moves_bound_variables (hoffset : f.freshIndex ≤ offset) :
    ((∃ r, (f.renumber offset).result = .ok r)
        ↔ f.boundVars = [] ∨ ∃ m, f.largestBound? = some m
            ∧ m + offset < Var.maxIndex)
      ∧ (∀ e, (f.renumber offset).result = .error e →
          ∃ v n, e = .variableOverflow v n)
      ∧ ∀ r, (f.renumber offset).result = .ok r → Renumbered f offset r := by
  have hapart : f.KeepsApart offset := keepsApart_of_le hoffset
  refine ⟨?_, fun e he => overflow_of_renumber hapart he,
    fun r hr => renumbered_of_ok hr hoffset⟩
  rw [← fits_iff]
  constructor
  · rintro ⟨r, hr⟩
    exact fits_of_renumber hr
  · exact exists_renumber hapart

/-- A free variable stays, and the last offset at which the larger of two
bound variables has an index above it is the last one that is taken. -/
theorem quantifier_moves_below_the_last_index :
    ∃ f, (parse (Context.empty.insertVar ⟨5⟩ .entity)
          "(lambda $0 e (exists $2 (loves:<e,<e,t>> $0 $5)))").result = .ok f
      ∧ f.freshIndex ≤ 4294967292
      ∧ (∃ r, (f.renumber 4294967292).result = .ok r
        ∧ r.render .word = "(lambda $4294967292 e (exists $4294967294 "
          ++ "(loves:<e,<e,t>> $4294967292 $5)))"
        ∧ Renumbered f 4294967292 r)
      ∧ ¬ ∃ r, (f.renumber 4294967293).result = .ok r := by
  have hrun : ∃ f, (parse (Context.empty.insertVar ⟨5⟩ .entity)
          "(lambda $0 e (exists $2 (loves:<e,<e,t>> $0 $5)))").result = .ok f
      ∧ f.freshIndex ≤ 4294967292 ∧ f.largestBound? = some 2
      ∧ ∃ r, (f.renumber 4294967292).result = .ok r
        ∧ r.render .word = "(lambda $4294967292 e (exists $4294967294 "
          ++ "(loves:<e,<e,t>> $4294967292 $5)))" := by
    decide +kernel
  obtain ⟨f, hf, hfresh, hlargest, r, hr, hdisplay⟩ := hrun
  have hnext : f.freshIndex ≤ 4294967293 := Nat.le_succ_of_le hfresh
  refine ⟨f, hf, hfresh, ⟨r, hr, hdisplay, ?_⟩, fun hlast => ?_⟩
  · exact (renumbering_moves_bound_variables hfresh).2.2 r hr
  · rcases (renumbering_moves_bound_variables hnext).1.1 hlast
      with hnil | ⟨m, hm, hlt⟩
    · rw [largestBound?, hnil] at hlargest
      cases hlargest
    · rw [hlargest] at hm
      cases hm
      exact absurd hlt (by decide)

-- ================================================================ addition

section

variable (hoffset : f.freshIndex ≤ a) (hr : (f.renumber a).result = .ok r)

include hoffset hr

/-- What was free stays below the offset, so a further move of what was
bound cannot meet it. -/
theorem keepsApart_of_renumber : r.KeepsApart b := by
  intro x hx y hy hnot heq
  obtain ⟨u, -, rfl⟩ := (mem_binders_renumbered hr).1 hx
  obtain ⟨v, hv, rfl⟩ := (mem_vars_renumbered hr).1 hy
  by_cases hbound : v ∈ f.term.binders
  · rw [relocateBy_of_mem hbound] at hnot
    exact hnot ((mem_binders_renumbered hr).2 ⟨v, hbound, rfl⟩)
  · -- it has stayed below `a`, and what moves again starts from there
    have hlt := index_lt_freshIndex hv
    have hindex := congrArg Var.index heq
    rw [relocateBy_of_not_mem hbound, Var.index_shift, Var.index_shift] at hindex
    omega

/-- A variable that is moved twice goes where the sum of the offsets takes
it. -/
theorem relocateBy_relocateBy {v : Var} (hv : v ∈ f.term.vars) :
    r.relocateBy b (f.relocateBy a v) = f.relocateBy (a + b) v := by
  by_cases hbound : v ∈ f.term.binders
  · have hmem : v.shift a ∈ r.term.binders :=
      (mem_binders_renumbered hr).2 ⟨v, hbound, rfl⟩
    rw [relocateBy_of_mem hbound, relocateBy_of_mem hbound,
      relocateBy_of_mem hmem, Var.shift, Var.shift, Var.shift, Nat.add_assoc]
  · have hnot : v ∉ r.term.binders := by
      intro hmem
      obtain ⟨u, -, rfl⟩ := (mem_binders_renumbered hr).1 hmem
      have hlt := index_lt_freshIndex hv
      rw [Var.index_shift] at hlt
      omega
    rw [relocateBy_of_not_mem hbound, relocateBy_of_not_mem hbound,
      relocateBy_of_not_mem hnot]

omit hoffset in
/-- After one renumbering there is room for a second one if there is room
for both at once. -/
theorem fits_renumbered_iff : r.Fits b ↔ f.Fits (a + b) := by
  constructor
  · intro h x hx
    have hlt := h _ ((mem_binders_renumbered hr).2 ⟨x, hx, rfl⟩)
    rw [Var.index_shift] at hlt
    omega
  · intro h x hx
    obtain ⟨y, hy, rfl⟩ := (mem_binders_renumbered hr).1 hx
    have hlt := h y hy
    rw [Var.index_shift]
    omega

/-- Both ways end in the same form. -/
theorem eq_of_renumber_twice (hs : (r.renumber b).result = .ok s) {u : Form}
    (hu : (f.renumber (a + b)).result = .ok u) : s = u := by
  have hapart : f.KeepsApart a := keepsApart_of_le hoffset
  have hboth : f.KeepsApart (a + b) := keepsApart_of_le (by omega)
  have hagain : r.KeepsApart b := keepsApart_of_renumber hoffset hr
  obtain ⟨hrterm, hrcontext, -⟩ := renumber_relocates hapart hr
  obtain ⟨hsterm, hscontext, -⟩ := renumber_relocates hagain hs
  obtain ⟨huterm, hucontext, -⟩ := renumber_relocates hboth hu
  refine ext_vars ?_ ?_ fun w hw => ?_
  · rw [hsterm, hrterm, huterm, Term.mapVars_mapVars]
    exact Term.mapVars_congr fun v hv => relocateBy_relocateBy hoffset hr hv
  · rw [hscontext, hrcontext, hucontext]
    rfl
  · obtain ⟨x, hx, rfl⟩ := (mem_vars_renumbered hs).1 hw
    obtain ⟨v, hv, rfl⟩ := (mem_vars_renumbered hr).1 hx
    rw [var?_renumbered hagain hs hx, var?_renumbered hapart hr hv,
      relocateBy_relocateBy hoffset hr hv, var?_renumbered hboth hu hv]

end

/-- The offset 0 moves nothing and keeps all variables apart. -/
theorem keepsApart_zero (f : Form) : f.KeepsApart 0 := by
  intro x hx y _ hnot heq
  exact hnot (heq ▸ hx)

/-- An offset of 0 moves nothing. -/
theorem renumber_zero (f : Form) : (f.renumber 0).result = .ok f := by
  have hapart := keepsApart_zero f
  have hstays : f.relocateBy 0 = id := by
    funext v
    by_cases hv : v ∈ f.term.binders
    · exact relocateBy_of_mem hv
    · exact relocateBy_of_not_mem hv
  have hfits : f.Fits 0 := fun x hx =>
    f.index_lt x (Term.mem_vars_of_mem_binders hx)
  obtain ⟨r, hr⟩ := exists_renumber hapart hfits
  obtain ⟨hterm, hcontext, -⟩ := renumber_relocates hapart hr
  rw [hstays, Term.mapVars_id] at hterm
  rw [hr, ext_vars hterm (by rw [hcontext]; rfl) fun v hv => ?_]
  rw [hterm] at hv
  have hvar := var?_renumbered hapart hr hv
  rwa [hstays] at hvar

/-- Renumbering by 0 changes nothing. From an offset above the variables
of the form, renumbering twice is renumbering once by the sum: each
succeeds with a form exactly if the other does. -/
theorem renumberings_add (f : Form) :
    (f.renumber 0).result = .ok f
      ∧ ∀ a b, f.freshIndex ≤ a → ∀ s,
          (f.renumber a >>= fun r => r.renumber b).result = .ok s
            ↔ (f.renumber (a + b)).result = .ok s := by
  refine ⟨renumber_zero f, fun a b hoffset s => ?_⟩
  have hapart : f.KeepsApart a := keepsApart_of_le hoffset
  have hboth : f.KeepsApart (a + b) := keepsApart_of_le (by omega)
  constructor
  · intro h
    obtain ⟨r, hr, hs⟩ := Traced.result_bind_eq_ok h
    have hfits : f.Fits (a + b) :=
      (fits_renumbered_iff hr).1 (fits_of_renumber hs)
    obtain ⟨u, hu⟩ := exists_renumber hboth hfits
    rw [hu, eq_of_renumber_twice hoffset hr hs hu]
  · intro h
    -- what fits after the whole way fits after the first part of it
    have hfits : f.Fits a := by
      intro x hx
      have hlt := fits_of_renumber h x hx
      omega
    obtain ⟨r, hr⟩ := exists_renumber hapart hfits
    obtain ⟨u, hu⟩ := exists_renumber (keepsApart_of_renumber (b := b) hoffset hr)
      ((fits_renumbered_iff hr).2 (fits_of_renumber h))
    rw [Traced.result_bind, hr]
    show (r.renumber b).result = .ok s
    rw [hu, eq_of_renumber_twice hoffset hr hu h]

/-- The second renumbering takes one bound variable to the place that the
other one leaves. -/
theorem overlapping_renumberings_add :
    ∃ f, (parse .empty
          "(exists $0 (and (p:<e,t> $5) (lambda $1 e $0)))").result = .ok f
      ∧ f.freshIndex ≤ 6 ∧ (f.renumber 0).result = .ok f
      ∧ ∃ s, (f.renumber 6 >>= fun r => r.renumber 1).result = .ok s
        ∧ (f.renumber 7).result = .ok s
        ∧ s.render .word
          = "(exists $7 (and (p:<e,t> $5) (lambda $8 e $7)))" := by
  have hrun : ∃ f, (parse .empty
          "(exists $0 (and (p:<e,t> $5) (lambda $1 e $0)))").result = .ok f
      ∧ f.freshIndex ≤ 6
      ∧ ∃ s, (f.renumber 6 >>= fun r => r.renumber 1).result = .ok s
        ∧ s.render .word
          = "(exists $7 (and (p:<e,t> $5) (lambda $8 e $7)))" := by
    decide +kernel
  obtain ⟨f, hf, hfresh, s, hs, hdisplay⟩ := hrun
  exact ⟨f, hf, hfresh, (renumberings_add f).1, s, hs,
    ((renumberings_add f).2 6 1 hfresh s).1 hs, hdisplay⟩

end Form

end LogicalForm
