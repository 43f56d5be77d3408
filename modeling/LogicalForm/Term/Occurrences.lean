/-
The occurrences of variables in a term, in the order in which its display
mentions them: the variable of a lambda or of a binder before what stands
in its scope, a head before its arguments, arguments from the first to
the last. Every question about the variables of a term is asked of this
one list: which variables occur, which are bound somewhere, and which
index is the first that lies above them all (`freshIndex_le_iff`).
-/
import LogicalForm.Term.Basic

namespace LogicalForm

-- =============================================================== visits

/-- Where a variable occurs: introduced by a lambda with its stated type,
introduced by a binder, or by itself as an atom. -/
inductive Site where
  | lambda (type : Ty)
  | binder
  | atom
  deriving DecidableEq, Repr

/-- The variable is introduced at such a site. -/
def Site.binds : Site → Bool
  | lambda _ | binder => true
  | atom => false

/-- One occurrence of a variable. -/
structure Visit where
  site : Site
  var : Var
  deriving DecidableEq, Repr

/-- The same place with another variable. -/
def Visit.mapVar (f : Var → Var) (o : Visit) : Visit := ⟨o.site, f o.var⟩

namespace Term

mutual
/-- The occurrences of variables, in the order of the display. -/
def visits : Term → List Visit
  | .atom (.var v) => [⟨.atom, v⟩]
  | .atom _ => []
  | .lambda v type body => ⟨.lambda type, v⟩ :: visits body
  | .binder _ v args => ⟨.binder, v⟩ :: visitsAll args
  | .app head args => visits head ++ visitsAll args
/-- The occurrences of variables in a list of terms. -/
def visitsAll : List Term → List Visit
  | [] => []
  | t :: ts => visits t ++ visitsAll ts
end

@[simp] theorem visitsAll_eq_flatMap (ts : List Term) :
    visitsAll ts = ts.flatMap visits := by
  induction ts with
  | nil => rfl
  | cons t ts ih => rw [visitsAll, ih, List.flatMap_cons]

/-- The occurrence found first is one of that variable. -/
theorem var_of_find? {t : Term} {v : Var} {o : Visit}
    (h : t.visits.find? (fun o => o.var = v) = some o) : o.var = v := by
  simpa using List.find?_some h

/-- A change of variables keeps every place. -/
theorem visits_mapVars (f : Var → Var) (t : Term) :
    (t.mapVars f).visits = t.visits.map (Visit.mapVar f) := by
  induction t with
  | atom a => cases a <;> simp [mapVars, visits, Visit.mapVar]
  | lambda v type body ih => simp [mapVars, visits, Visit.mapVar, ih]
  | binder op v args ih =>
    simp only [mapVars, visits, visitsAll_eq_flatMap, mapVarsAll_eq_map,
      List.map_cons, List.map_flatMap, List.flatMap_map]
    rw [List.flatMap_def, List.flatMap_def, List.map_congr_left ih]
    rfl
  | app head args ihHead ihArgs =>
    simp only [mapVars, visits, visitsAll_eq_flatMap, mapVarsAll_eq_map,
      List.map_append, List.map_flatMap, List.flatMap_map, ihHead]
    rw [List.flatMap_def, List.flatMap_def, List.map_congr_left ihArgs]

/-- The variables that occur, in order and with repetitions. -/
def vars (t : Term) : List Var := t.visits.map Visit.var

/-- The variables that a lambda or a binder introduces, in order and with
repetitions. -/
def binders (t : Term) : List Var :=
  (t.visits.filter (·.site.binds)).map Visit.var

end Term

-- =========================================================== fresh index

/-- The first index above every index of the list, which is 0 for the
empty list. -/
def Var.above : List Var → Nat
  | [] => 0
  | v :: vs => max (v.index + 1) (above vs)

/-- The index above a list is the least one that bounds all of its
variables. -/
theorem Var.above_le_iff {vs : List Var} {n : Nat} :
    Var.above vs ≤ n ↔ ∀ v ∈ vs, v.index < n := by
  induction vs with
  | nil => simp [above]
  | cons v vs ih =>
    rw [above, Nat.max_le, ih, List.forall_mem_cons]
    exact Iff.rfl

/-- The first index above the index of every variable of the term. -/
def Term.freshIndex (t : Term) : Nat := Var.above t.vars

/-- The fresh index is the least bound on the variables of the term. -/
theorem Term.freshIndex_le_iff {t : Term} {n : Nat} :
    t.freshIndex ≤ n ↔ ∀ v ∈ t.vars, v.index < n :=
  Var.above_le_iff

-- ======================================================== ascending order

namespace Var

/-- Puts a variable into an ascending list; a variable that is in the
list already is not repeated. -/
def insertAscending (v : Var) : List Var → List Var
  | [] => [v]
  | w :: ws =>
    if v.index < w.index then v :: w :: ws
    else if v = w then w :: ws
    else w :: insertAscending v ws

/-- The members of a list in ascending order, each once. -/
def ascending : List Var → List Var
  | [] => []
  | v :: vs => insertAscending v (ascending vs)

/-- An insertion adds exactly the variable. -/
theorem mem_insertAscending {v w : Var} {ws : List Var} :
    w ∈ insertAscending v ws ↔ w = v ∨ w ∈ ws := by
  induction ws with
  | nil => simp [insertAscending]
  | cons x xs ih =>
    rw [insertAscending]
    split
    · exact List.mem_cons
    · split
      · rename_i h
        subst h
        simp
      · rw [List.mem_cons, ih, List.mem_cons]
        constructor
        · rintro (h | h | h)
          · exact .inr (.inl h)
          · exact .inl h
          · exact .inr (.inr h)
        · rintro (h | h | h)
          · exact .inr (.inl h)
          · exact .inl h
          · exact .inr (.inr h)

/-- Sorting a list of variables keeps its elements. -/
@[simp] theorem mem_ascending {w : Var} {vs : List Var} :
    w ∈ ascending vs ↔ w ∈ vs := by
  induction vs with
  | nil => rfl
  | cons v vs ih => rw [ascending, mem_insertAscending, ih, List.mem_cons]

/-- An insertion keeps the order strict, since a variable that is there is
not put in again. -/
theorem ascending_insertAscending (v : Var) {ws : List Var}
    (h : ws.Pairwise fun x y => x.index < y.index) :
    (insertAscending v ws).Pairwise fun x y => x.index < y.index := by
  induction ws with
  | nil => exact List.pairwise_singleton _ _
  | cons w ws ih =>
    obtain ⟨hw, hws⟩ := List.pairwise_cons.1 h
    rw [insertAscending]
    split
    · rename_i hlt
      refine List.pairwise_cons.2 ⟨fun x hx => ?_, h⟩
      rcases List.mem_cons.1 hx with rfl | hx
      · exact hlt
      · exact Nat.lt_trans hlt (hw x hx)
    · split
      · exact h
      · rename_i hlt hne
        refine List.pairwise_cons.2 ⟨fun x hx => ?_, ih hws⟩
        rcases mem_insertAscending.1 hx with rfl | hx
        · have hindex : x.index ≠ w.index := fun e => hne (by cases x; cases w; cases e; rfl)
          omega
        · exact hw x hx

/-- The ascending list ascends strictly. -/
theorem pairwise_ascending (vs : List Var) :
    (ascending vs).Pairwise fun x y => x.index < y.index := by
  induction vs with
  | nil => exact List.Pairwise.nil
  | cons v vs ih => exact ascending_insertAscending v ih

end Var

/-- The variables that the term binds somewhere, ascending and each
once. -/
def Term.boundVars (t : Term) : List Var := Var.ascending t.binders

/-- The bound variables are the binders without repetitions. -/
@[simp] theorem Term.mem_boundVars {v : Var} {t : Term} :
    v ∈ t.boundVars ↔ v ∈ t.binders :=
  Var.mem_ascending

end LogicalForm
