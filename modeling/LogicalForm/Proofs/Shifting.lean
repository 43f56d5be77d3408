/-
Shifts of entries. All entries of a set of variables move by one offset,
and it is as if they moved at the same time: an entry may arrive where
another one has just left, or replace one that stays.

# What is left behind

`Context.ShiftedBy` says it place by place: where an entry arrives, it is
found; where none arrives, a variable of the set has nothing and any other
variable what it had. This determines the context
(`Context.ShiftedBy.unique`), so nothing else needs to be said of it. A
shift is refused for the smallest variable of the set whose entry would
pass the largest index, and for nothing else.

# Entry by entry

A program that changes one context in place cannot move all entries at
the same time (`Context.shiftInPlace`). It looks them up first, which is
where it may stop; nothing has changed then. Afterwards it takes the
entries out and puts them back, one by one. No entry is lost on the way,
because all are out before the first one comes back, and entries of
different variables arrive at different places (`Context.run_shiftInPlace`).
-/
import LogicalForm.Context.Basic
import LogicalForm.Term.Occurrences

namespace LogicalForm

namespace Context

variable {c d : Context} {vs : List Var} {offset : Nat} {v w : Var} {type : Ty}

-- ============================================================= refusals

/-- The variable is one of those to move, and its entry would pass the
largest index. -/
structure Overflowing (c : Context) (vs : List Var) (offset : Nat)
    (v : Var) : Prop where
  mem : v ∈ vs
  entry : ∃ type, c.var? v = some type
  overflow : 4294967295 < v.index + offset

/-- The entries picked out are those of the given variables. -/
theorem mem_entriesOf :
    (v, type) ∈ c.entriesOf vs ↔ v ∈ vs ∧ c.var? v = some type := by
  unfold entriesOf
  rw [List.mem_filter, Table.mem_entries_iff, List.contains_iff_mem]
  exact and_comm

/-- A variable overflows if its entry is picked out and has no room to move.
-/
theorem overflowing_iff : c.Overflowing vs offset v
    ↔ ∃ e ∈ c.entriesOf vs, e.1.overflows offset = true ∧ e.1 = v := by
  constructor
  · intro h
    obtain ⟨type, htype⟩ := h.entry
    exact ⟨(v, type), mem_entriesOf.2 ⟨h.mem, htype⟩, decide_eq_true h.overflow, rfl⟩
  · intro h
    obtain ⟨⟨w, type⟩, he, hover, rfl⟩ := h
    obtain ⟨hmem, htype⟩ := mem_entriesOf.1 he
    exact ⟨hmem, ⟨type, htype⟩, of_decide_eq_true hover⟩

/-- The entry at which the search stops is that of the smallest variable. -/
theorem least_of_find? {e : Var × Ty}
    (h : (c.entriesOf vs).find? (fun e => e.1.overflows offset) = some e) :
    c.Overflowing vs offset e.1
      ∧ ∀ w, c.Overflowing vs offset w → e.1.index ≤ w.index := by
  obtain ⟨hover, before, after, hsplit, hbefore⟩ :=
    List.find?_eq_some_iff_append.1 h
  refine ⟨overflowing_iff.2 ⟨e, List.mem_of_find?_eq_some h, hover, rfl⟩, ?_⟩
  intro w hw
  obtain ⟨x, hx, hxover, rfl⟩ := overflowing_iff.1 hw
  have hascending : Entries.Ascending (c.entriesOf vs) := c.vars.ascending.filter _
  rw [hsplit] at hx hascending
  rcases List.mem_append.1 hx with hx | hx
  · have hnot : ¬ x.1.overflows offset = true := by
      simpa using hbefore x hx
    exact absurd hxover hnot
  · rcases List.mem_cons.1 hx with rfl | hx
    · exact Nat.le_refl _
    · have hlt := (List.pairwise_cons.1 (List.pairwise_append.1 hascending).2.1).1 x hx
      rw [Var.compare_def, Nat.compare_eq_lt] at hlt
      exact Nat.le_of_lt hlt

/-- The search for an entry without room finds none if no variable
overflows. -/
theorem find?_eq_none_iff :
    (c.entriesOf vs).find? (fun e => e.1.overflows offset) = none
      ↔ ∀ v, ¬ c.Overflowing vs offset v := by
  rw [List.find?_eq_none]
  constructor
  · intro h v hv
    obtain ⟨e, he, hover, -⟩ := overflowing_iff.1 hv
    exact h e he hover
  · intro h e he hover
    exact h e.1 (overflowing_iff.2 ⟨e, he, hover, rfl⟩)

/-- A shift fails exactly if some entry would pass the largest index, and
then it reports the smallest variable of such an entry. -/
theorem shift_eq_error_iff {e : Error} :
    c.shift vs offset = .error e
      ↔ ∃ v, c.Overflowing vs offset v
        ∧ (∀ w, c.Overflowing vs offset w → v.index ≤ w.index)
        ∧ e = .variableOverflow v offset := by
  unfold shift
  cases hfind : (c.entriesOf vs).find? fun e => e.1.overflows offset with
  | none =>
      constructor
      · intro h
        cases h
      · intro h
        obtain ⟨v, hv, -, -⟩ := h
        exact absurd hv (find?_eq_none_iff.1 hfind v)
  | some x =>
      obtain ⟨hx, hleast⟩ := least_of_find? hfind
      constructor
      · intro h
        cases h
        exact ⟨x.1, hx, hleast, rfl⟩
      · intro h
        obtain ⟨v, hv, hvleast, rfl⟩ := h
        have hindex : v.index = x.1.index :=
          Nat.le_antisymm (hvleast x.1 hx) (hleast v hv)
        have hsame : v = x.1 := congrArg Var.mk hindex
        rw [hsame]

-- ============================================================== success

/-- The context `d` is `c` with the entries of the variables in `vs` moved
by `offset`, all at the same time. -/
structure ShiftedBy (c : Context) (vs : List Var) (offset : Nat)
    (d : Context) : Prop where
  /-- An entry that moves is found where it arrives. -/
  arrived : ∀ v ∈ vs, ∀ type, c.var? v = some type →
    d.var? (v.shift offset) = some type
  /-- Where none arrives, a variable of the set has no entry. -/
  left : ∀ w ∈ vs, (∀ v ∈ vs, v.shift offset = w → c.var? v = none) →
    d.var? w = none
  /-- Where none arrives, any other variable has what it had. -/
  kept : ∀ w, w ∉ vs → (∀ v ∈ vs, v.shift offset = w → c.var? v = none) →
    d.var? w = c.var? w
  symbols : ∀ name, d.symbol? name = c.symbol? name

/-- What a shift makes of a context is the context with the entries moved.
-/
theorem shiftedBy_moved (c : Context) (vs : List Var) (offset : Nat) :
    c.ShiftedBy vs offset (c.moved vs offset) where
  arrived v hv type htype := var?_moved_shift hv htype
  left w hw hnone := by rw [var?_moved_of_no_arrival hnone, if_pos hw]
  kept w hw hnone := by rw [var?_moved_of_no_arrival hnone, if_neg hw]
  symbols name := symbol?_moved c vs offset name

/-- There is one such context. -/
theorem ShiftedBy.unique {e : Context} (hd : c.ShiftedBy vs offset d)
    (he : c.ShiftedBy vs offset e) : d = e := by
  refine ext_lookups (fun w => ?_) fun name => ?_
  · by_cases harrives : ∃ v ∈ vs, v.shift offset = w ∧ c.var? v ≠ none
    · obtain ⟨v, hv, rfl, hsome⟩ := harrives
      obtain ⟨type, htype⟩ := Option.ne_none_iff_exists'.1 hsome
      rw [hd.arrived v hv type htype, he.arrived v hv type htype]
    · have hnone : ∀ v ∈ vs, v.shift offset = w → c.var? v = none := by
        intro v hv hw
        exact Classical.not_not.1 fun hsome => harrives ⟨v, hv, hw, hsome⟩
      by_cases hw : w ∈ vs
      · rw [hd.left w hw hnone, he.left w hw hnone]
      · rw [hd.kept w hw hnone, he.kept w hw hnone]
  · rw [hd.symbols, he.symbols]

/-- A shift succeeds exactly if nothing overflows, and then with the entries
moved. -/
theorem shift_eq_ok_iff :
    c.shift vs offset = .ok d
      ↔ (∀ v, ¬ c.Overflowing vs offset v) ∧ c.ShiftedBy vs offset d := by
  rw [← find?_eq_none_iff]
  unfold shift
  cases (c.entriesOf vs).find? fun e => e.1.overflows offset with
  | some x => simp
  | none =>
      have hmoved := shiftedBy_moved c vs offset
      constructor
      · intro h
        cases h
        exact ⟨rfl, hmoved⟩
      · intro h
        rw [hmoved.unique h.2]

-- ======================================================== entry by entry

/-- Looks the variables up one after the other and notes where their
entries are to go. The first entry that would pass the largest index
stops it. -/
def arrivals (offset : Nat) : List Var → EStateM Error Context (List (Var × Ty))
  | [] => return []
  | v :: vs => do
    match (← get).var? v with
    | none => arrivals offset vs
    | some type =>
      if v.overflows offset then throw (.variableOverflow v offset)
      let es ← arrivals offset vs
      return (v.shift offset, type) :: es

/-- The shift of a set of variables as a change in place: the entries are
looked up, taken out and put back, each step one by one and in the
ascending order of the variables. -/
def shiftInPlace (vs : List Var) (offset : Nat) : EStateM Error Context Unit := do
  let es ← arrivals offset (Var.ascending vs)
  (Var.ascending vs).forM fun v => modify (·.eraseVar v)
  es.forM fun e => modify (·.insertVar e.1 e.2)

theorem run_get_bind {α : Type} (f : Context → EStateM Error Context α)
    (c : Context) : (get >>= f).run c = (f c).run c := rfl

/-- A change made with each member of a list is a fold. -/
theorem run_modifyEach {α : Type} (f : Context → α → Context) (xs : List α)
    (c : Context) :
    (xs.forM fun x => (modify fun c => f c x : EStateM Error Context Unit)).run c
      = .ok () (xs.foldl f c) := by
  induction xs generalizing c with
  | nil => rfl
  | cons x xs ih => exact ih (f c x)

/-- The entries of the variables, in the order of these. -/
def entriesAlong (c : Context) (vs : List Var) : List (Var × Ty) :=
  vs.filterMap fun v => (c.var? v).map fun type => (v, type)

theorem entriesAlong_cons_of_none (hv : c.var? v = none) :
    c.entriesAlong (v :: vs) = c.entriesAlong vs := by
  simp [entriesAlong, hv]

theorem entriesAlong_cons_of_some (hv : c.var? v = some type) :
    c.entriesAlong (v :: vs) = (v, type) :: c.entriesAlong vs := by
  simp [entriesAlong, hv]

/-- Looking the entries up changes nothing, whether it is stopped or not. -/
theorem run_arrivals (c : Context) (offset : Nat) (vs : List Var) :
    (arrivals offset vs).run c
      = match (c.entriesAlong vs).find? fun e => e.1.overflows offset with
        | some e => .error (.variableOverflow e.1 offset) c
        | none =>
          .ok ((c.entriesAlong vs).map fun e => (e.1.shift offset, e.2)) c := by
  induction vs with
  | nil => rfl
  | cons v vs ih =>
      rw [arrivals, run_get_bind]
      cases hv : c.var? v with
      | none =>
          rw [entriesAlong_cons_of_none hv]
          exact ih
      | some type =>
          rw [entriesAlong_cons_of_some hv, List.find?_cons]
          cases v.overflows offset with
          | true => simp
          | false =>
              simp only [Bool.false_eq_true, if_false, EStateM.run_bind, ih]
              cases (c.entriesAlong vs).find? fun e => e.1.overflows offset with
              | none => rfl
              | some e => rfl

/-- The entries along a list are found as in the context. -/
theorem lookup_entriesAlong (c : Context) (vs : List Var) (w : Var) :
    (c.entriesAlong vs).lookup w = if w ∈ vs then c.var? w else none := by
  induction vs with
  | nil => rfl
  | cons v vs ih =>
      by_cases hw : w = v
      · subst hw
        rw [if_pos (List.mem_cons_self ..)]
        cases hv : c.var? w with
        | none =>
            rw [entriesAlong_cons_of_none hv, ih, hv, ite_self]
        | some type =>
            rw [entriesAlong_cons_of_some hv, Entries.lookup_cons_eq, if_pos rfl]
      · have hmem : w ∈ v :: vs ↔ w ∈ vs := by simp [hw]
        simp only [hmem, ← ih]
        cases hv : c.var? v with
        | none => rw [entriesAlong_cons_of_none hv]
        | some type =>
            rw [entriesAlong_cons_of_some hv, Entries.lookup_cons_eq, if_neg hw]

/-- Along the ascending variables of a set, the entries are met in their
order in the context. -/
theorem entriesAlong_ascending (c : Context) (vs : List Var) :
    c.entriesAlong (Var.ascending vs) = c.entriesOf vs := by
  have halong : Entries.Ascending (c.entriesAlong (Var.ascending vs)) := by
    refine (Var.pairwise_ascending vs).filterMap _ fun v w hvw e he f hf => ?_
    obtain ⟨type, -, rfl⟩ := Option.map_eq_some_iff.1 he
    obtain ⟨type', -, rfl⟩ := Option.map_eq_some_iff.1 hf
    exact Nat.compare_eq_lt.2 hvw
  refine Entries.eq_of_lookup halong (c.vars.ascending.filter _) fun w => ?_
  rw [lookup_entriesAlong, lookup_entriesOf]
  simp only [Var.mem_ascending]

/-- Entries with different keys may be put in one after the other. -/
theorem var?_insertEach {es : List (Var × Ty)}
    (hes : es.Pairwise fun x y => x.1 ≠ y.1) (c : Context) (w : Var) :
    (es.foldl (fun c e => c.insertVar e.1 e.2) c).var? w
      = (es.lookup w).or (c.var? w) := by
  induction es generalizing c with
  | nil => rfl
  | cons e es ih =>
      obtain ⟨he, hes⟩ := List.pairwise_cons.1 hes
      rw [List.foldl_cons, ih hes, var?_insertVar, Entries.lookup_cons_eq]
      by_cases hw : w = e.1
      · have hnone : es.lookup w = none :=
          List.lookup_eq_none_iff.2 fun x hx => bne_iff_ne.2 (hw ▸ he x hx)
        rw [if_pos hw, if_pos hw, hnone]
        rfl
      · rw [if_neg hw, if_neg hw]

theorem symbol?_insertEach (es : List (Var × Ty)) (c : Context)
    (name : String) :
    (es.foldl (fun c e => c.insertVar e.1 e.2) c).symbol? name
      = c.symbol? name := by
  induction es generalizing c with
  | nil => rfl
  | cons e es ih => exact ih _

/-- Variables taken out one after the other have no entries, and every other
keeps its own. -/
theorem var?_eraseEach (vs : List Var) (c : Context) (w : Var) :
    (vs.foldl eraseVar c).var? w = if w ∈ vs then none else c.var? w := by
  induction vs generalizing c with
  | nil => simp
  | cons v vs ih =>
      rw [List.foldl_cons, ih, var?_eraseVar]
      by_cases hv : w = v
      · simp [hv]
      · simp [hv]

theorem symbol?_eraseEach (vs : List Var) (c : Context) (name : String) :
    (vs.foldl eraseVar c).symbol? name = c.symbol? name := by
  induction vs generalizing c with
  | nil => rfl
  | cons v vs ih => exact ih _

/-- With all entries out before the first comes back, one by one comes to
the same as all at the same time. -/
theorem insertEach_eraseEach (c : Context) (vs : List Var) (offset : Nat) :
    ((c.entriesOf vs).map fun e => (e.1.shift offset, e.2)).foldl
        (fun c e => c.insertVar e.1 e.2) ((Var.ascending vs).foldl eraseVar c)
      = c.moved vs offset := by
  have hapart : ((c.entriesOf vs).map fun e => (e.1.shift offset, e.2)).Pairwise
      fun x y => x.1 ≠ y.1 := by
    have hascending : Entries.Ascending (c.entriesOf vs) :=
      c.vars.ascending.filter _
    refine List.pairwise_map.2 (hascending.imp fun hlt heq => ?_)
    exact Entries.ne_of_compare_lt hlt (Var.shift_injective heq)
  refine ext_lookups (fun w => ?_) fun name => ?_
  · rw [var?_insertEach hapart, var?_eraseEach]
    show _ = (Table.insertAll _ _).find? w
    rw [Table.find?_insertAll, Table.find?_filter]
    by_cases hw : w ∈ vs
    · simp [hw]
    · simp [hw, var?]
  · rw [symbol?_insertEach, symbol?_eraseEach]
    rfl

/-- The change in place ends like the shift, and changes nothing where the
shift is refused. -/
theorem run_shiftInPlace (c : Context) (vs : List Var) (offset : Nat) :
    (shiftInPlace vs offset).run c
      = match c.shift vs offset with
        | .error e => .error e c
        | .ok d => .ok () d := by
  unfold shiftInPlace shift
  rw [EStateM.run_bind, run_arrivals, entriesAlong_ascending]
  cases (c.entriesOf vs).find? fun e => e.1.overflows offset with
  | some e => rfl
  | none =>
      simp only [EStateM.run_bind, run_modifyEach]
      rw [insertEach_eraseEach]

-- ========================================================= main theorem

/-- A shift moves all entries at the same time or none. It is refused
exactly if a variable of the set has an entry that would pass the largest
index, for the smallest such variable. Otherwise it gives the one context
in which every entry is found where it has moved to, a variable of the set
to which none moves has no entry, and everything else is as it was.
Carried out in place, entry by entry, it ends in that context, or in the
one it started from when it is refused. -/
theorem entries_shift_together (c : Context) (vs : List Var) (offset : Nat) :
    (∀ e, c.shift vs offset = .error e
        ↔ ∃ v, c.Overflowing vs offset v
          ∧ (∀ w, c.Overflowing vs offset w → v.index ≤ w.index)
          ∧ e = .variableOverflow v offset)
      ∧ (∀ d, c.shift vs offset = .ok d
        ↔ (∀ v, ¬ c.Overflowing vs offset v) ∧ c.ShiftedBy vs offset d)
      ∧ (shiftInPlace vs offset).run c
        = match c.shift vs offset with
          | .error e => .error e c
          | .ok d => .ok () d :=
  ⟨fun _ => shift_eq_error_iff, fun _ => shift_eq_ok_iff,
    run_shiftInPlace c vs offset⟩

end Context

end LogicalForm
