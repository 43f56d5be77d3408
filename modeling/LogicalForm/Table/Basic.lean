/-
Finite tables from keys to values. The entries are kept in the ascending
order of their keys, so a table has one form only: two tables in which
every look-up gives the same are equal (`Table.ext_find?`). Each operation
is known by what it does to look-ups:

* `find?_insert`, `find?_erase`: one key changes and no other;
* `find?_filter`: the keys that fail a test lose their entries;
* `find?_ofList`: of several entries for a key the first one counts;
* `find?_merge`: the first table wins, the second completes it.
-/
namespace LogicalForm

-- ======================================================= ascending entries

namespace Entries

variable {κ ν : Type} [Ord κ]

/-- The keys of the entries rise from each entry to every later one. -/
def Ascending (es : List (κ × ν)) : Prop :=
  es.Pairwise fun a b => compare a.1 b.1 = .lt

/-- Puts an entry at its place in ascending entries, for the entry with
the same key if there is one. -/
def insert (k : κ) (v : ν) : List (κ × ν) → List (κ × ν)
  | [] => [(k, v)]
  | e :: es =>
    match compare k e.1 with
    | .lt => (k, v) :: e :: es
    | .eq => (k, v) :: es
    | .gt => e :: insert k v es

/-- An insertion adds one entry at most. -/
theorem mem_insert {k : κ} {v : ν} {e : κ × ν} {es : List (κ × ν)}
    (h : e ∈ insert k v es) : e = (k, v) ∨ e ∈ es := by
  induction es with
  | nil => exact .inl (List.mem_singleton.1 h)
  | cons d es ih =>
    rw [insert] at h
    split at h
    · exact List.mem_cons.1 h
    · rcases List.mem_cons.1 h with h | h
      · exact .inl h
      · exact .inr (List.mem_cons_of_mem _ h)
    · rcases List.mem_cons.1 h with h | h
      · exact .inr (h ▸ List.mem_cons_self ..)
      · exact (ih h).imp id (List.mem_cons_of_mem _)

variable [Std.TransOrd κ] [Std.LawfulEqOrd κ]

/-- Insertion keeps the keys in ascending order. -/
theorem ascending_insert (k : κ) (v : ν) {es : List (κ × ν)}
    (h : Ascending es) : Ascending (insert k v es) := by
  induction es with
  | nil => exact List.pairwise_singleton _ _
  | cons d es ih =>
    obtain ⟨hd, hes⟩ := List.pairwise_cons.1 h
    rw [insert]
    split
    · rename_i hlt
      refine List.pairwise_cons.2 ⟨fun e he => ?_, h⟩
      rcases List.mem_cons.1 he with rfl | he
      · exact hlt
      · exact Std.TransCmp.lt_trans hlt (hd e he)
    · rename_i heq
      have hk : k = d.1 := Std.LawfulEqCmp.eq_of_compare heq
      exact List.pairwise_cons.2 ⟨fun e he => hk ▸ hd e he, hes⟩
    · rename_i hgt
      refine List.pairwise_cons.2 ⟨fun e he => ?_, ih hes⟩
      rcases mem_insert he with rfl | he
      · exact Std.OrientedCmp.gt_iff_lt.1 hgt
      · exact hd e he

omit [Std.LawfulEqOrd κ] in
/-- Keys of which one lies before the other are different. -/
theorem ne_of_compare_lt {j k : κ} (h : compare j k = .lt) : j ≠ k := by
  intro hjk
  have hkk : compare k k = .eq := Std.ReflCmp.compare_self
  rw [hjk, hkk] at h
  cases h

variable [DecidableEq κ]

omit [Ord κ] [Std.TransOrd κ] [Std.LawfulEqOrd κ] in
theorem lookup_cons_eq (e : κ × ν) (j : κ) (es : List (κ × ν)) :
    (e :: es).lookup j = if j = e.1 then some e.2 else es.lookup j := by
  by_cases h : j = e.1
  · have hb : (j == e.1) = true := beq_iff_eq.2 h
    rw [List.lookup_cons, hb, if_pos h]
  · have hb : (j == e.1) = false := beq_eq_false_iff_ne.2 h
    rw [List.lookup_cons, hb, if_neg h]

theorem lookup_insert (k : κ) (v : ν) (j : κ) (es : List (κ × ν)) :
    (insert k v es).lookup j = if j = k then some v else es.lookup j := by
  induction es with
  | nil => exact lookup_cons_eq (k, v) j []
  | cons d es ih =>
    rw [insert]
    split
    · exact lookup_cons_eq (k, v) j (d :: es)
    · rename_i heq
      have hk : k = d.1 := Std.LawfulEqCmp.eq_of_compare heq
      rw [lookup_cons_eq, lookup_cons_eq, ← hk]
      by_cases h : j = k <;> simp [h]
    · rename_i hgt
      have hk : d.1 ≠ k := ne_of_compare_lt (Std.OrientedCmp.gt_iff_lt.1 hgt)
      rw [lookup_cons_eq, lookup_cons_eq, ih]
      by_cases h : j = d.1
      · simp [h, hk]
      · simp [h]

omit [Ord κ] [Std.TransOrd κ] [Std.LawfulEqOrd κ] in
theorem lookup_filter (p : κ → Bool) (j : κ) (es : List (κ × ν)) :
    (es.filter fun e => p e.1).lookup j = if p j then es.lookup j else none := by
  induction es with
  | nil => simp
  | cons d es ih =>
    by_cases hd : p d.1 = true
    · rw [List.filter_cons, if_pos hd, lookup_cons_eq, ih, lookup_cons_eq]
      by_cases h : j = d.1
      · simp [h, hd]
      · simp [h]
    · rw [List.filter_cons, if_neg hd, ih, lookup_cons_eq]
      by_cases h : j = d.1
      · simp [h, hd]
      · simp [h]

omit [Ord κ] [Std.TransOrd κ] [Std.LawfulEqOrd κ] in
/-- Among entries with other keys, a value is found at the new place of a
key that no other key is taken to. -/
theorem lookup_map_of_inj {f : κ → κ} {k : κ} {es : List (κ × ν)}
    (h : ∀ e ∈ es, f k = f e.1 → k = e.1) :
    (es.map fun e => (f e.1, e.2)).lookup (f k) = es.lookup k := by
  induction es with
  | nil => rfl
  | cons e es ih =>
    obtain ⟨he, hes⟩ := List.forall_mem_cons.1 h
    rw [List.map_cons, lookup_cons_eq, lookup_cons_eq, ih hes]
    by_cases hk : k = e.1
    · rw [if_pos hk, if_pos (congrArg f hk)]
    · rw [if_neg hk, if_neg fun hf => hk (he hf)]

omit [Ord κ] [Std.TransOrd κ] [Std.LawfulEqOrd κ] in
/-- A key that no key is moved to is not found. -/
theorem lookup_map_eq_none {f : κ → κ} {k : κ} {es : List (κ × ν)}
    (h : ∀ e ∈ es, k ≠ f e.1) :
    (es.map fun e => (f e.1, e.2)).lookup k = none := by
  refine List.lookup_eq_none_iff.2 fun d hd => ?_
  obtain ⟨e, he, rfl⟩ := List.mem_map.1 hd
  exact bne_iff_ne.2 (h e he)

omit [Std.LawfulEqOrd κ] in
/-- A key below all keys of the list is not found. -/
theorem lookup_eq_none_of_lt {k : κ} {es : List (κ × ν)}
    (h : ∀ e ∈ es, compare k e.1 = .lt) : es.lookup k = none :=
  List.lookup_eq_none_iff.2 fun e he =>
    bne_iff_ne.2 (ne_of_compare_lt (h e he))

omit [Std.LawfulEqOrd κ] in
/-- In a list in ascending order the entries are what look-ups find. -/
theorem mem_iff_lookup {k : κ} {v : ν} {es : List (κ × ν)}
    (h : Ascending es) : (k, v) ∈ es ↔ es.lookup k = some v := by
  induction es with
  | nil => simp
  | cons d es ih =>
    obtain ⟨hd, hes⟩ := List.pairwise_cons.1 h
    rw [List.mem_cons, ih hes, lookup_cons_eq]
    by_cases hk : k = d.1
    · have hnone : es.lookup k = none :=
        lookup_eq_none_of_lt fun e he => hk ▸ hd e he
      rw [if_pos hk, hnone]
      simp [Prod.ext_iff, hk, eq_comm]
    · have hne : (k, v) ≠ d := fun e => hk (congrArg Prod.fst e)
      simp [hk, hne]

omit [Std.LawfulEqOrd κ] in
/-- Ascending entries are determined by their look-ups. -/
theorem eq_of_lookup {es ds : List (κ × ν)} (hes : Ascending es)
    (hds : Ascending ds) (h : ∀ k, es.lookup k = ds.lookup k) : es = ds := by
  induction es generalizing ds with
  | nil =>
    cases ds with
    | nil => rfl
    | cons d ds =>
      have hd := h d.1
      rw [lookup_cons_eq, if_pos rfl] at hd
      cases hd
  | cons e es ih =>
    cases ds with
    | nil =>
      have he := h e.1
      rw [lookup_cons_eq, if_pos rfl] at he
      cases he
    | cons d ds =>
      obtain ⟨he, hes'⟩ := List.pairwise_cons.1 hes
      obtain ⟨hd, hds'⟩ := List.pairwise_cons.1 hds
      have memE : e ∈ d :: ds :=
        (mem_iff_lookup hds).2 (by rw [← h, lookup_cons_eq, if_pos rfl])
      have memD : d ∈ e :: es :=
        (mem_iff_lookup hes).2 (by rw [h, lookup_cons_eq, if_pos rfl])
      have hed : e = d := by
        rcases List.mem_cons.1 memE with hed | hed
        · exact hed
        · rcases List.mem_cons.1 memD with hde | hde
          · exact hde.symm
          · have lt := Std.TransCmp.lt_trans (hd e hed) (he d hde)
            exact absurd rfl (ne_of_compare_lt lt)
      subst hed
      congr 1
      refine ih hes' hds' fun k => ?_
      by_cases hk : k = e.1
      · rw [lookup_eq_none_of_lt fun x hx => hk ▸ he x hx,
          lookup_eq_none_of_lt fun x hx => hk ▸ hd x hx]
      · have hlook := h k
        rwa [lookup_cons_eq, lookup_cons_eq, if_neg hk, if_neg hk] at hlook

end Entries

-- ================================================================= tables

/-- A finite table, with its entries in the ascending order of the keys. -/
structure Table (κ ν : Type) [Ord κ] where
  entries : List (κ × ν)
  ascending : Entries.Ascending entries

namespace Table

variable {κ ν : Type} [Ord κ]

instance [DecidableEq κ] [DecidableEq ν] : DecidableEq (Table κ ν) :=
  fun t u =>
    if h : t.entries = u.entries then
      isTrue (by cases t; cases u; cases h; rfl)
    else isFalse fun e => h (congrArg entries e)

/-- The table without entries. -/
def empty : Table κ ν := ⟨[], List.Pairwise.nil⟩

instance : Inhabited (Table κ ν) := ⟨empty⟩

/-- The keys that have an entry, ascending. -/
def keys (t : Table κ ν) : List κ := t.entries.map Prod.fst

/-- The entries at the keys that satisfy `p`. -/
def filter (t : Table κ ν) (p : κ → Bool) : Table κ ν :=
  ⟨t.entries.filter fun e => p e.1, t.ascending.filter _⟩

variable [DecidableEq κ]

/-- The value at a key. -/
def find? (t : Table κ ν) (k : κ) : Option ν := t.entries.lookup k

/-- The table without the entry of the key. -/
def erase (t : Table κ ν) (k : κ) : Table κ ν := t.filter (· ≠ k)

@[simp] theorem find?_empty (k : κ) : (empty : Table κ ν).find? k = none := rfl

variable [Std.TransOrd κ] [Std.LawfulEqOrd κ]

omit [DecidableEq κ] in
/-- The table with that value at the key. -/
def insert (t : Table κ ν) (k : κ) (v : ν) : Table κ ν :=
  ⟨Entries.insert k v t.entries, Entries.ascending_insert k v t.ascending⟩

omit [DecidableEq κ] in
/-- The table with the entries of the list put into `t`. An entry of the
list replaces what `t` has at its key, and of several entries for one key
the first counts. -/
def insertAll (t : Table κ ν) (es : List (κ × ν)) : Table κ ν :=
  es.foldr (fun e u => u.insert e.1 e.2) t

omit [DecidableEq κ] in
/-- The table of a list of entries. Of several entries for one key the
first counts. -/
def ofList (es : List (κ × ν)) : Table κ ν := empty.insertAll es

omit [DecidableEq κ] in
/-- The table `t` completed by the entries of `u` at keys that have none
in `t`. -/
def merge (t u : Table κ ν) : Table κ ν := u.insertAll t.entries

-- ============================================================== look-ups

omit [Std.TransOrd κ] [Std.LawfulEqOrd κ] in
@[simp] theorem find?_filter (t : Table κ ν) (p : κ → Bool) (j : κ) :
    (t.filter p).find? j = if p j then t.find? j else none :=
  Entries.lookup_filter p j t.entries

omit [Std.TransOrd κ] [Std.LawfulEqOrd κ] in
@[simp] theorem find?_erase (t : Table κ ν) (k j : κ) :
    (t.erase k).find? j = if j = k then none else t.find? j := by
  by_cases h : j = k <;> simp [erase, h]

@[simp] theorem find?_insert (t : Table κ ν) (k : κ) (v : ν) (j : κ) :
    (t.insert k v).find? j = if j = k then some v else t.find? j :=
  Entries.lookup_insert k v j t.entries

/-- An entry put in before stands only where the new entries have none. -/
@[simp] theorem find?_insertAll (t : Table κ ν) (es : List (κ × ν)) (k : κ) :
    (t.insertAll es).find? k = (es.lookup k).or (t.find? k) := by
  induction es with
  | nil => rfl
  | cons e es ih =>
    show ((t.insertAll es).insert e.1 e.2).find? k = _
    rw [find?_insert, ih, Entries.lookup_cons_eq]
    by_cases h : k = e.1 <;> simp [h]

@[simp] theorem find?_ofList (es : List (κ × ν)) (k : κ) :
    (ofList es).find? k = es.lookup k := by
  simp [ofList]

/-- Where both tables have an entry, the left one is found. -/
@[simp] theorem find?_merge (t u : Table κ ν) (k : κ) :
    (t.merge u).find? k = (t.find? k).or (u.find? k) :=
  find?_insertAll u t.entries k

omit [Std.LawfulEqOrd κ] in
/-- The entries of a table are what look-ups find. -/
theorem mem_entries_iff {t : Table κ ν} {k : κ} {v : ν} :
    (k, v) ∈ t.entries ↔ t.find? k = some v :=
  Entries.mem_iff_lookup t.ascending

omit [Std.LawfulEqOrd κ] in
/-- The keys of a table are those that are found. -/
theorem mem_keys_iff {t : Table κ ν} {k : κ} :
    k ∈ t.keys ↔ (t.find? k).isSome := by
  simp only [keys, List.mem_map, Prod.exists, mem_entries_iff, exists_and_right,
    exists_eq_right, Option.isSome_iff_exists]

omit [Std.LawfulEqOrd κ] in
/-- A table is determined by its look-ups. -/
theorem ext_find? {t u : Table κ ν} (h : ∀ k, t.find? k = u.find? k) :
    t = u := by
  cases t
  cases u
  congr
  exact Entries.eq_of_lookup ‹_› ‹_› h

end Table

end LogicalForm
