/-
Typing contexts: the types of variables and the types of registered
symbols. A symbol is registered under its whole text, and a built-in may
be registered under its name like any other symbol.

A shift moves the entries of a set of variables by one offset, all at
once: entries are taken out first and put back after, so neither the
order of the moves nor an overlap of old and new places matters. It is
refused as a whole when a variable that has an entry would pass the
largest index.
-/
import LogicalForm.Error
import LogicalForm.Table.Basic

namespace LogicalForm

/-- A typing context. -/
structure Context where
  vars : Table Var Ty
  symbols : Table String Ty
  deriving DecidableEq

namespace Context

/-- The context that knows nothing. -/
def empty : Context := ⟨.empty, .empty⟩

instance : Inhabited Context := ⟨empty⟩

/-- The type of a variable. -/
def var? (c : Context) (v : Var) : Option Ty := c.vars.find? v

/-- The type of a registered symbol. -/
def symbol? (c : Context) (name : String) : Option Ty := c.symbols.find? name

/-- Contexts are determined by what they say about variables and
symbols. -/
theorem ext_lookups {c d : Context} (hv : ∀ v, c.var? v = d.var? v)
    (hs : ∀ name, c.symbol? name = d.symbol? name) : c = d := by
  cases c
  cases d
  congr
  · exact Table.ext_find? hv
  · exact Table.ext_find? hs

-- ============================================================== changes

/-- The context with that type for the variable. -/
def insertVar (c : Context) (v : Var) (type : Ty) : Context :=
  { c with vars := c.vars.insert v type }

/-- The context with that type for the symbol. -/
def insertSymbol (c : Context) (name : String) (type : Ty) : Context :=
  { c with symbols := c.symbols.insert name type }

/-- The context that knows nothing of the variable. -/
def eraseVar (c : Context) (v : Var) : Context :=
  { c with vars := c.vars.erase v }

/-- The context `c` completed by what `d` says where `c` says nothing. -/
def merge (c d : Context) : Context :=
  ⟨c.vars.merge d.vars, c.symbols.merge d.symbols⟩

@[simp] theorem var?_insertVar (c : Context) (v : Var) (type : Ty) (w : Var) :
    (c.insertVar v type).var? w = if w = v then some type else c.var? w :=
  Table.find?_insert ..

@[simp] theorem symbol?_insertVar (c : Context) (v : Var) (type : Ty)
    (name : String) : (c.insertVar v type).symbol? name = c.symbol? name := rfl

@[simp] theorem var?_insertSymbol (c : Context) (name : String) (type : Ty)
    (v : Var) : (c.insertSymbol name type).var? v = c.var? v := rfl

@[simp] theorem symbol?_insertSymbol (c : Context) (name : String) (type : Ty)
    (other : String) :
    (c.insertSymbol name type).symbol? other
      = if other = name then some type else c.symbol? other :=
  Table.find?_insert ..

@[simp] theorem var?_eraseVar (c : Context) (v w : Var) :
    (c.eraseVar v).var? w = if w = v then none else c.var? w :=
  Table.find?_erase ..

@[simp] theorem symbol?_eraseVar (c : Context) (v : Var) (name : String) :
    (c.eraseVar v).symbol? name = c.symbol? name := rfl

/-- Of two entries for a variable, a merge takes the left one. -/
@[simp] theorem var?_merge (c d : Context) (v : Var) :
    (c.merge d).var? v = (c.var? v).or (d.var? v) :=
  Table.find?_merge ..

/-- Of two entries for a symbol, a merge takes the left one. -/
@[simp] theorem symbol?_merge (c d : Context) (name : String) :
    (c.merge d).symbol? name = (c.symbol? name).or (d.symbol? name) :=
  Table.find?_merge ..

-- ================================================================ shifts

/-- The entries of the variables in `vs`, ascending. -/
def entriesOf (c : Context) (vs : List Var) : List (Var × Ty) :=
  c.vars.entries.filter fun e => vs.contains e.1

/-- The context in which the entries of the variables in `vs` have moved
by `offset`. A moved entry replaces what stood at its new place. -/
def moved (c : Context) (vs : List Var) (offset : Nat) : Context :=
  { c with
    vars := (c.vars.filter fun v => !vs.contains v).insertAll
      ((c.entriesOf vs).map fun e => (e.1.shift offset, e.2)) }

/-- Moves the entries of the variables in `vs` by `offset`, unless one of
them would pass the largest index; the smallest such variable is
reported. -/
def shift (c : Context) (vs : List Var) (offset : Nat) : Except Error Context :=
  match (c.entriesOf vs).find? fun e => e.1.overflows offset with
  | some e => .error (.variableOverflow e.1 offset)
  | none => .ok (c.moved vs offset)

/-- A shift succeeds where every index has room to move. -/
theorem shift_of_no_overflow (c : Context) {vs : List Var} {offset : Nat}
    (h : ∀ v ∈ vs, v.overflows offset = false) :
    c.shift vs offset = .ok (c.moved vs offset) := by
  have hnone : (c.entriesOf vs).find? (fun e => e.1.overflows offset) = none := by
    refine List.find?_eq_none.2 fun e he => ?_
    rw [h e.1 (List.contains_iff_mem.1 (List.mem_filter.1 he).2)]
    exact Bool.false_ne_true
  rw [shift, hnone]

/-- A shift that is not refused moves the entries. -/
theorem shift_eq_ok {c d : Context} {vs : List Var} {offset : Nat}
    (h : c.shift vs offset = .ok d) : d = c.moved vs offset := by
  rw [shift] at h
  split at h
  · cases h
  · cases h
    rfl

/-- A shift has one way to fail: a variable would pass the largest index. -/
theorem overflow_of_shift {c : Context} {vs : List Var} {offset : Nat}
    {e : Error} (h : c.shift vs offset = .error e) :
    ∃ v, e = .variableOverflow v offset := by
  rw [shift] at h
  split at h
  · cases h
    exact ⟨_, rfl⟩
  · cases h

@[simp] theorem symbol?_moved (c : Context) (vs : List Var) (offset : Nat)
    (name : String) : (c.moved vs offset).symbol? name = c.symbol? name := rfl

/-- The entries picked out for a shift are those of the given variables. -/
theorem lookup_entriesOf (c : Context) (vs : List Var) (v : Var) :
    (c.entriesOf vs).lookup v = if v ∈ vs then c.var? v else none := by
  rw [entriesOf, Entries.lookup_filter fun v => vs.contains v]
  by_cases h : v ∈ vs <;> simp [h, var?, Table.find?]

/-- Look-ups among shifted entries are look-ups at the places they came
from. -/
theorem lookup_map_shift (es : List (Var × Ty)) (offset : Nat) (v : Var) :
    (es.map fun e => (e.1.shift offset, e.2)).lookup (v.shift offset)
      = es.lookup v :=
  Entries.lookup_map_of_inj fun _ _ => Var.shift_injective

/-- No shifted entry stands where no variable is shifted to. -/
theorem lookup_map_shift_eq_none {es : List (Var × Ty)} {offset : Nat} {w : Var}
    (h : ∀ v, es.lookup v ≠ none → v.shift offset ≠ w) :
    (es.map fun e => (e.1.shift offset, e.2)).lookup w = none := by
  refine Entries.lookup_map_eq_none fun e he hw => h e.1 ?_ hw.symm
  intro hnone
  exact bne_iff_ne.1 (List.lookup_eq_none_iff.1 hnone e he) rfl

/-- Where an entry of a moved variable arrives, it is what is found. -/
theorem var?_moved_shift {c : Context} {vs : List Var} {offset : Nat} {v : Var}
    {type : Ty} (hv : v ∈ vs) (h : c.var? v = some type) :
    (c.moved vs offset).var? (v.shift offset) = some type := by
  show (Table.insertAll _ _).find? _ = _
  rw [Table.find?_insertAll, lookup_map_shift, lookup_entriesOf, if_pos hv, h]
  rfl

/-- Where no entry arrives, a moved variable has left nothing behind and
every other variable keeps what it had. -/
theorem var?_moved_of_no_arrival {c : Context} {vs : List Var} {offset : Nat}
    {w : Var} (h : ∀ v ∈ vs, v.shift offset = w → c.var? v = none) :
    (c.moved vs offset).var? w = if w ∈ vs then none else c.var? w := by
  have hnone :
      ((c.entriesOf vs).map fun e => (e.1.shift offset, e.2)).lookup w = none := by
    refine lookup_map_shift_eq_none fun v hv hw => hv ?_
    rw [lookup_entriesOf]
    split
    · rename_i hmem
      exact h v hmem hw
    · rfl
  show (Table.insertAll _ _).find? _ = _
  rw [Table.find?_insertAll, hnone, Table.find?_filter]
  by_cases hw : w ∈ vs <;> simp [hw, var?]

end Context

end LogicalForm
