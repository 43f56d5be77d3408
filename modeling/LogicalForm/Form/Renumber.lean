/-
Renumbering: every variable that a form binds somewhere moves on by one
offset, together with its entry in the context, and every other variable
stays. It is refused when a move would pass the largest index; the first
occurrence that would is the one reported.
-/
import LogicalForm.Form.Basic

namespace LogicalForm

namespace Var

/-- The variable itself, or, for a member of `vs`, the variable `offset`
places further on. -/
def shiftIn (vs : List Var) (offset : Nat) (v : Var) : Var :=
  if vs.contains v then v.shift offset else v

/-- A variable of the list moves by the offset. -/
theorem shiftIn_of_mem {vs : List Var} {offset : Nat} {v : Var} (h : v ∈ vs) :
    v.shiftIn vs offset = v.shift offset := by
  simp [shiftIn, h]

/-- A variable outside of the list stays. -/
theorem shiftIn_of_not_mem {vs : List Var} {offset : Nat} {v : Var}
    (h : v ∉ vs) : v.shiftIn vs offset = v := by
  simp [shiftIn, h]

end Var

namespace Term

/-- The first occurrence of a member of `vs` that a shift by `offset`
would take past the largest index. -/
def overflowing? (vs : List Var) (offset : Nat) (t : Term) : Option Var :=
  t.vars.find? fun v => vs.contains v && v.overflows offset

/-- With room for every variable of the list, nothing in a term overflows.
-/
theorem overflowing?_eq_none {vs : List Var} {offset : Nat} (t : Term)
    (h : ∀ v ∈ vs, v.overflows offset = false) :
    t.overflowing? vs offset = none := by
  refine List.find?_eq_none.2 fun v _ => ?_
  rw [Bool.and_eq_true, List.contains_iff_mem]
  rintro ⟨hv, hoverflows⟩
  rw [h v hv] at hoverflows
  cases hoverflows

end Term

namespace Form

/-- Moves the bound variables of a form by `offset` and types the
result. -/
def renumber (f : Form) (offset : Nat) : Traced Form := do
  Traced.report (.renumbering f.boundVars f.term offset)
  match f.term.overflowing? f.boundVars offset with
  | some v => throw (.variableOverflow v offset)
  | none => do
    let c ← Traced.ofExcept (f.context.shift f.boundVars offset)
    ofTerm c (f.term.mapVars (Var.shiftIn f.boundVars offset))

/-- A renumbering is refused for the first occurrence that would pass the
largest index, or for the first such entry, or comes to typing the moved
term under the moved entries. -/
theorem result_renumber (f : Form) (offset : Nat) :
    (f.renumber offset).result
      = match f.term.overflowing? f.boundVars offset with
        | some v => .error (.variableOverflow v offset)
        | none => match f.context.shift f.boundVars offset with
          | .error e => .error e
          | .ok c => (ofTerm c
              (f.term.mapVars (Var.shiftIn f.boundVars offset))).result := by
  unfold renumber
  rw [Traced.result_bind, Traced.result_report]
  cases f.term.overflowing? f.boundVars offset with
  | some v => rfl
  | none =>
    refine (Traced.result_bind _ _).trans ?_
    cases f.context.shift f.boundVars offset <;> rfl

end Form

end LogicalForm
