/-
Terms of the calculus: variables, atoms, and the four shapes of a term.
A variable is a number; two binding shapes introduce one. A lambda states
the type of its variable. A binder is a built-in that introduces an
entity variable, and the number of its further arguments is free, as is
the number of arguments of an application.

The arguments stand in lists, so the type is nested. `Term.ind` is its
induction principle, with one hypothesis about all members of a list of
arguments; equality is decided here by one pass over both terms.
-/
import LogicalForm.Builtin

namespace LogicalForm

-- ============================================================ variables

/-- A variable `$N`, known by its index. -/
structure Var where
  index : Nat
  deriving DecidableEq, Repr, Inhabited

namespace Var

/-- The largest index that a variable may have anywhere. -/
def maxIndex : Nat := 4294967295

/-- The variable `offset` places further on. -/
def shift (offset : Nat) (v : Var) : Var := ⟨v.index + offset⟩

/-- A shift by `offset` would take the variable past the largest index. -/
def overflows (offset : Nat) (v : Var) : Bool := maxIndex < v.index + offset

@[simp] theorem index_shift (offset : Nat) (v : Var) :
    (v.shift offset).index = v.index + offset := rfl

/-- Moving by one offset keeps variables apart. -/
theorem shift_injective {offset : Nat} {v w : Var}
    (h : v.shift offset = w.shift offset) : v = w := by
  cases v
  cases w
  simpa [shift] using h

/-- Variables are ordered by their indices. -/
instance : Ord Var where
  compare v w := compare v.index w.index

/-- Variables are ordered by their indices. -/
theorem compare_def (v w : Var) : compare v w = compare v.index w.index := rfl

instance : Std.TransOrd Var where
  eq_swap {v w} := @Std.OrientedCmp.eq_swap Nat compare _ v.index w.index
  isLE_trans {u v w} :=
    @Std.TransCmp.isLE_trans Nat compare _ u.index v.index w.index

instance : Std.LawfulEqOrd Var where
  compare_self {v} := @Std.ReflCmp.compare_self Nat compare _ v.index
  eq_of_compare {v w} h := by
    cases v
    cases w
    rw [compare_def] at h
    exact congrArg Var.mk (Std.LawfulEqCmp.eq_of_compare h)

end Var

-- ================================================================ terms

/-- An atom: a variable, a built-in by itself, or a constant. A constant
is known by its whole text, with the type that this text states, if it
states one. -/
inductive Atom where
  | var (v : Var)
  | builtin (b : Builtin)
  | const (text : String) (stated : Option Ty)
  deriving DecidableEq, Repr

/-- A term. -/
inductive Term where
  | atom (a : Atom)
  /-- The abstraction of `body` over a variable of the stated type. -/
  | lambda (v : Var) (type : Ty) (body : Term)
  /-- A built-in that binds `v` as an entity in its arguments. -/
  | binder (op : Builtin) (v : Var) (args : List Term)
  /-- The application of a head to any number of arguments. -/
  | app (head : Term) (args : List Term)
  deriving Repr

instance : Inhabited Term := ⟨.app (.atom (.builtin .and)) []⟩

namespace Term

/-- The term that is just a variable. -/
abbrev ofVar (v : Var) : Term := .atom (.var v)

/-- Induction over terms: a property holds of every term when each shape
passes it on from the immediate subterms. -/
@[induction_eliminator]
theorem ind {motive : Term → Prop}
    (atom : ∀ a, motive (.atom a))
    (lambda : ∀ v type body, motive body → motive (.lambda v type body))
    (binder : ∀ op v args, (∀ t ∈ args, motive t) → motive (.binder op v args))
    (app : ∀ head args, motive head → (∀ t ∈ args, motive t) →
      motive (.app head args)) :
    ∀ t, motive t := fun t =>
  Term.rec (motive_1 := motive) (motive_2 := fun ts => ∀ t ∈ ts, motive t)
    atom lambda binder app
    (fun _ h => nomatch h)
    (fun _ _ first rest => fun _ h => by
      cases h with
      | head => exact first
      | tail _ h => exact rest _ h)
    t

/-- The term is an abstraction. -/
def isLambda : Term → Bool
  | lambda .. => true
  | _ => false

/-- The term is an atom. -/
def isAtom : Term → Bool
  | atom _ => true
  | _ => false

-- ============================================================= equality

mutual
/-- Whether two terms are equal, decided in one pass over both. -/
def decideEq : (t u : Term) → Decidable (t = u)
  | .atom a, u =>
    match u with
    | .atom b =>
      if h : a = b then isTrue (by rw [h]) else isFalse fun e => h (by injection e)
    | .lambda .. | .binder .. | .app .. => isFalse nofun
  | .lambda v type body, u =>
    match u with
    | .lambda w type' body' =>
      if h : v = w ∧ type = type' then
        match decideEq body body' with
        | isTrue hb => isTrue (by rw [h.1, h.2, hb])
        | isFalse hb => isFalse fun e => hb (by injection e)
      else isFalse fun e => h (by injection e with e₁ e₂; exact ⟨e₁, e₂⟩)
    | .atom _ | .binder .. | .app .. => isFalse nofun
  | .binder op v args, u =>
    match u with
    | .binder op' w args' =>
      if h : op = op' ∧ v = w then
        match decideEqAll args args' with
        | isTrue ha => isTrue (by rw [h.1, h.2, ha])
        | isFalse ha => isFalse fun e => ha (by injection e)
      else isFalse fun e => h (by injection e with e₁ e₂; exact ⟨e₁, e₂⟩)
    | .atom _ | .lambda .. | .app .. => isFalse nofun
  | .app head args, u =>
    match u with
    | .app head' args' =>
      match decideEq head head', decideEqAll args args' with
      | isTrue hh, isTrue ha => isTrue (by rw [hh, ha])
      | isFalse hh, _ => isFalse fun e => hh (by injection e)
      | _, isFalse ha => isFalse fun e => ha (by injection e)
    | .atom _ | .lambda .. | .binder .. => isFalse nofun
/-- Whether two lists of terms are equal. -/
def decideEqAll : (ts us : List Term) → Decidable (ts = us)
  | [], us =>
    match us with
    | [] => isTrue rfl
    | _ :: _ => isFalse nofun
  | t :: ts, us =>
    match us with
    | [] => isFalse nofun
    | u :: us =>
      match decideEq t u, decideEqAll ts us with
      | isTrue h, isTrue hs => isTrue (by rw [h, hs])
      | isFalse h, _ => isFalse fun e => h (by injection e)
      | _, isFalse hs => isFalse fun e => hs (by injection e)
end

instance : DecidableEq Term := decideEq

-- ==================================================== change of variables

mutual
/-- The term with every variable replaced through `f`, at binding places
as elsewhere. -/
def mapVars (f : Var → Var) : Term → Term
  | .atom (.var v) => .atom (.var (f v))
  | .atom a => .atom a
  | .lambda v type body => .lambda (f v) type (mapVars f body)
  | .binder op v args => .binder op (f v) (mapVarsAll f args)
  | .app head args => .app (mapVars f head) (mapVarsAll f args)
/-- The list with every variable of its terms replaced through `f`. -/
def mapVarsAll (f : Var → Var) : List Term → List Term
  | [] => []
  | t :: ts => mapVars f t :: mapVarsAll f ts
end

@[simp] theorem mapVarsAll_eq_map (f : Var → Var) (ts : List Term) :
    mapVarsAll f ts = ts.map (mapVars f) := by
  induction ts with
  | nil => rfl
  | cons t ts ih => rw [mapVarsAll, ih, List.map_cons]

end Term

end LogicalForm
