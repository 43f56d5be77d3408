/-
Applications typed at once and in parts. A head may take all its
arguments in one application, as in `(h x y z)`, or some of them first
and the others in a further application, as in `((h x) y z)`. Inference
goes different ways about the two: an atom at the head has rules of its
own, while a head that is an application is inferred by itself.

# What a head offers

An application takes codomains of one type, that of its head, which is
found by the rules for a head and not by those for a term
(`Context.headType?`). It decides the application alone
(`infer_app_iff_headType?`), and codomains are taken one by one, so
taking some and then the others is taking them all
(`Ty.afterArgs_append`). Placeholders make no difference: there is
nothing to take from one, neither at the head nor after some arguments.

# Where parts differ

A head that takes any arguments has the same type however many there are,
and this type takes none. So nothing may follow in a second application,
and a split in front of some argument types alike for all other heads and
for none of these (`application_types_in_parts`).

Taken one by one, the arguments nest as many applications as there are
arguments, which is what reduction makes of the use of a variable when it
puts a form that does not reduce in its place. Where there are arguments
at all, such a nest types alike too (`infer_appEach`).
-/
import LogicalForm.Proofs.FullTyping

namespace LogicalForm

/-- What is left after some arguments and after others that follow is what
is left after all of them. -/
theorem Ty.afterArgs_append {t τ : Ty} {head head' : Term} {m n : Nat} :
    t.afterArgs head (m + n) = .ok τ
      ↔ ∃ σ, t.afterArgs head m = .ok σ ∧ σ.afterArgs head' n = .ok τ := by
  induction m generalizing t with
  | zero =>
      rw [Nat.zero_add]
      constructor
      · intro h
        exact ⟨t, afterArgs_zero t head, afterArgs_eq_ok h⟩
      · intro h
        obtain ⟨σ, hσ, h⟩ := h
        rw [afterArgs_zero] at hσ
        cases hσ
        exact afterArgs_eq_ok h
  | succ m ih =>
      rw [Nat.succ_add]
      cases t with
      | func d c => exact ih
      | _ => simp [afterArgs]

namespace Context

variable {c : Context} {head : Term} {xs ys : List Term} {τ : Ty}

-- ====================================================== one application

/-- A head that is no atom is inferred by itself, and the application takes
from its type. -/
theorem infer_app_iff_infer (hnot : head.isAtom = false) :
    c.infer (.app head xs) = .ok τ
      ↔ ∃ σ, c.infer head = .ok σ ∧ σ.afterArgs head xs.length = .ok τ := by
  constructor
  · exact infer_app_eq_ok hnot
  · intro h
    obtain ⟨σ, hσ, hafter⟩ := h
    rw [infer_app_of_not_atom hnot, hσ]
    exact hafter

/-- The type whose codomains an application of the head takes. -/
def headType? (c : Context) : Term → Option Ty
  | .atom (.var v) => c.known? v
  | .atom (.builtin _) => none
  | .atom (.const text stated) => (c.symbol? text).or stated
  | head => (c.infer head).toOption

/-- A head that is no atom takes arguments at its own type. -/
theorem headType?_of_not_atom (hhead : head.isAtom = false) :
    c.headType? head = some τ ↔ c.infer head = .ok τ := by
  have hinfer : c.headType? head = (c.infer head).toOption := by
    cases head with
    | atom a => cases hhead
    | _ => rfl
  rw [hinfer]
  cases c.infer head with
  | error e => simp [Except.toOption]
  | ok σ => simp [Except.toOption]

/-- A head that does not take just any arguments decides by the type that
it offers. -/
theorem infer_app_iff_headType? (hany : c.anyArgs? head = none) :
    c.infer (.app head xs) = .ok τ
      ↔ ∃ σ, c.headType? head = some σ ∧ σ.afterArgs head xs.length = .ok τ := by
  rcases head.exists_atom_or_not with ⟨a, rfl⟩ | hnot
  · cases a with
    | var v => exact inferAtomHead_var_eq_ok
    | builtin b => cases hany
    | const text stated =>
        have happ : c.infer (.app (.atom (.const text stated)) xs)
            = c.inferAtomHead (.const text stated) xs.length := rfl
        have hoffer : c.headType? (.atom (.const text stated))
            = (c.symbol? text).or stated := rfl
        rw [happ, hoffer]
        unfold inferAtomHead
        cases hsymbol : c.symbol? text with
        | some type => simp [hsymbol]
        | none =>
            cases stated with
            | none => simp [hsymbol]
            | some type =>
                have hatomic : ¬ type.isAtomic = true := by
                  intro h
                  simp [anyArgs?, hsymbol, h] at hany
                simp [hsymbol, hatomic]
  · simp only [headType?_of_not_atom hnot]
    exact infer_app_iff_infer hnot

/-- A head that takes any arguments has its one type with all of them. -/
theorem infer_app_of_anyArgs? (hany : c.anyArgs? head = some τ) :
    c.infer (.app head xs) = .ok τ ∧ τ.isAtomic = true := by
  rcases anyArgs?_eq_some hany with ⟨b, rfl, rfl⟩ | ⟨text, rfl, hsymbol, hatomic⟩
  · exact ⟨rfl, b.isAtomic_resultType⟩
  · have happ : c.infer (.app (.atom (.const text (some τ))) xs)
        = c.inferAtomHead (.const text (some τ)) xs.length := rfl
    refine ⟨?_, hatomic⟩
    rw [happ]
    unfold inferAtomHead
    simp only [hsymbol, if_pos hatomic]

-- ============================================================= in parts

/-- All arguments at once, or some first and the others on top. -/
theorem infer_app_append (hany : c.anyArgs? head = none) :
    c.infer (.app head (xs ++ ys)) = .ok τ
      ↔ c.infer (.app (.app head xs) ys) = .ok τ := by
  have hnot : (Term.app head xs).isAtom = false := rfl
  rw [infer_app_iff_infer hnot]
  simp only [infer_app_iff_headType? hany, List.length_append]
  constructor
  · intro h
    obtain ⟨ρ, hρ, hall⟩ := h
    obtain ⟨σ, hsome, hrest⟩ := Ty.afterArgs_append.1 hall
    exact ⟨σ, ⟨ρ, hρ, hsome⟩, hrest⟩
  · intro h
    obtain ⟨σ, ⟨ρ, hρ, hsome⟩, hrest⟩ := h
    exact ⟨ρ, hρ, Ty.afterArgs_append.2 ⟨σ, hsome, hrest⟩⟩

/-- An application types alike at once and in parts, with any type and
with none, exactly if its head does not take just any arguments or the
second part has none: a built-in, and a constant that is not registered
and states an atomic type, leave nothing for a second part to take. -/
theorem application_types_in_parts (c : Context) (head : Term)
    (xs ys : List Term) :
    (∀ τ, c.infer (.app head (xs ++ ys)) = .ok τ
        ↔ c.infer (.app (.app head xs) ys) = .ok τ)
      ↔ c.anyArgs? head = none ∨ ys = [] := by
  have hnot : (Term.app head xs).isAtom = false := rfl
  constructor
  · intro halike
    cases hany : c.anyArgs? head with
    | none => exact .inl rfl
    | some τ =>
        right
        cases ys with
        | nil => rfl
        | cons y ys =>
            have hparts := (halike τ).1 (infer_app_of_anyArgs? hany).1
            obtain ⟨σ, hσ, hrest⟩ := (infer_app_iff_infer hnot).1 hparts
            obtain ⟨hsome, hatomic⟩ :
                c.infer (.app head xs) = .ok τ ∧ τ.isAtomic = true :=
              infer_app_of_anyArgs? hany
            cases Except.ok.inj (hsome.symm.trans hσ)
            exact absurd hrest (Ty.afterArgs_succ_of_isAtomic hatomic _ _)
  · intro h τ
    rcases h with hany | rfl
    · exact infer_app_append hany
    · -- a second application to nothing keeps the type of the first
      rw [infer_app_iff_infer hnot, List.append_nil]
      simp

end Context

-- =========================================================== one by one

/-- The head applied to the arguments one after the other. -/
def Term.appEach (head : Term) (xs : List Term) : Term :=
  xs.foldl (fun t x => .app t [x]) head

/-- Arguments taken one by one give the type that they give at once. -/
theorem Context.infer_appEach {c : Context} {head : Term} {xs : List Term}
    {τ : Ty} (hany : c.anyArgs? head = none) (hxs : xs ≠ []) :
    c.infer (head.appEach xs) = .ok τ ↔ c.infer (.app head xs) = .ok τ := by
  induction xs generalizing head with
  | nil => exact absurd rfl hxs
  | cons x xs ih =>
      cases xs with
      | nil => exact Iff.rfl
      | cons y ys =>
          -- the application to `x` is the head of what follows
          calc c.infer (head.appEach (x :: y :: ys)) = .ok τ
              ↔ c.infer (.app (.app head [x]) (y :: ys)) = .ok τ :=
                ih rfl (List.cons_ne_nil y ys)
            _ ↔ c.infer (.app head (x :: y :: ys)) = .ok τ :=
                (infer_app_append hany).symm

end LogicalForm
