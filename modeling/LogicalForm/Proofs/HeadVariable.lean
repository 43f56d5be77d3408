/-
The variable that decides the type of a term. Inference follows the
bodies of lambdas and the heads of applications and looks at nothing
else, so at most one variable is looked up in the context: the one at the
end of that path, if a variable is there. `Term.headVar?` finds it.

# What is proved of it

- Contexts that agree on the symbols and on the head variable infer the
  same (`Context.infer_congr`).
- A term with a type that is known has a head variable whose type is
  known (`Context.known?_headVar`).
- The first place at which a term mentions its head variable is a place
  that binds it, unless the variable occurs free
  (`Term.exists_find?_headVar`): the path passes a binder of the variable
  before it comes to any argument. So registering a closed term gives its
  head variable the type of that place, whenever the context to register
  from does not know better.
-/
import LogicalForm.Form.Termination
import LogicalForm.Proofs.Scope

namespace LogicalForm

-- ======================================================== applications

namespace Ty

@[simp] theorem afterArgs_zero (t : Ty) (head : Term) :
    t.afterArgs head 0 = .ok t := by
  cases t <;> rfl

/-- The head matters for the error only. -/
theorem afterArgs_eq_ok {t τ : Ty} {head head' : Term} {n : Nat}
    (h : t.afterArgs head n = .ok τ) : t.afterArgs head' n = .ok τ := by
  induction n generalizing t with
  | zero =>
      rw [afterArgs_zero] at h ⊢
      exact h
  | succ n ih =>
      cases t with
      | func d c => exact ih h
      | _ => cases h

/-- What is left is known only if something known was there. -/
theorem ne_unknown_of_afterArgs {t τ : Ty} {head : Term} {n : Nat}
    (h : t.afterArgs head n = .ok τ) (hτ : τ ≠ .unknown) : t ≠ .unknown := by
  intro heq
  subst heq
  cases n with
  | zero =>
      cases h
      exact hτ rfl
  | succ n => cases h

/-- An atomic type takes nothing. -/
theorem afterArgs_succ_of_isAtomic {t τ : Ty} (ht : t.isAtomic = true)
    (head : Term) (n : Nat) : t.afterArgs head (n + 1) ≠ .ok τ := by
  cases t with
  | func d c => cases ht
  | unknown => cases ht
  | _ =>
      intro h
      cases h

theorem func_ne_unknown (d c : Ty) : Ty.func d c ≠ .unknown := by
  intro h
  cases h

theorem Known.ne_unknown {t : Ty} (h : t.Known) : t ≠ .unknown := by
  intro heq
  subst heq
  exact h

/-- An atomic type is known. -/
theorem known_of_isAtomic {t : Ty} (h : t.isAtomic = true) : t.Known := by
  cases t with
  | func d c => cases h
  | unknown => cases h
  | _ => trivial

end Ty

/-- Built-ins yield entities, truth values and counts, and no functions. -/
theorem Builtin.isAtomic_resultType (b : Builtin) :
    b.resultType.isAtomic = true := by
  cases b <;> rfl

-- ======================================================= head variable

namespace Term

/-- The variable at the end of the path along which types are inferred. -/
def headVar? : Term → Option Var
  | .atom (.var v) => some v
  | .atom _ => none
  | .lambda _ _ body => headVar? body
  | .binder .. => none
  | .app head _ => headVar? head

/-- What heads an application is an atom or is inferred on its own. -/
theorem exists_atom_or_not (t : Term) :
    (∃ a, t = .atom a) ∨ t.isAtom = false := by
  cases t with
  | atom a => exact .inl ⟨a, rfl⟩
  | _ => exact .inr rfl

/-- The variable at the end of the path is one of the term. -/
theorem mem_vars_of_headVar? {t : Term} {w : Var} (h : t.headVar? = some w) :
    w ∈ t.vars := by
  induction t with
  | atom a =>
      cases a with
      | var v =>
          cases h
          exact mem_vars_atom.2 rfl
      | _ => cases h
  | lambda v type body ih => exact mem_vars_lambda.2 (.inr (ih h))
  | binder op v args _ => cases h
  | app head args ih _ => exact mem_vars_app.2 (.inl (ih h))

/-- The first mention of the head variable binds it, unless the variable
occurs free. -/
theorem exists_find?_headVar {t : Term} {w : Var} (h : t.headVar? = some w) :
    ∃ o, t.visits.find? (fun o => o.var = w) = some o
      ∧ (o.site.binds = true ∨ w ∈ t.freeVars) := by
  induction t with
  | atom a =>
      cases a with
      | var v =>
          cases h
          exact ⟨⟨.atom, w⟩, by simp [visits], .inr (mem_freeVars_atom.2 rfl)⟩
      | _ => cases h
  | lambda v type body ih =>
      rw [visits, List.find?_cons]
      by_cases hv : v = w
      · exact ⟨⟨.lambda type, v⟩, by simp [hv], .inl rfl⟩
      · obtain ⟨o, ho, hplace⟩ := ih h
        refine ⟨o, by simpa [hv] using ho, ?_⟩
        rcases hplace with hbinds | hfree
        · exact .inl hbinds
        · exact .inr (mem_freeVars_lambda.2 ⟨hfree, Ne.symm hv⟩)
  | binder op v args _ => cases h
  | app head args ih _ =>
      obtain ⟨o, ho, hplace⟩ := ih h
      refine ⟨o, ?_, ?_⟩
      · rw [visits, List.find?_append, ho]
        rfl
      · rcases hplace with hbinds | hfree
        · exact .inl hbinds
        · exact .inr (mem_freeVars_app.2 (.inl hfree))

/-- A head variable occurs free or is bound. -/
theorem mem_binders_of_headVar? {t : Term} {w : Var}
    (h : t.headVar? = some w) (hfree : w ∉ t.freeVars) : w ∈ t.binders := by
  obtain ⟨o, ho, hplace⟩ := exists_find?_headVar h
  have hvar : o.var = w := var_of_find? ho
  rcases hplace with hbinds | hfree'
  · rw [← hvar]
    exact List.mem_map_of_mem
      (List.mem_filter.2 ⟨List.mem_of_find?_eq_some ho, hbinds⟩)
  · exact absurd hfree' hfree

end Term

namespace Context

-- ============================================================ inference

/-- Under a head that is no atom, an application takes as many codomains as
it has arguments. -/
theorem infer_app_of_not_atom {c : Context} {head : Term} {args : List Term}
    (hhead : head.isAtom = false) :
    c.infer (.app head args)
      = match c.infer head with
        | .error e => .error e
        | .ok type => type.afterArgs head args.length := by
  cases head with
  | atom a => cases hhead
  | _ => rfl

/-- An application that has a type has a head with a type. -/
theorem infer_app_eq_ok {c : Context} {head : Term} {args : List Term} {τ : Ty}
    (hhead : head.isAtom = false) (h : c.infer (.app head args) = .ok τ) :
    ∃ σ, c.infer head = .ok σ ∧ σ.afterArgs head args.length = .ok τ := by
  rw [infer_app_of_not_atom hhead] at h
  split at h
  · cases h
  · rename_i σ hσ
    exact ⟨σ, hσ, h⟩

/-- An abstraction over a body of a known type is typed. -/
theorem infer_lambda_of_infer {c : Context} {v : Var} {type τ : Ty}
    {body : Term} (h : c.infer body = .ok τ) (hτ : τ ≠ .unknown) :
    c.infer (.lambda v type body) = .ok (.func type τ) := by
  rw [infer, h]
  cases τ with
  | unknown => exact absurd rfl hτ
  | _ => rfl

/-- The type of the body of an abstraction is known. -/
theorem ne_unknown_of_infer_lambda {c : Context} {v : Var} {type σ τ : Ty}
    {body : Term} (h : c.infer (.lambda v type body) = .ok (.func σ τ)) :
    σ = type ∧ c.infer body = .ok τ ∧ τ ≠ .unknown := by
  obtain ⟨codomain, hbody, htype⟩ := infer_lambda_eq_ok h
  cases htype
  refine ⟨rfl, hbody, ?_⟩
  intro heq
  subst heq
  rw [infer, hbody] at h
  cases h

theorem inferAtom_var_eq_ok {c : Context} {v : Var} {τ : Ty} :
    c.inferAtom (.var v) = .ok τ ↔ c.var? v = some τ := by
  rw [inferAtom]
  cases h : c.var? v with
  | none => simp
  | some type => simp

/-- A built-in by itself has a type only if its name is registered. -/
theorem inferAtom_builtin_eq_ok {c : Context} {b : Builtin} {τ : Ty} :
    c.inferAtom (.builtin b) = .ok τ ↔ c.symbol? b.name = some τ := by
  rw [inferAtom]
  cases h : c.symbol? b.name with
  | none => simp
  | some type => simp

/-- A constant has its registered type, or else the one that it states. -/
theorem inferAtom_const_eq_ok {c : Context} {text : String} {stated : Option Ty}
    {τ : Ty} :
    c.inferAtom (.const text stated) = .ok τ
      ↔ (c.symbol? text).or stated = some τ := by
  rw [inferAtom]
  cases h : (c.symbol? text).or stated with
  | none => simp
  | some type => simp

/-- A variable at the head needs a type that is known. -/
theorem inferAtomHead_var_eq_ok {c : Context} {v : Var} {n : Nat} {τ : Ty} :
    c.inferAtomHead (.var v) n = .ok τ
      ↔ ∃ σ, c.known? v = some σ ∧ σ.afterArgs (.ofVar v) n = .ok τ := by
  rw [inferAtomHead, known?]
  cases h : c.var? v with
  | none => simp
  | some type => cases type <;> simp

theorem symbol?_congr {c d : Context} (h : c.symbols = d.symbols)
    (name : String) : c.symbol? name = d.symbol? name := by
  unfold symbol?
  rw [h]

/-- The type at which an atom is applied depends on the symbols and on the
atom itself, if that is a variable. -/
theorem inferAtomHead_congr {c d : Context} {a : Atom} {n : Nat}
    (hsymbol : ∀ name, c.symbol? name = d.symbol? name)
    (hvar : ∀ w, a = .var w → c.var? w = d.var? w) :
    c.inferAtomHead a n = d.inferAtomHead a n := by
  cases a with
  | var v =>
      unfold inferAtomHead
      simp only [hvar v rfl]
  | builtin b => rfl
  | const text stated =>
      unfold inferAtomHead
      simp only [hsymbol]

/-- Inference asks for the symbols and for the head variable only. -/
theorem infer_congr {c d : Context} {t : Term} (hsymbols : c.symbols = d.symbols)
    (hvar : ∀ w, t.headVar? = some w → c.var? w = d.var? w) :
    c.infer t = d.infer t := by
  have hsymbol := symbol?_congr hsymbols
  induction t with
  | atom a =>
      cases a with
      | var v =>
          rw [infer, infer, inferAtom, inferAtom]
          simp only [hvar v rfl]
      | builtin b =>
          rw [infer, infer, inferAtom, inferAtom]
          simp only [hsymbol]
      | const text stated =>
          rw [infer, infer, inferAtom, inferAtom]
          simp only [hsymbol]
  | lambda v type body ih => rw [infer, infer, ih hvar]
  | binder op v args _ => rfl
  | app head args ih _ =>
      rcases head.exists_atom_or_not with ⟨a, rfl⟩ | hnot
      · refine inferAtomHead_congr hsymbol fun w hw => hvar w ?_
        rw [hw]
        rfl
      · rw [infer_app_of_not_atom hnot, infer_app_of_not_atom hnot, ih hvar]

/-- A type counts as known unless it is the placeholder. -/
theorem known?_eq_some {c : Context} {v : Var} {type : Ty} :
    c.known? v = some type ↔ c.var? v = some type ∧ type ≠ .unknown := by
  constructor
  · intro h
    refine ⟨?_, ne_unknown_of_known? h⟩
    unfold known? at h
    split at h
    · cases h
    · exact h
  · intro h
    obtain ⟨h, htype⟩ := h
    exact known?_of_ne h htype

/-- Where the type is known, that of the head variable is. -/
theorem known?_headVar {c : Context} {t : Term} {τ : Ty}
    (h : c.infer t = .ok τ) (hτ : τ ≠ .unknown) {w : Var}
    (hw : t.headVar? = some w) : ∃ σ, c.known? w = some σ := by
  induction t generalizing τ with
  | atom a =>
      cases a with
      | var v =>
          cases hw
          exact ⟨τ, known?_of_ne (inferAtom_var_eq_ok.1 h) hτ⟩
      | _ => cases hw
  | lambda v type body ih =>
      obtain ⟨codomain, -, rfl⟩ := infer_lambda_eq_ok h
      obtain ⟨-, hbody, hne⟩ := ne_unknown_of_infer_lambda h
      exact ih hbody hne hw
  | binder op v args _ => cases hw
  | app head args ih _ =>
      rcases head.exists_atom_or_not with ⟨a, rfl⟩ | hnot
      · cases a with
        | var v =>
            cases hw
            obtain ⟨σ, hσ, -⟩ := inferAtomHead_var_eq_ok.1 h
            exact ⟨σ, hσ⟩
        | _ => cases hw
      · obtain ⟨σ, hσ, hafter⟩ := infer_app_eq_ok hnot h
        exact ih hσ (Ty.ne_unknown_of_afterArgs hafter hτ) hw

-- ====================================================== fewer variables

/-- What `c` knows of variables, `d` says as well. -/
def Within (c d : Context) : Prop :=
  ∀ v type, c.known? v = some type → d.var? v = some type

/-- A known type is inferred in every context that says as much. -/
theorem Within.infer {c d : Context} (hcd : c.Within d)
    (hsymbols : c.symbols = d.symbols) {t : Term} {τ : Ty}
    (h : c.infer t = .ok τ) (hτ : τ ≠ .unknown) : d.infer t = .ok τ := by
  rw [← h]
  refine (infer_congr hsymbols fun w hw => ?_).symm
  obtain ⟨σ, hσ⟩ := known?_headVar h hτ hw
  rw [hcd w σ hσ, (known?_eq_some.1 hσ).1]

/-- No built-in is registered under its name. -/
def PlainBuiltins (c : Context) : Prop := ∀ b : Builtin, c.symbol? b.name = none

/-- An atom may stand for itself or as a head: its type is the same. -/
theorem inferAtomHead_of_inferAtom {c : Context} (hplain : c.PlainBuiltins)
    {a : Atom} {head : Term} {σ τ : Ty} {n : Nat} (ha : c.inferAtom a = .ok σ)
    (hσ : σ ≠ .unknown) (h : σ.afterArgs head n = .ok τ) :
    c.inferAtomHead a n = .ok τ := by
  cases a with
  | var v =>
      have hknown := known?_of_ne (inferAtom_var_eq_ok.1 ha) hσ
      exact inferAtomHead_var_eq_ok.2 ⟨σ, hknown, Ty.afterArgs_eq_ok h⟩
  | builtin b =>
      rw [inferAtom] at ha
      simp only [hplain b] at ha
      cases ha
  | const text stated =>
      have hor := inferAtom_const_eq_ok.1 ha
      unfold inferAtomHead
      cases hs : c.symbol? text with
      | some type =>
          rw [hs] at hor
          cases hor
          simp only [hs]
          exact Ty.afterArgs_eq_ok h
      | none =>
          rw [hs, Option.none_or] at hor
          subst hor
          simp only [hs]
          split
          · rename_i hatomic
            cases n with
            | zero =>
                rw [Ty.afterArgs_zero] at h
                exact h
            | succ n => exact absurd h (Ty.afterArgs_succ_of_isAtomic hatomic head n)
          · exact Ty.afterArgs_eq_ok h

/-- An application whose head has a known type takes the codomains of
that type, whatever the head is. -/
theorem infer_app_of_infer {c : Context} (hplain : c.PlainBuiltins)
    {head head' : Term} {args : List Term} {σ τ : Ty}
    (hhead : c.infer head = .ok σ) (hσ : σ ≠ .unknown)
    (h : σ.afterArgs head' args.length = .ok τ) :
    c.infer (.app head args) = .ok τ := by
  rcases head.exists_atom_or_not with ⟨a, rfl⟩ | hnot
  · exact inferAtomHead_of_inferAtom hplain hhead hσ h
  · rw [infer_app_of_not_atom hnot, hhead]
    exact Ty.afterArgs_eq_ok h

end Context

end LogicalForm
