/-
Terms that are typed throughout. Inference follows one path through a
term and never looks at arguments (`Typing.Inference`), so that a term has
a type says nothing of its parts. `Context.fullType?` looks at all of
them: every variable has the type at which it is bound, every body has a
type, and a head takes its arguments one by one, each of exactly the type
it asks for. Heads that take anything are excepted (`Context.anyArgs?`).

# What it is good for

- It is what inference gives (`infer_of_fullType?`), and a known type
  (`known_of_fullType?`).
- It depends on the types of the variables alone, so it may be asked of
  one context while inference runs in others that agree with it
  (`fullType?_mapVars`, `fullType?_congr`).
- Registering a term that is typed throughout needs no help but for its
  free variables: the first mention of any other variable binds it, and so
  states its type (`var?_register_of_fullType?`).
- Substitution keeps it (`fullType?_app_of_takes` for the one case that is
  not plain).
-/
import LogicalForm.Proofs.TypePreservation

namespace LogicalForm

-- ========================================================= applications

namespace Ty

/-- What is left of a type after arguments of exactly the types that it
asks for, one after the other. -/
def takes : List Ty → Ty → Option Ty
  | [], t => some t
  | σ :: σs, func d c => if σ = d then takes σs c else none
  | _ :: _, _ => none

@[simp] theorem takes_nil (t : Ty) : t.takes [] = some t := by
  cases t <;> rfl

/-- The first argument has to be of the domain, and the others go to the
codomain. -/
theorem takes_cons_eq_some {t σ τ : Ty} {σs : List Ty} :
    t.takes (σ :: σs) = some τ
      ↔ ∃ c, t = .func σ c ∧ c.takes σs = some τ := by
  constructor
  · intro h
    cases t with
    | func d c =>
        rw [takes] at h
        split at h
        · rename_i heq
          exact ⟨c, by rw [heq], h⟩
        · cases h
    | _ => cases h
  · intro h
    obtain ⟨c, rfl, h⟩ := h
    rw [takes, if_pos rfl, h]

/-- A type that takes such arguments has as many codomains, and inference
arrives at the same one. -/
theorem afterArgs_of_takes {t τ : Ty} {σs : List Ty} (head : Term)
    (h : t.takes σs = some τ) : t.afterArgs head σs.length = .ok τ := by
  induction σs generalizing t with
  | nil =>
      rw [takes_nil] at h
      cases h
      exact afterArgs_zero τ head
  | cons σ σs ih =>
      obtain ⟨c, rfl, hrest⟩ := takes_cons_eq_some.1 h
      exact ih hrest

/-- What is left of a known type is known. -/
theorem Known.takes {t τ : Ty} {σs : List Ty} (ht : t.Known)
    (h : t.takes σs = some τ) : τ.Known := by
  induction σs generalizing t with
  | nil =>
      rw [takes_nil] at h
      cases h
      exact ht
  | cons σ σs ih =>
      obtain ⟨c, rfl, hrest⟩ := takes_cons_eq_some.1 h
      exact ih ht.2 hrest

/-- A type without domain takes nothing. -/
theorem eq_of_takes_of_isAtomic {t τ : Ty} {σs : List Ty}
    (ht : t.isAtomic = true) (h : t.takes σs = some τ) : t = τ := by
  cases σs with
  | nil =>
      rw [takes_nil] at h
      exact Option.some.inj h
  | cons σ σs =>
      obtain ⟨c, rfl, -⟩ := takes_cons_eq_some.1 h
      cases ht

end Ty

namespace Context

-- ========================================================== full typing

/-- The type of an atom that stands by itself. A built-in is typed as a
head only. -/
def atomType? (c : Context) : Atom → Option Ty
  | .var v => c.var? v
  | .builtin _ => none
  | .const text stated => (c.symbol? text).or stated

/-- The type of the applications of a head that takes any arguments: a
built-in, or a constant that is not registered and states an atomic
type. -/
def anyArgs? (c : Context) : Term → Option Ty
  | .atom (.builtin b) => some b.resultType
  | .atom (.const text (some type)) =>
    if c.symbol? text = none ∧ type.isAtomic then some type else none
  | _ => none

mutual
/-- The type of a term that is typed throughout: every variable has the
type at which it is bound, and every application has arguments of exactly
the types that its head asks for, unless that takes any arguments. -/
def fullType? (c : Context) : Term → Option Ty
  | .atom a => (c.atomType? a).filter fun type => type.Known
  | .lambda v type body =>
    if c.var? v = some type ∧ type.Known then
      (fullType? c body).map (.func type)
    else none
  | .binder op v args =>
    if c.var? v = some .entity then
      (fullTypes? c args).map fun _ => op.resultType
    else none
  | .app head args =>
    (fullTypes? c args).bind fun σs =>
      match c.anyArgs? head with
      | some τ => some τ
      | none => (fullType? c head).bind fun σ => σ.takes σs
/-- The types of terms that are typed throughout. -/
def fullTypes? (c : Context) : List Term → Option (List Ty)
  | [] => some []
  | t :: ts =>
    (fullType? c t).bind fun σ => (fullTypes? c ts).map fun σs => σ :: σs
end

/-- Terms are typed throughout if each of them is. -/
theorem fullTypes?_eq_some {c : Context} {ts : List Term} {σs : List Ty} :
    c.fullTypes? ts = some σs
      ↔ List.Forall₂ (fun t σ => c.fullType? t = some σ) ts σs := by
  induction ts generalizing σs with
  | nil =>
      rw [fullTypes?, List.forall₂_nil_left_iff, Option.some.injEq]
      exact eq_comm
  | cons t ts ih =>
      rw [fullTypes?, List.forall₂_cons_left_iff]
      constructor
      · intro h
        obtain ⟨σ, hσ, h⟩ := Option.bind_eq_some_iff.1 h
        obtain ⟨σs', hσs, rfl⟩ := Option.map_eq_some_iff.1 h
        exact ⟨σ, σs', hσ, ih.1 hσs, rfl⟩
      · intro h
        obtain ⟨σ, σs', hσ, hσs, rfl⟩ := h
        rw [hσ, Option.bind_some, ih.2 hσs, Option.map_some]

section

variable {c : Context} {τ : Ty}

theorem fullType?_atom_eq_some {a : Atom} :
    c.fullType? (.atom a) = some τ ↔ c.atomType? a = some τ ∧ τ.Known := by
  rw [fullType?, Option.filter_eq_some_iff, decide_eq_true_iff]

theorem fullType?_lambda_eq_some {v : Var} {type : Ty} {body : Term} :
    c.fullType? (.lambda v type body) = some τ
      ↔ (c.var? v = some type ∧ type.Known)
        ∧ ∃ κ, c.fullType? body = some κ ∧ .func type κ = τ := by
  rw [fullType?]
  split
  · rename_i h
    rw [Option.map_eq_some_iff, and_iff_right h]
  · rename_i h
    constructor
    · intro hnone
      cases hnone
    · intro hvar
      exact absurd hvar.1 h

theorem fullType?_binder_eq_some {op : Builtin} {v : Var} {args : List Term} :
    c.fullType? (.binder op v args) = some τ
      ↔ c.var? v = some .entity
        ∧ ∃ σs, List.Forall₂ (fun t σ => c.fullType? t = some σ) args σs
          ∧ op.resultType = τ := by
  simp only [← fullTypes?_eq_some]
  rw [fullType?]
  split
  · rename_i h
    rw [Option.map_eq_some_iff, and_iff_right h]
  · rename_i h
    constructor
    · intro hnone
      cases hnone
    · intro hvar
      exact absurd hvar.1 h

/-- An application is typed throughout if its arguments are and its head
takes them, or takes any. -/
theorem fullType?_app_eq_some {head : Term} {args : List Term} :
    c.fullType? (.app head args) = some τ
      ↔ ∃ σs, List.Forall₂ (fun t σ => c.fullType? t = some σ) args σs
        ∧ (c.anyArgs? head = some τ
          ∨ c.anyArgs? head = none
            ∧ ∃ σ, c.fullType? head = some σ ∧ σ.takes σs = some τ) := by
  simp only [← fullTypes?_eq_some]
  rw [fullType?, Option.bind_eq_some_iff]
  refine exists_congr fun σs => and_congr_right fun _ => ?_
  cases c.anyArgs? head with
  | some τ' => simp
  | none => simp [Option.bind_eq_some_iff]

/-- Only built-ins and unregistered constants of an atomic type take any
arguments. -/
theorem anyArgs?_eq_some {head : Term} (h : c.anyArgs? head = some τ) :
    (∃ b : Builtin, head = .atom (.builtin b) ∧ τ = b.resultType)
      ∨ ∃ text, head = .atom (.const text (some τ))
        ∧ c.symbol? text = none ∧ τ.isAtomic = true := by
  unfold anyArgs? at h
  split at h
  · cases h
    exact .inl ⟨_, rfl, rfl⟩
  · split at h
    · rename_i hconst
      cases h
      exact .inr ⟨_, rfl, hconst⟩
    · cases h
  · cases h

/-- A head of a function type takes arguments of the types that it asks
for, also if it takes any. -/
theorem fullType?_app_of_takes {head : Term} {args : List Term} {σ : Ty}
    {σs : List Ty}
    (hargs : List.Forall₂ (fun t σ => c.fullType? t = some σ) args σs)
    (hhead : c.fullType? head = some σ) (htakes : σ.takes σs = some τ) :
    c.fullType? (.app head args) = some τ := by
  refine fullType?_app_eq_some.2 ⟨σs, hargs, ?_⟩
  cases hany : c.anyArgs? head with
  | none => exact .inr ⟨rfl, σ, hhead, htakes⟩
  | some τ' =>
      left
      rcases anyArgs?_eq_some hany with ⟨b, rfl, -⟩ | ⟨text, rfl, hsymbol, hatomic⟩
      · cases (fullType?_atom_eq_some.1 hhead).1
      · have htype := (fullType?_atom_eq_some.1 hhead).1
        rw [atomType?, hsymbol, Option.none_or] at htype
        cases htype
        rw [Ty.eq_of_takes_of_isAtomic hatomic htakes]

-- ================================================== types of the parts

/-- The type of a term that is typed throughout is known. -/
theorem known_of_fullType? {t : Term} (h : c.fullType? t = some τ) :
    τ.Known := by
  induction t generalizing τ with
  | atom a => exact (fullType?_atom_eq_some.1 h).2
  | lambda v type body ih =>
      obtain ⟨⟨-, htype⟩, κ, hbody, rfl⟩ := fullType?_lambda_eq_some.1 h
      exact ⟨htype, ih hbody⟩
  | binder op v args _ =>
      obtain ⟨-, -, -, rfl⟩ := fullType?_binder_eq_some.1 h
      exact op.resultType_known
  | app head args ihHead _ =>
      obtain ⟨σs, -, hany | ⟨-, σ, hσ, htakes⟩⟩ := fullType?_app_eq_some.1 h
      · rcases anyArgs?_eq_some hany with ⟨b, -, rfl⟩ | ⟨-, -, -, hatomic⟩
        · exact b.resultType_known
        · exact Ty.known_of_isAtomic hatomic
      · exact (ihHead hσ).takes htakes

/-- Every variable of a term that is typed throughout has a known type. -/
theorem known?_of_fullType? {t : Term} (h : c.fullType? t = some τ) {v : Var}
    (hv : v ∈ t.vars) : ∃ σ, c.known? v = some σ := by
  induction t generalizing τ with
  | atom a =>
      obtain ⟨htype, hknown⟩ := fullType?_atom_eq_some.1 h
      rw [Term.mem_vars_atom.1 hv] at htype
      exact ⟨τ, known?_of_ne htype hknown.ne_unknown⟩
  | lambda w type body ih =>
      obtain ⟨⟨hw, hknown⟩, κ, hbody, -⟩ := fullType?_lambda_eq_some.1 h
      rcases Term.mem_vars_lambda.1 hv with rfl | hv
      · exact ⟨type, known?_of_ne hw hknown.ne_unknown⟩
      · exact ih hbody hv
  | binder op w args ih =>
      obtain ⟨hw, σs, hargs, -⟩ := fullType?_binder_eq_some.1 h
      rcases Term.mem_vars_binder.1 hv with rfl | ⟨t, ht, hv⟩
      · exact ⟨.entity, known?_of_ne hw Ty.noConfusion⟩
      · obtain ⟨σ, -, hσ⟩ := exists_right_of_mem hargs ht
        exact ih t ht hσ hv
  | app head args ihHead ihArgs =>
      obtain ⟨σs, hargs, hhead⟩ := fullType?_app_eq_some.1 h
      rcases Term.mem_vars_app.1 hv with hv | ⟨t, ht, hv⟩
      · rcases hhead with hany | ⟨-, σ, hσ, -⟩
        · rcases anyArgs?_eq_some hany with ⟨b, rfl, -⟩ | ⟨text, rfl, -⟩
          · cases Term.mem_vars_atom.1 hv
          · cases Term.mem_vars_atom.1 hv
        · exact ihHead hσ hv
      · obtain ⟨σ, -, hσ⟩ := exists_right_of_mem hargs ht
        exact ihArgs t ht hσ hv

/-- A term that is typed throughout binds every variable at the type that
the context has for it. -/
theorem agreesWith_of_fullType? {t : Term} (h : c.fullType? t = some τ) :
    t.AgreesWith c := by
  induction t generalizing τ with
  | atom a =>
      intro p hp
      rw [Term.declarations_atom] at hp
      cases hp
  | lambda w type body ih =>
      obtain ⟨⟨hw, -⟩, κ, hbody, -⟩ := fullType?_lambda_eq_some.1 h
      exact Term.agreesWith_lambda.2 ⟨hw, ih hbody⟩
  | binder op w args ih =>
      obtain ⟨hw, σs, hargs, -⟩ := fullType?_binder_eq_some.1 h
      refine Term.agreesWith_binder.2 ⟨hw, fun t ht => ?_⟩
      obtain ⟨σ, -, hσ⟩ := exists_right_of_mem hargs ht
      exact ih t ht hσ
  | app head args ihHead ihArgs =>
      obtain ⟨σs, hargs, hhead⟩ := fullType?_app_eq_some.1 h
      refine Term.agreesWith_app.2 ⟨?_, fun t ht => ?_⟩
      · rcases hhead with hany | ⟨-, σ, hσ, -⟩
        · rcases anyArgs?_eq_some hany with ⟨b, rfl, -⟩ | ⟨text, rfl, -⟩
          · intro p hp
            cases hp
          · intro p hp
            cases hp
        · exact ihHead hσ
      · obtain ⟨σ, -, hσ⟩ := exists_right_of_mem hargs ht
        exact ihArgs t ht hσ

-- ============================================================ inference

/-- Inference finds the type of an atom that has one throughout. -/
theorem inferAtom_of_atomType? {a : Atom} (h : c.atomType? a = some τ) :
    c.inferAtom a = .ok τ := by
  cases a with
  | var v => exact inferAtom_var_eq_ok.2 h
  | builtin b => cases h
  | const text stated => exact inferAtom_const_eq_ok.2 h

/-- An atom that does not take any arguments takes as many as its type has
domains. -/
theorem inferAtomHead_of_atomType? {a : Atom} {σ : Ty} {n : Nat}
    (hany : c.anyArgs? (.atom a) = none) (ha : c.atomType? a = some σ)
    (hσ : σ.Known) (hafter : σ.afterArgs (.atom a) n = .ok τ) :
    c.inferAtomHead a n = .ok τ := by
  cases a with
  | var v =>
      exact inferAtomHead_var_eq_ok.2 ⟨σ, known?_of_ne ha hσ.ne_unknown, hafter⟩
  | builtin b => cases ha
  | const text stated =>
      have hor : (c.symbol? text).or stated = some σ := ha
      unfold inferAtomHead
      cases hsymbol : c.symbol? text with
      | some type =>
          rw [hsymbol] at hor
          cases hor
          simp only [hsymbol, hafter]
      | none =>
          rw [hsymbol, Option.none_or] at hor
          subst hor
          -- an atomic type would take any arguments
          have hatomic : ¬ σ.isAtomic = true := by
            intro hatomic
            rw [anyArgs?, if_pos ⟨hsymbol, hatomic⟩] at hany
            cases hany
          simp only [hsymbol, if_neg hatomic, hafter]

/-- Inference finds the type of a term that is typed throughout. -/
theorem infer_of_fullType? {t : Term} (h : c.fullType? t = some τ) :
    c.infer t = .ok τ := by
  induction t generalizing τ with
  | atom a => exact inferAtom_of_atomType? (fullType?_atom_eq_some.1 h).1
  | lambda v type body ih =>
      obtain ⟨-, κ, hbody, rfl⟩ := fullType?_lambda_eq_some.1 h
      exact infer_lambda_of_infer (ih hbody) (known_of_fullType? hbody).ne_unknown
  | binder op v args _ =>
      obtain ⟨-, -, -, rfl⟩ := fullType?_binder_eq_some.1 h
      rfl
  | app head args ihHead _ =>
      obtain ⟨σs, hargs, hany | ⟨hnone, σ, hσ, htakes⟩⟩ :=
        fullType?_app_eq_some.1 h
      · rcases anyArgs?_eq_some hany with
          ⟨b, rfl, rfl⟩ | ⟨text, rfl, hsymbol, hatomic⟩
        · rfl
        · rw [infer]
          unfold inferAtomHead
          simp only [hsymbol, if_pos hatomic]
      · have hafter := Ty.afterArgs_of_takes head htakes
        rw [← hargs.length_eq] at hafter
        rcases head.exists_atom_or_not with ⟨a, rfl⟩ | hnot
        · obtain ⟨htype, hknown⟩ := fullType?_atom_eq_some.1 hσ
          exact inferAtomHead_of_atomType? hnone htype hknown hafter
        · rw [infer_app_of_not_atom hnot, ihHead hσ]
          exact hafter

-- inference does not look at the argument `p:t`
example :
    let t : Term := .app (.atom (.const "f:<e,t>" (some (.func .entity .truth))))
      [.atom (.const "p:t" (some .truth))]
    Context.empty.infer t = .ok .truth ∧ Context.empty.fullType? t = none := by
  decide +kernel

end

-- ====================================================== other contexts

/-- A renaming does not touch the heads that take any arguments. -/
theorem anyArgs?_mapVars {c d : Context} {f : Var → Var}
    (hsymbols : d.symbols = c.symbols) (t : Term) :
    d.anyArgs? (t.mapVars f) = c.anyArgs? t := by
  cases t with
  | atom a =>
      cases a with
      | const text stated =>
          cases stated with
          | none => rfl
          | some type =>
              show d.anyArgs? (.atom (.const text (some type))) = _
              rw [anyArgs?, anyArgs?, symbol?_congr hsymbols]
      | _ => rfl
  | _ => rfl

/-- A change of variables that keeps their types keeps full typing. -/
theorem fullType?_mapVars {c d : Context} {f : Var → Var}
    (hsymbols : d.symbols = c.symbols) {t : Term}
    (hvars : ∀ v ∈ t.vars, d.var? (f v) = c.var? v) :
    d.fullType? (t.mapVars f) = c.fullType? t := by
  have all : ∀ ts : List Term,
      (∀ t ∈ ts, d.fullType? (t.mapVars f) = c.fullType? t) →
      d.fullTypes? (ts.map (Term.mapVars f)) = c.fullTypes? ts := by
    intro ts
    induction ts with
    | nil =>
        intro _
        rfl
    | cons t ts ih =>
        intro hts
        obtain ⟨ht, hts⟩ := List.forall_mem_cons.1 hts
        rw [List.map_cons, fullTypes?, fullTypes?, ht, ih hts]
  induction t with
  | atom a =>
      cases a with
      | var v =>
          rw [Term.mapVars, fullType?, fullType?, atomType?, atomType?,
            hvars v (Term.mem_vars_atom.2 rfl)]
      | builtin b => rfl
      | const text stated =>
          show d.fullType? (.atom (.const text stated)) = _
          rw [fullType?, fullType?, atomType?, atomType?, symbol?_congr hsymbols]
  | lambda v type body ih =>
      obtain ⟨hv, hbody⟩ := Term.forall_mem_vars_lambda.1 hvars
      rw [Term.mapVars, fullType?, fullType?, hv, ih hbody]
  | binder op v args ih =>
      obtain ⟨hv, hargs⟩ := Term.forall_mem_vars_binder.1 hvars
      rw [Term.mapVars, Term.mapVarsAll_eq_map, fullType?, fullType?, hv,
        all args fun t ht => ih t ht (hargs t ht)]
  | app head args ihHead ihArgs =>
      obtain ⟨hhead, hargs⟩ := Term.forall_mem_vars_app.1 hvars
      rw [Term.mapVars, Term.mapVarsAll_eq_map, fullType?, fullType?,
        anyArgs?_mapVars hsymbols, ihHead hhead, all args fun t ht => ihArgs t ht (hargs t ht)]

/-- Full typing depends on the types of the variables alone. -/
theorem fullType?_congr {c d : Context} (hsymbols : d.symbols = c.symbols)
    {t : Term} (hvars : ∀ v ∈ t.vars, d.var? v = c.var? v) :
    d.fullType? t = c.fullType? t := by
  have hsame := fullType?_mapVars (f := id) hsymbols hvars
  rwa [Term.mapVars_id] at hsame

end Context

-- ========================================================= registration

/-- Unless a variable occurs free, its first mention binds it. -/
theorem Term.binds_of_find? {t : Term} {v : Var} {o : Visit}
    (h : t.visits.find? (fun o => o.var = v) = some o)
    (hfree : v ∉ t.freeVars) : o.site.binds = true := by
  have first {ts : List Term}
      (ih : ∀ t ∈ ts, t.visits.find? (fun o => o.var = v) = some o →
        v ∉ t.freeVars → o.site.binds = true)
      (h : (ts.flatMap visits).find? (fun o => o.var = v) = some o)
      (hfree : ∀ t ∈ ts, v ∉ t.freeVars) : o.site.binds = true := by
    rw [List.find?_flatMap] at h
    obtain ⟨t, ht, h⟩ := List.exists_of_findSome?_eq_some h
    exact ih t ht h (hfree t ht)
  induction t with
  | atom a =>
      cases a with
      | var w =>
          have ho : o = ⟨.atom, w⟩ :=
            List.mem_singleton.1 (List.mem_of_find?_eq_some h)
          have hov : o.var = v := var_of_find? h
          rw [ho] at hov
          exact absurd (mem_freeVars_atom.2 (congrArg Atom.var hov)) hfree
      | _ => cases h
  | lambda w type body ih =>
      rw [visits, List.find?_cons] at h
      split at h
      · cases h
        rfl
      · rename_i hw
        have hne : v ≠ w := by
          intro heq
          simp [heq] at hw
        exact ih h fun hv => hfree (mem_freeVars_lambda.2 ⟨hv, hne⟩)
  | binder op w args ih =>
      rw [visits, visitsAll_eq_flatMap, List.find?_cons] at h
      split at h
      · cases h
        rfl
      · rename_i hw
        have hne : v ≠ w := by
          intro heq
          simp [heq] at hw
        exact first ih h fun t ht hv =>
          hfree (mem_freeVars_binder.2 ⟨⟨t, ht, hv⟩, hne⟩)
  | app head args ihHead ihArgs =>
      rw [visits, visitsAll_eq_flatMap, List.find?_append] at h
      rcases Option.or_eq_some_iff.1 h with h | ⟨-, h⟩
      · exact ihHead h fun hv => hfree (mem_freeVars_app.2 (.inl hv))
      · exact first ihArgs h fun t ht hv =>
          hfree (mem_freeVars_app.2 (.inr ⟨t, ht, hv⟩))

/-- A variable that occurs is free somewhere or bound somewhere. -/
theorem Term.mem_freeVars_of_not_mem_binders {t : Term} {v : Var}
    (hv : v ∈ t.vars) (hbound : v ∉ t.binders) : v ∈ t.freeVars := by
  by_contra hfree
  obtain ⟨o, ho, hov⟩ := List.mem_map.1 hv
  have hsome : (t.visits.find? fun o => o.var = v).isSome := by
    rw [List.find?_isSome]
    exact ⟨o, ho, by simp [hov]⟩
  obtain ⟨first, hfirst⟩ := Option.isSome_iff_exists.1 hsome
  refine hbound (List.mem_map.2 ⟨first, List.mem_filter.2 ⟨?_, ?_⟩, ?_⟩)
  · exact List.mem_of_find?_eq_some hfirst
  · exact binds_of_find? hfirst hfree
  · exact var_of_find? hfirst

/-- Registering a term that is typed throughout in `d` gives every variable
its type in `d`, from any context that says no other things than `d` and
has the free variables: a variable that is bound is mentioned first where
it is. -/
theorem Context.var?_register_of_fullType? {c d : Context} {t : Term} {τ : Ty}
    (ht : d.fullType? t = some τ) (hc : c.Within d)
    (hfree : ∀ x ∈ t.freeVars, c.var? x = d.var? x) {v : Var}
    (hv : v ∈ t.vars) : (c.register t).var? v = d.var? v := by
  obtain ⟨type, htype⟩ := Option.isSome_iff_exists.1
    (isSome_var?_register (c := c).2 hv)
  obtain ⟨o, ho, hclass⟩ := Option.map_eq_some_iff.1 (var?_register c t v ▸ htype)
  have hov : o.var = v := Term.var_of_find? ho
  rw [classify, hov] at hclass
  cases hk : c.known? v with
  | some σ =>
      rw [hk] at hclass
      rw [htype, hc v σ hk]
      exact congrArg some hclass.symm
  | none =>
      rw [hk] at hclass
      have hbound : v ∉ t.freeVars := by
        intro hx
        obtain ⟨σ, hσ⟩ := known?_of_fullType? ht hv
        rw [known?, hfree v hx, ← known?, hσ] at hk
        cases hk
      have hdecl : (v, type) ∈ t.declarations := by
        refine Term.mem_declarations.2 ⟨o, List.mem_of_find?_eq_some ho,
          Term.binds_of_find? ho hbound, ?_⟩
        rw [hov, ← hclass]
        rfl
      rw [htype, agreesWith_of_fullType? ht _ hdecl]

end LogicalForm
