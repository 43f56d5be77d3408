/-
Where the type that could not be determined may stand. Inference never
computes with it: a head or a body of that type is an error, and the types
of arguments are not looked at. So it stands alone, as the type of a
variable that nothing classifies, and is the type of a form only where the
form is that variable (`placeholder_stays_on_variables`).

What a session keeps is `Context.Placed`: a symbol has no placeholder in
its type, and a variable has no other type with one than the placeholder
itself. Merging and moving entries only rearranges them, and registration
adds what lambdas state and what binders make of their variables.
-/
import LogicalForm.Context.Signature
import LogicalForm.Proofs.HeadVariable
import LogicalForm.Proofs.Reached

namespace LogicalForm

-- ============================================================= contexts

namespace Context

/-- The placeholder occurs in no type of the context. -/
structure TypesKnown (c : Context) : Prop where
  var : ∀ v type, c.var? v = some type → type.Known
  symbol : ∀ name type, c.symbol? name = some type → type.Known

/-- The placeholder occurs in the context as the type of a variable, and
not inside of any type. -/
structure Placed (c : Context) : Prop where
  var : ∀ v type, c.var? v = some type → type.Known ∨ type = .unknown
  symbol : ∀ name type, c.symbol? name = some type → type.Known

/-- Where the placeholder occurs in no type, it is not inside of any. -/
theorem TypesKnown.placed {c : Context} (h : c.TypesKnown) : c.Placed :=
  ⟨fun v type hv => .inl (h.var v type hv), h.symbol⟩

theorem typesKnown_empty : empty.TypesKnown := by
  refine ⟨fun v type h => ?_, fun name type h => ?_⟩
  · cases h
  · cases h

/-- A variable put in at a known type brings no placeholder. -/
theorem TypesKnown.insertVar {c : Context} (hc : c.TypesKnown) (v : Var)
    {type : Ty} (htype : type.Known) : (c.insertVar v type).TypesKnown := by
  refine ⟨fun w σ h => ?_, hc.symbol⟩
  rw [var?_insertVar] at h
  split at h
  · cases h
    exact htype
  · exact hc.var w σ h

theorem TypesKnown.insertSymbol {c : Context} (hc : c.TypesKnown)
    (name : String) {type : Ty} (htype : type.Known) :
    (c.insertSymbol name type).TypesKnown := by
  refine ⟨hc.var, fun other σ h => ?_⟩
  rw [symbol?_insertSymbol] at h
  split at h
  · cases h
    exact htype
  · exact hc.symbol other σ h

/-- A line of a signature brings no placeholder, since none can be written.
-/
theorem TypesKnown.addLine {c d : Context} (hc : c.TypesKnown)
    {line : List Char} (h : Signature.addLine c line = .ok d) :
    d.TypesKnown := by
  unfold Signature.addLine Signature.entry? at h
  split at h
  · cases h
  · cases h
    exact hc
  · rename_i entry hentry
    cases h
    split at hentry
    · cases hentry
    · split at hentry
      · cases hentry
      · rename_i type hparse
        split at hentry
        · cases hentry
          exact hc.insertVar _ (Ty.known_of_parse hparse)
        · cases hentry
          exact hc.insertSymbol _ (Ty.known_of_parse hparse)
    · cases hentry

/-- The lines of a signature bring no placeholder. -/
theorem TypesKnown.addLines {lines : List (List Char)} {c d : Context}
    (hc : c.TypesKnown) (h : lines.foldlM Signature.addLine c = .ok d) :
    d.TypesKnown := by
  induction lines generalizing c with
  | nil =>
      cases h
      exact hc
  | cons line lines ih =>
      rw [List.foldlM_cons] at h
      cases hline : Signature.addLine c line with
      | error fault =>
          rw [hline] at h
          cases h
      | ok e =>
          rw [hline] at h
          exact ih (hc.addLine hline) h

/-- A signature states types that can be spelled. -/
theorem typesKnown_of_signature {text : String} {c : Context}
    (h : ofSignature text = .ok c) : c.TypesKnown :=
  typesKnown_empty.addLines h

end Context

-- ============================================================ inference

/-- What is left of a known type after some arguments is known. -/
theorem Ty.Known.afterArgs {t τ : Ty} {head : Term} {n : Nat} (ht : t.Known)
    (h : t.afterArgs head n = .ok τ) : τ.Known := by
  induction n generalizing t with
  | zero =>
      rw [afterArgs_zero] at h
      cases h
      exact ht
  | succ n ih =>
      cases t with
      | func d c => exact ih ht.2 h
      | _ => cases h

/-- The codes of types name known types. -/
theorem Ty.known_of_ofCode? {cs : List Char} {t : Ty}
    (h : ofCode? cs = some t) : t.Known := by
  unfold ofCode? at h
  split at h
  · exact known_of_ofLetter? h
  · cases h

/-- A constant states a known type. -/
theorem Atom.known_of_spelled {text : String} {type : Ty}
    (h : (Atom.const text (some type)).Spelled) : type.Known := by
  have hconst := h.2.2.2
  unfold constant at hconst
  split at hconst
  · cases hconst
  · split at hconst
    · split at hconst
      · rename_i hparse
        cases hconst
        exact Ty.known_of_parse hparse
      · cases hconst
    · split at hconst
      · rename_i hcode
        cases hconst
        exact Ty.known_of_ofCode? hcode
      · obtain ⟨-, -, hconst⟩ := Traced.result_bind_eq_ok hconst
        cases hconst
        trivial

namespace Context.Placed

variable {c : Context} (hc : c.Placed)

include hc

/-- A constant that was read is typed without the placeholder. -/
theorem known_of_const {text : String} {stated : Option Ty}
    (ha : (Atom.const text stated).Spelled) {type : Ty}
    (h : (c.symbol? text).or stated = some type) : type.Known := by
  rcases Option.or_eq_some_iff.1 h with h | ⟨-, rfl⟩
  · exact hc.symbol text type h
  · exact Atom.known_of_spelled ha

/-- An atom that was read is typed without the placeholder, unless it is a
variable of which nothing is known. -/
theorem known_of_inferAtom {a : Atom} (ha : a.Spelled) {τ : Ty}
    (h : c.inferAtom a = .ok τ) :
    τ.Known ∨ (∃ v, a = .var v) ∧ τ = .unknown := by
  cases a with
  | var v =>
      have hentry := hc.var v τ (inferAtom_var_eq_ok.1 h)
      exact hentry.imp_right fun hτ => ⟨⟨v, rfl⟩, hτ⟩
  | builtin b => exact .inl (hc.symbol _ τ (inferAtom_builtin_eq_ok.1 h))
  | const text stated =>
      exact .inl (hc.known_of_const ha (inferAtom_const_eq_ok.1 h))

/-- The head of an application is typed without the placeholder, since a
variable of which nothing is known cannot head one. -/
theorem known_of_inferAtomHead {a : Atom} (ha : a.Spelled) {n : Nat} {τ : Ty}
    (h : c.inferAtomHead a n = .ok τ) : τ.Known := by
  cases a with
  | var v =>
      obtain ⟨σ, hσ, hafter⟩ := inferAtomHead_var_eq_ok.1 h
      obtain ⟨hentry, hne⟩ := known?_eq_some.1 hσ
      exact ((hc.var v σ hentry).resolve_right hne).afterArgs hafter
  | builtin b =>
      cases h
      exact b.resultType_known
  | const text stated =>
      unfold inferAtomHead at h
      simp only at h
      split at h
      · rename_i σ hsymbol
        exact (hc.symbol text σ hsymbol).afterArgs h
      · split at h
        · cases h
          exact Atom.known_of_spelled ha
        · exact (Atom.known_of_spelled ha).afterArgs h
      · cases h

/-- Inference gives the placeholder to variables only. -/
theorem known_of_infer {t : Term} (ht : t.Shaped (Term.spelled fun _ => True))
    {τ : Ty} (h : c.infer t = .ok τ) :
    τ.Known ∨ (∃ v, t = .ofVar v) ∧ τ = .unknown := by
  induction t generalizing τ with
  | atom a =>
      refine (hc.known_of_inferAtom (Term.Shaped.atom_iff.1 ht) h).imp_right ?_
      rintro ⟨⟨v, rfl⟩, hτ⟩
      exact ⟨⟨v, rfl⟩, hτ⟩
  | lambda v type body ih =>
      obtain ⟨htype, hbody⟩ := Term.Shaped.lambda_iff.1 ht
      obtain ⟨κ, -, rfl⟩ := infer_lambda_eq_ok h
      obtain ⟨-, hinfer, hκ⟩ := ne_unknown_of_infer_lambda h
      have hknown := (ih hbody hinfer).resolve_right fun hvar => hκ hvar.2
      exact .inl ⟨htype, hknown⟩
  | binder op v args =>
      cases h
      exact .inl op.resultType_known
  | app head args ih =>
      obtain ⟨-, hhead, -⟩ := Term.Shaped.app_iff.1 ht
      cases hatom : head.isAtom with
      | true =>
          cases head with
          | atom a =>
              have ha := Term.Shaped.atom_iff.1 hhead
              exact .inl (hc.known_of_inferAtomHead ha h)
          | lambda v type body => cases hatom
          | binder op v args => cases hatom
          | app head args => cases hatom
      | false =>
          obtain ⟨σ, hσ, hafter⟩ := infer_app_eq_ok hatom h
          refine .inl (((ih hhead hσ).resolve_right ?_).afterArgs hafter)
          rintro ⟨⟨v, rfl⟩, -⟩
          cases hatom

end Context.Placed

-- ============================================================= sessions

namespace Form

/-- No operation on forms brings the placeholder to another place. -/
theorem stable_placed : Stable Context.Placed (Term.spelled fun _ => True) where
  merge c d hc hd := by
    refine ⟨fun v type h => ?_, fun name type h => ?_⟩
    · rw [Context.var?_merge, Option.or_eq_some_iff] at h
      rcases h with h | ⟨-, h⟩
      · exact hc.var v type h
      · exact hd.var v type h
    · rw [Context.symbol?_merge, Option.or_eq_some_iff] at h
      rcases h with h | ⟨-, h⟩
      · exact hc.symbol name type h
      · exact hd.symbol name type h
  eraseVar c v hc := by
    refine ⟨fun w type h => ?_, hc.symbol⟩
    rw [Context.var?_eraseVar] at h
    split at h
    · cases h
    · exact hc.var w type h
  moved c vs offset hc := by
    refine ⟨fun w type h => ?_, hc.symbol⟩
    obtain ⟨v, hv⟩ := Context.exists_var?_of_moved h
    exact hc.var v type hv
  register c t hc ht := by
    refine ⟨fun v type h => ?_, hc.symbol⟩
    rw [Context.var?_register, Option.map_eq_some_iff] at h
    obtain ⟨o, ho, rfl⟩ := h
    have hmem := List.mem_of_find?_eq_some ho
    rw [Context.classify]
    cases hknown : c.known? o.var with
    | some σ => exact hc.var o.var σ (Context.known?_eq_some.1 hknown).1
    | none =>
        cases hsite : o.site with
        | lambda declared => exact .inl (ht.of_lambda_visit hmem hsite)
        | binder => exact .inl trivial
        | atom => exact .inr rfl
  atom_var _ := trivial
  head_var _ := trivial
  head_typed _ _ _ _ _ _ := trivial
  readable _ h := (Term.spelled_iff.1 (Term.readable_iff.1 h).1).1

/-- Signatures state known types only. Where the types of all contexts are
known, a form that is reached has a known type unless it is a variable,
and then the placeholder itself; the placeholder is all that its context
may hold for a variable besides a known type, and neither a symbol nor a
lambda has it in its type. -/
theorem placeholder_stays_on_variables :
    (∀ text c, Context.ofSignature text = .ok c → c.TypesKnown)
      ∧ ∀ f, Reached Context.TypesKnown f →
        (f.type.Known ∨ (∃ v, f.term = .ofVar v) ∧ f.type = .unknown)
        ∧ (∀ v type, f.context.var? v = some type →
            type.Known ∨ type = .unknown)
        ∧ (∀ name type, f.context.symbol? name = some type → type.Known)
        ∧ ∀ v type body, .lambda v type body ∈ f.term.subterms →
            type.Known := by
  refine ⟨fun _ _ => Context.typesKnown_of_signature, fun f hf => ?_⟩
  have hmeets := hf.meets stable_placed fun _ => Context.TypesKnown.placed
  exact ⟨hmeets.context.known_of_infer hmeets.term f.typed, hmeets.context.var,
    hmeets.context.symbol, fun _ _ _ hmem => hmeets.term _ hmem⟩

/-- A variable that nothing classifies by itself, and the same variable
among the arguments of an abstraction that is applied. -/
theorem unclassified_variable_keeps_placeholder :
    ∃ c, Context.ofSignature "q <e,t>" = .ok c
      ∧ ∃ x, (parse c "$4").result = .ok x ∧ x.type = .unknown
      ∧ ∃ f, (parse c ("(lambda $0 <e,t> (lambda $1 e "
          ++ "(and ($0 $1) (p:t $4 $1))))")).result = .ok f
      ∧ ∃ g, (parse c "q").result = .ok g
      ∧ ∃ r, (apply f g).result = .ok r
      ∧ r.context.var? ⟨4⟩ = some .unknown ∧ r.type.Known
      ∧ ∀ v type body, .lambda v type body ∈ r.term.subterms →
          type.Known := by
  have hrun : ∃ c, Context.ofSignature "q <e,t>" = .ok c
      ∧ ∃ x, (parse c "$4").result = .ok x ∧ x.type = .unknown
      ∧ ∃ f, (parse c ("(lambda $0 <e,t> (lambda $1 e "
          ++ "(and ($0 $1) (p:t $4 $1))))")).result = .ok f
      ∧ ∃ g, (parse c "q").result = .ok g
      ∧ ∃ r, (apply f g).result = .ok r
      ∧ r.context.var? ⟨4⟩ = some .unknown ∧ r.type ≠ .unknown := by
    decide +kernel
  obtain ⟨c, hc, x, hx, hxtype, f, hf, g, hg, r, hr, hvar, htype⟩ := hrun
  obtain ⟨hsignature, hreached⟩ := placeholder_stays_on_variables
  have hknown := hsignature _ c hc
  obtain ⟨hrtype, -, -, hlambda⟩ :=
    hreached r (.applied (.read hknown hf) (.read hknown hg) hr)
  exact ⟨c, hc, x, hx, hxtype, f, hf, g, hg, r, hr, hvar,
    hrtype.resolve_right fun h => htype h.2, hlambda⟩

end Form

end LogicalForm
