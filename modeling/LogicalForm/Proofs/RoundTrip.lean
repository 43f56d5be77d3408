/-
Reading and display are inverse to each other. A term that a text writes
has a shape of its own (`Term.Readable`): indices within range, constants
whose text is a word and means this constant, types that can be spelled,
binders that bind, and no application that opens with a word which would
have made it a lambda or a binder. Every term of that shape is read back
from either of its displays, and no other term is written by any text
(`reading_inverts_display`).

The display of a term is the plain spelling of an s-expression
(`Term.chars_toSexp`), so both directions are about s-expressions and
follow the recursion of the reader; characters are met in words only.
-/
import LogicalForm.Proofs.Calls
import LogicalForm.Proofs.SexpGrammar
import LogicalForm.Proofs.TypeNotation
import LogicalForm.Term.Reader

namespace LogicalForm

open Text

-- ============================================================== spelling

/-- A digit may stand in a word. -/
theorem isWordChar_of_isDigit {c : Char} (h : c.isDigit = true) :
    isWordChar c = true := by
  have hc : 48 ≤ c.toNat ∧ c.toNat ≤ 57 := Char.isDigit_iff_toNat.1 h
  refine isWordChar_iff.2 ⟨?_, ?_, ?_⟩
  · simp [isBlank, inRanges, blankRanges]
    omega
  · rintro rfl
    exact absurd h (by decide)
  · rintro rfl
    exact absurd h (by decide)

theorem Var.isWord_chars (v : Var) : IsWord v.chars := by
  refine ⟨List.cons_ne_nil _ _, List.forall_mem_cons.2 ⟨by decide, ?_⟩⟩
  exact fun c hc => isWordChar_of_isDigit (isDigit_of_mem_digits hc)

theorem Marker.isWord_chars (m : Marker) : IsWord m.chars := by
  cases m <;> exact isWord_of_all (by decide) (by decide)

theorem Builtin.isWord_name (b : Builtin) : IsWord b.name.toList := by
  cases b <;> exact isWord_of_all (by decide) (by decide)

/-- A type is displayed as one word. -/
theorem Ty.isWord_chars (t : Ty) : IsWord t.chars := by
  induction t with
  | entity => exact isWord_of_all (by decide) (by decide)
  | truth => exact isWord_of_all (by decide) (by decide)
  | count => exact isWord_of_all (by decide) (by decide)
  | unknown => exact isWord_of_all (by decide) (by decide)
  | func d c ihd ihc =>
      refine ⟨List.cons_ne_nil _ _, fun x hx => ?_⟩
      simp only [chars, List.mem_cons, List.mem_append, List.not_mem_nil,
        or_false] at hx
      rcases hx with rfl | hx | rfl | hx | rfl
      · decide
      · exact ihd.2 x hx
      · decide
      · exact ihc.2 x hx
      · decide

namespace Term

mutual
/-- The s-expression whose plain spelling is the display. -/
def toSexp (m : Marker) : Term → Sexp
  | .atom a => .word a.chars
  | .lambda v type body =>
    .group [.word m.chars, .word v.chars, .word type.chars, toSexp m body]
  | .binder op v args =>
    .group (.word op.name.toList :: .word v.chars :: toSexps m args)
  | .app head args => .group (toSexp m head :: toSexps m args)
/-- The s-expressions of a list of terms. -/
def toSexps (m : Marker) : List Term → List Sexp
  | [] => []
  | t :: ts => toSexp m t :: toSexps m ts
end

theorem toSexps_eq_map (m : Marker) (ts : List Term) :
    toSexps m ts = ts.map (toSexp m) := by
  induction ts with
  | nil => rfl
  | cons t ts ih => rw [toSexps, ih, List.map_cons]

/-- The items of a group are spelled as the arguments of a term are
displayed. -/
theorem tailChars_toSexps {m : Marker} {ts : List Term}
    (h : ∀ t ∈ ts, (toSexp m t).chars = chars m t) :
    Sexp.tailChars (toSexps m ts) = argChars m ts := by
  induction ts with
  | nil => rfl
  | cons t ts ih =>
      obtain ⟨ht, hts⟩ := List.forall_mem_cons.1 h
      rw [toSexps, Sexp.tailChars, ht, ih hts, argChars]

/-- The display of a term is a plain spelling. -/
theorem chars_toSexp (m : Marker) (t : Term) :
    (toSexp m t).chars = chars m t := by
  induction t with
  | atom a => rfl
  | lambda v type body ih =>
      simp [toSexp, chars, Sexp.chars, Sexp.tailChars, ih]
  | binder op v args ih =>
      simp [toSexp, chars, Sexp.chars, Sexp.tailChars, tailChars_toSexps ih]
  | app head args ihHead ihArgs =>
      simp [toSexp, chars, Sexp.chars, ihHead, tailChars_toSexps ihArgs]

end Term

-- ======================================================== readable terms

/-- The atom is what some word is read as: a variable within range, a
built-in, or a constant whose text is a word that names neither and states
the type that the constant has. -/
def Atom.Readable : Atom → Prop
  | .var v => v.index < Var.maxIndex
  | .builtin _ => True
  | .const text stated =>
    IsWord text.toList ∧ text.toList.head? ≠ some '$'
      ∧ Builtin.ofName? text = none
      ∧ (constant text).result = .ok (.const text stated)

namespace Term

/-- A group that opens with the term is read as a lambda or a binder. -/
def opensBinding : Term → Bool
  | .atom (.builtin b) => b.isBinder
  | .atom (.const text _) => isLambdaWord text.toList
  | _ => false

/-- The term is of the shape that texts write. -/
inductive Readable : Term → Prop
  | atom {a : Atom} : a.Readable → Readable (.atom a)
  | lambda {v : Var} {type : Ty} {body : Term} :
      v.index < Var.maxIndex → type.Known → Readable body →
      Readable (.lambda v type body)
  | binder {op : Builtin} {v : Var} {args : List Term} :
      op.isBinder = true → v.index < Var.maxIndex →
      (∀ t ∈ args, Readable t) → Readable (.binder op v args)
  | app {head : Term} {args : List Term} :
      head.opensBinding = false → Readable head →
      (∀ t ∈ args, Readable t) → Readable (.app head args)

end Term

-- ========================================================= words, read back

/-- The words that name a variable are the dollar sign and the digits of
an index within range, with any number of zeros in between. -/
theorem Var.ofWord_eq_ok_iff {w : List Char} {v : Var} :
    Var.ofWord w = .ok v
      ↔ v.index < Var.maxIndex
        ∧ ∃ zeros, w = '$' :: (List.replicate zeros '0' ++ digits v.index) := by
  constructor
  · intro h
    unfold Var.ofWord at h
    split at h
    · split at h
      · rename_i n hn
        split at h
        · rename_i hlt
          cases h
          obtain ⟨zeros, rfl⟩ := decimal?_eq_some_iff_zeros.1 hn
          exact ⟨hlt, zeros, rfl⟩
        · cases h
      · cases h
    · cases h
  · rintro ⟨hlt, zeros, rfl⟩
    have hread : decimal? (List.replicate zeros '0' ++ digits v.index)
        = some v.index := decimal?_eq_some_iff_zeros.2 ⟨zeros, rfl⟩
    simp only [Var.ofWord, hread]
    exact if_pos hlt

/-- A variable is read back from its spelling if its index is below the
largest one. -/
theorem Var.ofWord_chars {v : Var} (h : v.index < Var.maxIndex) :
    Var.ofWord v.chars = .ok v :=
  Var.ofWord_eq_ok_iff.2 ⟨h, 0, rfl⟩

/-- Only indices below the largest one can be read. -/
theorem Var.index_lt_of_ofWord {w : List Char} {v : Var}
    (h : Var.ofWord w = .ok v) : v.index < Var.maxIndex :=
  (Var.ofWord_eq_ok_iff.1 h).1

/-- No built-in is named like a variable. -/
theorem Builtin.head?_name (b : Builtin) : b.name.toList.head? ≠ some '$' := by
  cases b <;> decide

/-- No built-in is named like the marker of lambdas. -/
theorem Builtin.isLambdaWord_name (b : Builtin) :
    isLambdaWord b.name.toList = false := by
  cases b <;> decide

/-- A word opens a binder if it names a built-in that binds. -/
theorem Builtin.binderOfWord?_eq_some_iff {w : List Char} {op : Builtin} :
    Builtin.binderOfWord? w = some op
      ↔ op.isBinder = true ∧ op.name.toList = w := by
  rw [Builtin.binderOfWord?, Option.filter_eq_some_iff,
    Builtin.ofName?_eq_some_iff, ← String.toList_inj, String.toList_ofList,
    and_comm]

/-- No built-in has the spelling of a variable as its name. -/
theorem Builtin.ofName?_var (v : Var) :
    Builtin.ofName? (String.ofList v.chars) = none := by
  cases hname : Builtin.ofName? (String.ofList v.chars) with
  | none => rfl
  | some b =>
      have h := Builtin.head?_name b
      rw [Builtin.ofName?_eq_some_iff.1 hname, String.toList_ofList] at h
      exact absurd rfl h

namespace Atom

/-- An atom that can be read is spelled as one word. -/
theorem Readable.isWord_chars {a : Atom} (h : a.Readable) : IsWord a.chars := by
  cases a with
  | var v => exact v.isWord_chars
  | builtin b => exact b.isWord_name
  | const text stated => exact h.1

/-- A readable atom is read back from its display. -/
theorem ofWord_chars {a : Atom} (h : a.Readable) :
    (ofWord a.chars).result = .ok a := by
  cases a with
  | var v =>
      have hhead : (Atom.var v).chars.head? = some '$' := rfl
      rw [ofWord, if_pos hhead, Traced.result_map, Traced.result_ofExcept]
      exact congrArg (Functor.map Atom.var) (Var.ofWord_chars h)
  | builtin b =>
      rw [ofWord, chars, if_neg b.head?_name, String.ofList_toList,
        Builtin.ofName?_name]
      rfl
  | const text stated =>
      obtain ⟨-, hhead, hname, hconstant⟩ := h
      rw [ofWord, chars, if_neg hhead, String.ofList_toList, hname]
      exact hconstant

/-- What is read as a constant keeps its whole text. -/
theorem eq_const_of_constant {text : String} {a : Atom}
    (h : (constant text).result = .ok a) : ∃ stated, a = .const text stated := by
  unfold constant at h
  split at h
  · cases h
    exact ⟨_, rfl⟩
  · split at h
    · split at h
      · cases h
        exact ⟨_, rfl⟩
      · cases h
    · split at h
      · cases h
        exact ⟨_, rfl⟩
      · obtain ⟨-, -, h⟩ := Traced.result_bind_eq_ok h
        cases h
        exact ⟨_, rfl⟩

/-- The three ways in which a word is read. -/
theorem ofWord_eq_ok {w : List Char} {a : Atom}
    (h : (ofWord w).result = .ok a) :
    (∃ v, Var.ofWord w = .ok v ∧ a = .var v)
    ∨ (∃ b, w.head? ≠ some '$' ∧ Builtin.ofName? (String.ofList w) = some b
      ∧ a = .builtin b)
    ∨ ∃ stated, w.head? ≠ some '$' ∧ Builtin.ofName? (String.ofList w) = none
      ∧ (constant (String.ofList w)).result = .ok a
      ∧ a = .const (String.ofList w) stated := by
  unfold ofWord at h
  split at h
  · obtain ⟨v, hv, rfl⟩ := Traced.result_map_eq_ok h
    exact .inl ⟨v, hv, rfl⟩
  · rename_i hhead
    split at h
    · rename_i b hname
      cases h
      exact .inr (.inl ⟨b, hhead, hname, rfl⟩)
    · rename_i hname
      obtain ⟨stated, rfl⟩ := eq_const_of_constant h
      exact .inr (.inr ⟨stated, hhead, hname, h, rfl⟩)

/-- What a word is read as is readable. A group that opens with the word
is a lambda or a binder exactly if the atom says so. -/
theorem readable_of_ofWord {w : List Char} (hw : IsWord w) {a : Atom}
    (h : (ofWord w).result = .ok a) :
    a.Readable
      ∧ (isLambdaWord w = false → Builtin.binderOfWord? w = none →
          Term.opensBinding (.atom a) = false) := by
  obtain ⟨v, hv, rfl⟩ | ⟨b, -, hname, rfl⟩
    | ⟨stated, hhead, hname, hconstant, rfl⟩ := ofWord_eq_ok h
  · exact ⟨Var.index_lt_of_ofWord hv, fun _ _ => rfl⟩
  · refine ⟨trivial, fun _ hbinder => ?_⟩
    rw [Builtin.binderOfWord?, hname] at hbinder
    simpa [Term.opensBinding] using hbinder
  · refine ⟨⟨?_, ?_, hname, hconstant⟩, fun hlambda _ => ?_⟩
    · rwa [String.toList_ofList]
    · rwa [String.toList_ofList]
    · rwa [Term.opensBinding, String.toList_ofList]

/-- A word that displays an atom does not make its group a lambda or a
binder unless the atom does. -/
theorem Readable.opens_application {a : Atom}
    (h : a.Readable) (hopens : Term.opensBinding (.atom a) = false) :
    isLambdaWord a.chars = false ∧ Builtin.binderOfWord? a.chars = none := by
  cases a with
  | var v =>
      refine ⟨?_, ?_⟩
      · simp [isLambdaWord, Atom.chars, Var.chars, Marker.chars]
      · rw [Builtin.binderOfWord?, Atom.chars, Builtin.ofName?_var]
        rfl
  | builtin b =>
      refine ⟨?_, ?_⟩
      · exact b.isLambdaWord_name
      · rw [Term.opensBinding] at hopens
        rw [Builtin.binderOfWord?, chars, String.ofList_toList,
          Builtin.ofName?_name, Option.filter_some, hopens]
        rfl
  | const text stated =>
      refine ⟨hopens, ?_⟩
      rw [Builtin.binderOfWord?, chars, String.ofList_toList, h.2.2.1]
      rfl

end Atom

namespace Term

-- ============================================================ one group

section

variable {text : String} {w : List Char} {rest : List Sexp}

/-- A group that opens with the marker is read as a lambda. -/
theorem ofSexp_lambda (hw : isLambdaWord w = true) (v type : List Char)
    (body : Sexp) :
    ofSexp text (.group [.word w, .word v, .word type, body]) = do
      let v ← Traced.ofExcept (Var.ofWord v)
      let type ← Traced.ofExcept
        ((Ty.parse (String.ofList type)).mapError .malformedType)
      let body ← ofSexp text body
      return .lambda v type body := by
  simp [ofSexp, hw]

/-- A group that opens with a binder is read as one, its variable before its
arguments. -/
theorem ofSexp_binder (hw : isLambdaWord w = false) {op : Builtin}
    (hop : Builtin.binderOfWord? w = some op) (v : List Char) :
    ofSexp text (.group (.word w :: .word v :: rest)) = do
      let v ← Traced.ofExcept (Var.ofWord v)
      let args ← ofSexps text rest
      return .binder op v args := by
  rw [ofSexp.eq_def]
  simp [hw, hop]

/-- A group that opens with any other word is read as an application. -/
theorem ofSexp_word (hw : isLambdaWord w = false)
    (hop : Builtin.binderOfWord? w = none) :
    ofSexp text (.group (.word w :: rest)) = do
      let head ← Atom.ofWord w
      let args ← ofSexps text rest
      return .app (.atom head) args := by
  rw [ofSexp.eq_def]
  simp [hw, hop]

/-- A group that opens with a group is an application. -/
theorem result_ofSexp_group {items : List Sexp} {head : Term}
    {args : List Term}
    (hhead : (ofSexp text (.group items)).result = .ok head)
    (hargs : (ofSexps text rest).result = .ok args) :
    (ofSexp text (.group (.group items :: rest))).result
      = .ok (.app head args) := by
  simp only [ofSexp, Traced.result_bind, hhead, hargs]
  rfl

/-- The three ways in which a group that opens with a word is read. -/
theorem ofSexp_word_eq_ok {t : Term}
    (h : (ofSexp text (.group (.word w :: rest))).result = .ok t) :
    (∃ wv wt s v type body, isLambdaWord w = true
      ∧ rest = [.word wv, .word wt, s] ∧ Var.ofWord wv = .ok v
      ∧ Ty.parse (String.ofList wt) = .ok type
      ∧ (ofSexp text s).result = .ok body ∧ t = .lambda v type body)
    ∨ (∃ op wv ss v args, Builtin.binderOfWord? w = some op
      ∧ rest = .word wv :: ss ∧ Var.ofWord wv = .ok v
      ∧ (ofSexps text ss).result = .ok args ∧ t = .binder op v args)
    ∨ ∃ a args, isLambdaWord w = false ∧ Builtin.binderOfWord? w = none
      ∧ (Atom.ofWord w).result = .ok a
      ∧ (ofSexps text rest).result = .ok args ∧ t = .app (.atom a) args := by
  rw [ofSexp.eq_def] at h
  simp only at h
  split at h
  · rename_i hlambda
    split at h
    · rename_i wv wt s
      obtain ⟨v, hv, h⟩ := Traced.result_bind_eq_ok h
      obtain ⟨type, htype, h⟩ := Traced.result_bind_eq_ok h
      obtain ⟨body, hbody, h⟩ := Traced.result_bind_eq_ok h
      cases h
      refine .inl ⟨wv, wt, s, v, type, body, hlambda, rfl, hv, ?_, hbody, rfl⟩
      cases hparse : Ty.parse (String.ofList wt) with
      | error cause =>
          rw [hparse] at htype
          cases htype
      | ok u =>
          rw [hparse] at htype
          cases htype
          rfl
    · cases h
  · rename_i hlambda
    split at h
    · rename_i op hop
      split at h
      · rename_i wv ss
        obtain ⟨v, hv, h⟩ := Traced.result_bind_eq_ok h
        obtain ⟨args, hargs, h⟩ := Traced.result_bind_eq_ok h
        cases h
        exact .inr (.inl ⟨op, wv, ss, v, args, hop, rfl, hv, hargs, rfl⟩)
      · cases h
    · rename_i hop
      obtain ⟨a, ha, h⟩ := Traced.result_bind_eq_ok h
      obtain ⟨args, hargs, h⟩ := Traced.result_bind_eq_ok h
      cases h
      exact .inr (.inr ⟨a, args, by simpa using hlambda, hop, ha, hargs, rfl⟩)

/-- A group is never read as an atom. -/
theorem isAtom_of_ofSexp_group {items : List Sexp} {t : Term}
    (h : (ofSexp text (.group items)).result = .ok t) : t.isAtom = false := by
  cases items with
  | nil => cases h
  | cons s rest =>
      cases s with
      | word w =>
          obtain ⟨wv, wt, s, v, type, body, -, -, -, -, -, rfl⟩
            | ⟨op, wv, ss, v, args, -, -, -, -, rfl⟩
            | ⟨a, args, -, -, -, -, rfl⟩ := ofSexp_word_eq_ok h
          · rfl
          · rfl
          · rfl
      | group inner =>
          obtain ⟨head, -, h⟩ := Traced.result_bind_eq_ok h
          obtain ⟨args, -, h⟩ := Traced.result_bind_eq_ok h
          cases h
          rfl

end

-- ===================================================== displays, read back

section

variable {m : Marker} {v : Var} {type : Ty} {op : Builtin} {head body : Term}
  {args : List Term}

theorem worded_lambda (h : (toSexp m body).Worded) :
    (toSexp m (.lambda v type body)).Worded := by
  refine Sexp.worded_group.2 ?_
  simp only [List.forall_mem_cons, Sexp.worded_word]
  exact ⟨m.isWord_chars, Var.isWord_chars _, Ty.isWord_chars _, h,
    List.forall_mem_nil _⟩

theorem worded_binder (h : ∀ t ∈ args, (toSexp m t).Worded) :
    (toSexp m (.binder op v args)).Worded := by
  refine Sexp.worded_group.2 ?_
  simp only [List.forall_mem_cons, Sexp.worded_word, toSexps_eq_map,
    List.forall_mem_map]
  exact ⟨Builtin.isWord_name _, Var.isWord_chars _, h⟩

theorem worded_app (hhead : (toSexp m head).Worded)
    (hargs : ∀ t ∈ args, (toSexp m t).Worded) :
    (toSexp m (.app head args)).Worded := by
  refine Sexp.worded_group.2 ?_
  simp only [List.forall_mem_cons, toSexps_eq_map, List.forall_mem_map]
  exact ⟨hhead, hargs⟩

end

/-- The display of a term that can be read is made up of words. -/
theorem worded_toSexp {m : Marker} {t : Term} (h : t.Readable) :
    (toSexp m t).Worded := by
  induction h with
  | atom ha => exact Sexp.worded_word.2 ha.isWord_chars
  | lambda _ _ _ ih => exact worded_lambda ih
  | binder _ _ _ ih => exact worded_binder ih
  | app _ _ _ ihHead ihArgs => exact worded_app ihHead ihArgs

/-- Terms are read back from their s-expressions if each of them is. -/
theorem ofSexps_toSexps {m : Marker} {text : String} {ts : List Term}
    (h : ∀ t ∈ ts, (ofSexp text (toSexp m t)).result = .ok t) :
    (ofSexps text (toSexps m ts)).result = .ok ts := by
  induction ts with
  | nil => rfl
  | cons t ts ih =>
      obtain ⟨ht, hts⟩ := List.forall_mem_cons.1 h
      simp only [toSexps, ofSexps, Traced.result_bind, ht, ih hts]
      rfl

/-- A readable term is read back from the s-expression of its display. -/
theorem ofSexp_toSexp {m : Marker} {text : String} {t : Term}
    (h : t.Readable) : (ofSexp text (toSexp m t)).result = .ok t := by
  induction h with
  | atom ha =>
      simp only [toSexp, ofSexp, Traced.result_map, Atom.ofWord_chars ha]
      rfl
  | lambda hv htype hbody ih =>
      have hmarker : isLambdaWord m.chars = true := by cases m <;> rfl
      have hread := Ty.parse_render htype
      rw [Ty.render] at hread
      rw [toSexp, ofSexp_lambda hmarker]
      simp only [Traced.result_bind, Traced.result_ofExcept,
        Var.ofWord_chars hv, hread, ih]
      rfl
  | @binder op v args hop hv hargs ih =>
      have hbinder : Builtin.binderOfWord? op.name.toList = some op :=
        Builtin.binderOfWord?_eq_some_iff.2 ⟨hop, rfl⟩
      rw [toSexp, ofSexp_binder op.isLambdaWord_name hbinder]
      simp only [Traced.result_bind, Traced.result_ofExcept,
        Var.ofWord_chars hv, ofSexps_toSexps ih]
      rfl
  | @app head args hopens hhead hargs ihHead ihArgs =>
      have htail := ofSexps_toSexps (m := m) ihArgs
      cases hhead with
      | atom ha =>
          obtain ⟨hlambda, hbinder⟩ := ha.opens_application hopens
          rw [toSexp, toSexp, ofSexp_word hlambda hbinder]
          simp only [Traced.result_bind, Atom.ofWord_chars ha, htail]
          rfl
      | lambda => exact result_ofSexp_group ihHead htail
      | binder => exact result_ofSexp_group ihHead htail
      | app => exact result_ofSexp_group ihHead htail

/-- A readable term is read back from each of its displays. -/
theorem parse_render_of_readable {t : Term} (h : t.Readable) (m : Marker) :
    (parse (t.render m)).result = .ok t := by
  have hsexp : Sexp.ofChars (t.render m).toList = .ok (toSexp m t) := by
    rw [toList_render, ← chars_toSexp]
    exact Sexp.ofChars_chars (worded_toSexp h)
  rw [parse, hsexp]
  exact ofSexp_toSexp h

example :
    let t : Term := .lambda ⟨0⟩ .entity (.binder .the ⟨1⟩
      [.app (.atom (.const "dog:t" (some .truth))) [ofVar ⟨1⟩, ofVar ⟨0⟩]])
    t.render .letter = "(λ $0 e (the $1 (dog:t $1 $0)))"
      ∧ (parse "(λ $0 e (the $1 (dog:t $1 $0)))").result.toOption = some t := by
  decide +kernel

-- ==================================================== what a text can write

/-- Terms that were read can be read if each of them can. -/
theorem readable_of_ofSexps {text : String} {ss : List Sexp}
    (hss : ∀ s ∈ ss, ∀ t, (ofSexp text s).result = .ok t → t.Readable) :
    ∀ {ts : List Term}, (ofSexps text ss).result = .ok ts →
      ∀ t ∈ ts, t.Readable := by
  induction ss with
  | nil =>
      intro ts h
      cases h
      exact List.forall_mem_nil _
  | cons s ss ih =>
      intro ts h
      obtain ⟨hs, hss⟩ := List.forall_mem_cons.1 hss
      obtain ⟨t, ht, h⟩ := Traced.result_bind_eq_ok h
      obtain ⟨us, hus, h⟩ := Traced.result_bind_eq_ok h
      cases h
      exact List.forall_mem_cons.2 ⟨hs t ht, ih hss hus⟩

/-- What an s-expression is read as is readable. -/
theorem readable_of_ofSexp {text : String} {s : Sexp} (hs : s.Worded) :
    ∀ t, (ofSexp text s).result = .ok t → t.Readable := by
  induction s with
  | word w =>
      intro t h
      obtain ⟨a, ha, rfl⟩ := Traced.result_map_eq_ok h
      exact .atom (Atom.readable_of_ofWord (Sexp.worded_word.1 hs) ha).1
  | group items ih =>
      intro t h
      have hread := fun s hs' => ih s hs' (Sexp.worded_group.1 hs s hs')
      cases items with
      | nil => cases h
      | cons s rest =>
          obtain ⟨hhead, htail⟩ := List.forall_mem_cons.1 hread
          cases s with
          | group inner =>
              obtain ⟨head, hh, h⟩ := Traced.result_bind_eq_ok h
              obtain ⟨args, hargs, h⟩ := Traced.result_bind_eq_ok h
              cases h
              have hopens : head.opensBinding = false := by
                have hatom := isAtom_of_ofSexp_group hh
                cases head with
                | atom a => cases hatom
                | lambda v type body => rfl
                | binder op v args => rfl
                | app head args => rfl
              exact .app hopens (hhead head hh)
                (readable_of_ofSexps htail hargs)
          | word w =>
              have hw : IsWord w :=
                Sexp.worded_word.1 (Sexp.worded_group.1 hs _ (List.mem_cons_self ..))
              obtain ⟨wv, wt, s, v, type, body, -, rfl, hv, htype, hbody, rfl⟩
                | ⟨op, wv, ss, v, args, hop, rfl, hv, hargs, rfl⟩
                | ⟨a, args, hlambda, hbinder, ha, hargs, rfl⟩ :=
                  ofSexp_word_eq_ok h
              · have hmem : s ∈ [Sexp.word wv, .word wt, s] := by simp
                exact .lambda (Var.index_lt_of_ofWord hv)
                  (Ty.known_of_parse htype) (htail s hmem body hbody)
              · have hbinds := (Builtin.binderOfWord?_eq_some_iff.1 hop).1
                exact .binder hbinds (Var.index_lt_of_ofWord hv)
                  (readable_of_ofSexps (List.forall_mem_cons.1 htail).2 hargs)
              · obtain ⟨hatom, hopens⟩ := Atom.readable_of_ofWord hw ha
                exact .app (hopens hlambda hbinder) (.atom hatom)
                  (readable_of_ofSexps htail hargs)

/-- What a text is read as is readable. -/
theorem readable_of_parse {text : String} {t : Term}
    (h : (parse text).result = .ok t) : t.Readable := by
  unfold parse at h
  split at h
  · rename_i s hs
    exact readable_of_ofSexp (Sexp.worded_of_ofChars hs) t h
  · cases h

/-- A term is what some text writes exactly if it is readable, and exactly
if each of its two displays is read as that very term. -/
theorem reading_inverts_display (t : Term) :
    ((∃ text, (parse text).result = .ok t) ↔ t.Readable)
      ∧ (t.Readable ↔ ∀ m, (parse (t.render m)).result = .ok t) := by
  refine ⟨⟨?_, fun h => ?_⟩, fun h m => ?_, fun h => ?_⟩
  · rintro ⟨text, h⟩
    exact readable_of_parse h
  · exact ⟨_, parse_render_of_readable h .word⟩
  · exact parse_render_of_readable h m
  · exact readable_of_parse (h .word)

/-- Lists without arguments, a binder and a bare built-in among the
arguments, a suffix that is no type, the largest index, and blanks in
plenty. -/
theorem rare_shapes_survive_display :
    ∃ t, (parse (" ( count $0 (<)\n((the  $4294967294)) dog:x and "
          ++ "((\\ $2 <e,<i,t>> exists) lambda:<e,t>) (λ $3 t $2))")).result
        = .ok t
      ∧ t.Readable ∧ ∀ m, (parse (t.render m)).result = .ok t := by
  have hread : ∃ t, (parse (" ( count $0 (<)\n((the  $4294967294)) dog:x and "
          ++ "((\\ $2 <e,<i,t>> exists) lambda:<e,t>) (λ $3 t $2))")).result
        = .ok t ∧ t.isAtom = false := by
    decide +kernel
  obtain ⟨t, h, -⟩ := hread
  obtain ⟨hreadable, hdisplay⟩ := reading_inverts_display t
  exact ⟨t, h, hreadable.1 ⟨_, h⟩, hdisplay.1 (hreadable.1 ⟨_, h⟩)⟩

end Term

end LogicalForm
