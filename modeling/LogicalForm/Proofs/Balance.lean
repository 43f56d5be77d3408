/-
Which texts write one s-expression, decided without reading it. Three
flat conditions count: every blank of the text is a separator, the
parentheses are balanced, and exactly one item starts outside of all
groups. The lexemes of a text are specified here once more, by what they
are and not by how they are found (`Lexeme.Cuts`), so that the conditions
do not rest on the reader.

# How reader and conditions meet

The grammar says nothing of groups that are open, so it is replaced first
by the reader with a stack, which agrees with it on every text
(`ofChars_eq_ok_iff_forest?`). That reader knows how many groups are open.
`Closes` is balance with that many groups open at the start, over
characters as over lexemes, and each step of the reader is one step of it
(`exists_readForest_iff`). What has been read writes the lexemes again, so
the items that it consists of are the items that start outside of all
groups (`topItems_flatMap_lexemes`).

A text that the grammar refuses is scanned a second time, for its
parentheses alone, and the scan is a step of `Closes` as well
(`depthAfter_eq_zero_iff`). The order of diagnoses follows: nothing but
blanks, then parentheses, then everything else (`layout_decides_reading`).
-/
import LogicalForm.Proofs.Forest
import LogicalForm.Term.Reader
import Mathlib.Data.List.Infix
import Mathlib.Data.List.TakeWhile

namespace LogicalForm

-- ============================================================== balance

/-- With `depth` groups open, the list closes them and every group that it
opens: no prefix closes more than is open, and in the end nothing is. -/
def Closes {α : Type} [DecidableEq α] (opening closing : α) (depth : Nat)
    (l : List α) : Prop :=
  (∀ p, p <+: l → p.count closing ≤ depth + p.count opening)
    ∧ depth + l.count opening = l.count closing

/-- What holds of all prefixes holds of the empty one and goes on with the
first element. -/
theorem forall_prefix_cons {α : Type} {P : List α → Prop} {x : α} {l : List α} :
    (∀ p, p <+: x :: l → P p) ↔ P [] ∧ ∀ p, p <+: l → P (x :: p) := by
  constructor
  · intro h
    refine ⟨h [] List.nil_prefix, fun p hp => ?_⟩
    exact h _ ((List.prefix_cons_inj x).2 hp)
  · intro h p hp
    rcases List.prefix_cons_iff.1 hp with rfl | ⟨q, rfl, hq⟩
    · exact h.1
    · exact h.2 q hq

namespace Closes

variable {α : Type} [DecidableEq α] {opening closing : α} {depth : Nat}
  {l : List α}

theorem nil_iff : Closes opening closing depth [] ↔ depth = 0 := by
  simp [Closes]

theorem opening_iff (hne : opening ≠ closing) :
    Closes opening closing depth (opening :: l)
      ↔ Closes opening closing (depth + 1) l := by
  rw [Closes, Closes, forall_prefix_cons]
  simp only [List.count_nil, List.count_cons_self, List.count_cons_of_ne hne,
    Nat.zero_le, true_and]
  refine and_congr (forall₂_congr fun p _ => ?_) ?_ <;> omega

theorem closing_iff (hne : opening ≠ closing) :
    Closes opening closing depth (closing :: l)
      ↔ ∃ d, depth = d + 1 ∧ Closes opening closing d l := by
  rw [Closes, forall_prefix_cons]
  simp only [List.count_nil, List.count_cons_self,
    List.count_cons_of_ne hne.symm, Nat.zero_le, true_and]
  constructor
  · intro h
    have hopen := h.1 [] List.nil_prefix
    rw [List.count_nil, List.count_nil] at hopen
    refine ⟨depth - 1, by omega, fun p hp => ?_, by omega⟩
    have hp := h.1 p hp
    omega
  · rintro ⟨d, rfl, hprefix, htotal⟩
    refine ⟨fun p hp => ?_, by omega⟩
    have hp := hprefix p hp
    omega

theorem other_iff {x : α} (hopening : x ≠ opening) (hclosing : x ≠ closing) :
    Closes opening closing depth (x :: l) ↔ Closes opening closing depth l := by
  rw [Closes, Closes, forall_prefix_cons]
  simp only [List.count_nil, List.count_cons_of_ne hopening,
    List.count_cons_of_ne hclosing, Nat.zero_le, true_and]

end Closes

namespace Text

/-- The parentheses of the text are balanced: no prefix closes more than
it opens, and as many are closed as are opened. -/
def Balanced (cs : List Char) : Prop :=
  (∀ p, p <+: cs → p.count ')' ≤ p.count '(') ∧ cs.count '(' = cs.count ')'

/-- A text is balanced if it closes all that it opens, starting from
nothing. -/
theorem balanced_iff {cs : List Char} : Balanced cs ↔ Closes '(' ')' 0 cs := by
  simp [Balanced, Closes]

/-- Trimming leaves nothing of a text exactly if nothing stands in it. -/
theorem trim_eq_nil_iff {cs : List Char} : trim cs = [] ↔ Blank cs := by
  simp only [trim, List.reverse_eq_nil_iff, List.dropWhile_eq_nil_iff,
    List.mem_reverse]
  constructor
  · intro hrest c hc
    rw [← List.takeWhile_append_dropWhile (p := isBlank) (l := cs)] at hc
    rcases List.mem_append.1 hc with hc | hc
    · exact List.mem_takeWhile_imp hc
    · exact hrest c hc
  · intro h c hc
    exact h c ((List.dropWhile_suffix _).subset hc)

end Text

open Text

namespace Lexeme

-- =============================================================== tokens

/-- The lexemes that a text consists of: single parentheses and maximal
runs of characters of words, with blanks left out. -/
inductive Cuts : List Char → List Lexeme → Prop
  | nil : Cuts [] []
  | blank {c : Char} {cs : List Char} {ls : List Lexeme} :
      isBlank c = true → Cuts cs ls → Cuts (c :: cs) ls
  | opening {cs : List Char} {ls : List Lexeme} :
      Cuts cs ls → Cuts ('(' :: cs) (.opening :: ls)
  | closing {cs : List Char} {ls : List Lexeme} :
      Cuts cs ls → Cuts (')' :: cs) (.closing :: ls)
  | word {w cs : List Char} {ls : List Lexeme} :
      IsWord w → EndsWord cs → Cuts cs ls → Cuts (w ++ cs) (.word w :: ls)

/-- The lexemes that a text is split into are the ones that it consists of.
-/
theorem cuts_ofChars (cs : List Char) : Cuts cs (ofChars cs) := by
  induction hn : cs.length using Nat.strong_induction_on generalizing cs with
  | h n ih =>
      cases cs with
      | nil => exact .nil
      | cons c cs =>
          have rest : Cuts cs (ofChars cs) := ih _ (by simp [← hn]) cs rfl
          cases hc : isWordChar c with
          | true =>
              obtain ⟨w, r, hsplit, hw, hends⟩ := exists_word_append hc cs
              have hlt : r.length < n := by
                rw [← hn, hsplit, List.length_append]
                exact Nat.lt_add_of_pos_left (List.length_pos_iff.2 hw.1)
              rw [hsplit, ofChars_append_of_isWord hw hends]
              exact .word hw hends (ih _ hlt r rfl)
          | false =>
              rcases isWordChar_eq_false_iff.1 hc with hc | rfl | rfl
              · rw [ofChars_blank hc]
                exact .blank hc rest
              · rw [ofChars_opening]
                exact .opening rest
              · rw [ofChars_closing]
                exact .closing rest

/-- A text consists of one sequence of lexemes, and it is cut into that. -/
theorem cuts_iff {cs : List Char} {ls : List Lexeme} :
    Cuts cs ls ↔ ofChars cs = ls := by
  constructor
  · intro h
    induction h with
    | nil => rfl
    | blank hc _ ih => rw [ofChars_blank hc, ih]
    | opening _ ih => rw [ofChars_opening, ih]
    | closing _ ih => rw [ofChars_closing, ih]
    | word hw hends _ ih => rw [ofChars_append_of_isWord hw hends, ih]
  · rintro rfl
    exact cuts_ofChars cs

-- ================================================ balance of lexemes

/-- Putting a character before a word, or making a word of it, opens and
closes nothing. -/
theorem closes_consChar {c : Char} {joins : Bool} {depth : Nat}
    {ls : List Lexeme} :
    Closes opening closing depth (consChar c joins ls)
      ↔ Closes opening closing depth ls := by
  have word_iff (w : List Char) (ls : List Lexeme) :
      Closes opening closing depth (.word w :: ls)
        ↔ Closes opening closing depth ls :=
    Closes.other_iff (by simp) (by simp)
  unfold consChar
  split
  · split
    · rw [word_iff, word_iff]
    · rw [word_iff]
  · rw [word_iff]

/-- The parentheses of a text and those among its lexemes are the same. -/
theorem closes_ofChars {cs : List Char} {depth : Nat} :
    Closes opening closing depth (ofChars cs) ↔ Closes '(' ')' depth cs := by
  induction cs generalizing depth with
  | nil => rw [ofChars, Closes.nil_iff, Closes.nil_iff]
  | cons c cs ih =>
      cases hc : isWordChar c with
      | true =>
          obtain ⟨-, hopening, hclosing⟩ := isWordChar_iff.1 hc
          rw [ofChars_wordChar hc, closes_consChar, ih,
            Closes.other_iff hopening hclosing]
      | false =>
          rcases isWordChar_eq_false_iff.1 hc with hblank | rfl | rfl
          · have hopening : c ≠ '(' := by
              rintro rfl
              exact absurd hblank (by decide)
            have hclosing : c ≠ ')' := by
              rintro rfl
              exact absurd hblank (by decide)
            rw [ofChars_blank hblank, ih, Closes.other_iff hopening hclosing]
          · rw [ofChars_opening, Closes.opening_iff (by simp),
              Closes.opening_iff (by decide), ih]
          · rw [ofChars_closing, Closes.closing_iff (by simp),
              Closes.closing_iff (by decide)]
            simp only [ih]

-- ============================================================ top level

/-- With that many groups open, the number of words and groups that start
outside of all groups. -/
def topItems : Nat → List Lexeme → Nat
  | _, [] => 0
  | depth, .word _ :: ls => (if depth = 0 then 1 else 0) + topItems depth ls
  | depth, .opening :: ls =>
    (if depth = 0 then 1 else 0) + topItems (depth + 1) ls
  | depth, .closing :: ls => topItems (depth - 1) ls

end Lexeme

namespace Sexp

/-- An s-expression is one item, and all of it stands at its depth. -/
theorem topItems_lexemes_append (s : Sexp) :
    ∀ (depth : Nat) (ls : List Lexeme),
      Lexeme.topItems depth (s.lexemes ++ ls)
        = (if depth = 0 then 1 else 0) + Lexeme.topItems depth ls := by
  induction s with
  | word w =>
      intro depth ls
      rfl
  | group items ih =>
      intro depth ls
      have inner : ∀ ss : List Sexp, (∀ s ∈ ss, s ∈ items) → ∀ ls,
          Lexeme.topItems (depth + 1) (ss.flatMap lexemes ++ ls)
            = Lexeme.topItems (depth + 1) ls := by
        intro ss
        induction ss with
        | nil =>
            intro _ ls
            rfl
        | cons s ss ihs =>
            intro hss ls
            obtain ⟨hs, hss⟩ := List.forall_mem_cons.1 hss
            rw [List.flatMap_cons, List.append_assoc, ih s hs, ihs hss]
            simp
      rw [lexemes, lexemesAll_eq_flatMap, List.cons_append, List.append_assoc,
        Lexeme.topItems, inner items fun _ h => h]
      rfl

/-- The lexemes of several s-expressions have that many items outside of all
groups. -/
theorem topItems_flatMap_lexemes (ss : List Sexp) :
    Lexeme.topItems 0 (ss.flatMap lexemes) = ss.length := by
  induction ss with
  | nil => rfl
  | cons s ss ih =>
      rw [List.flatMap_cons, topItems_lexemes_append, ih, if_pos rfl,
        List.length_cons, Nat.add_comm]

-- =============================================================== reader

/-- The reader of lexemes gets through exactly if they close what is
open. -/
theorem exists_readForest_iff {ls : List Lexeme} :
    ∀ {items : List Sexp} {outer : List (List Sexp)},
      (∃ ss, readForest items outer ls = some ss)
        ↔ Closes .opening .closing outer.length ls := by
  induction ls with
  | nil =>
      intro items outer
      rw [Closes.nil_iff]
      cases outer <;> simp [readForest]
  | cons l ls ih =>
      intro items outer
      cases l with
      | word w => rw [readForest, ih, Closes.other_iff (by simp) (by simp)]
      | opening =>
          rw [readForest, ih, Closes.opening_iff (by simp), List.length_cons]
      | closing =>
          rw [Closes.closing_iff (by simp)]
          cases outer with
          | nil => simp [readForest]
          | cons around outer => simp [readForest, ih]

/-- The lexemes of a text make up s-expressions if the parentheses of the
text are balanced. -/
theorem exists_forest?_iff {cs : List Char} :
    (∃ ss, forest? (Lexeme.ofChars cs) = some ss) ↔ Balanced cs := by
  rw [balanced_iff, ← Lexeme.closes_ofChars]
  exact exists_readForest_iff

/-- An s-expression is read from the texts that consist of its lexemes and
are separated. -/
theorem ofChars_eq_ok_iff {cs : List Char} {s : Sexp} :
    ofChars cs = .ok s ↔ Separated cs ∧ Lexeme.Cuts cs s.lexemes := by
  rw [Lexeme.cuts_iff, ofChars_eq_ok_iff_lexemes]

/-- A text writes some s-expression if it is separated and balanced, and
one item starts outside of all groups. -/
theorem exists_ofChars_iff {cs : List Char} :
    (∃ s, ofChars cs = .ok s)
      ↔ Separated cs ∧ Balanced cs
        ∧ ∃ ls, Lexeme.Cuts cs ls ∧ Lexeme.topItems 0 ls = 1 := by
  simp only [ofChars_eq_ok_iff_forest?, exists_and_left, Lexeme.cuts_iff,
    exists_eq_left', ← exists_forest?_iff]
  refine and_congr_right fun _ => ?_
  constructor
  · rintro ⟨s, hforest⟩
    refine ⟨⟨_, hforest⟩, ?_⟩
    rw [← forest?_eq_some_iff.1 hforest, topItems_flatMap_lexemes]
    rfl
  · rintro ⟨⟨ss, hforest⟩, hone⟩
    rw [← forest?_eq_some_iff.1 hforest, topItems_flatMap_lexemes] at hone
    obtain ⟨s, rfl⟩ := List.length_eq_one_iff.1 hone
    exact ⟨s, hforest⟩

-- ============================================================ diagnoses

/-- The count of open groups ends at zero if the text closes what is
open. -/
theorem depthAfter_eq_zero_iff {cs : List Char} :
    ∀ {depth : Nat}, depthAfter depth cs = 0 ↔ Closes '(' ')' depth cs := by
  induction cs with
  | nil =>
      intro depth
      rw [depthAfter, Closes.nil_iff, Int.natCast_eq_zero]
  | cons c cs ih =>
      intro depth
      by_cases hopening : c = '('
      · subst hopening
        rw [Closes.opening_iff (by decide), ← ih]
        have hdepth : ¬ (depth : Int) + 1 < 0 := by omega
        simp [depthAfter, hdepth]
      · by_cases hclosing : c = ')'
        · subst hclosing
          rw [Closes.closing_iff (by decide)]
          cases depth with
          | zero => simp [depthAfter]
          | succ d =>
              have hopen : ¬ (d : Int) < 0 := by omega
              simp [depthAfter, hopen, ih]
        · rw [Closes.other_iff hopening hclosing, ← ih]
          have hopen : ¬ (depth : Int) < 0 := by omega
          simp [depthAfter, hopening, hclosing, hopen]

/-- The three diagnoses, and what each says of the text. -/
theorem malformation_cases (cs : List Char) :
    (malformation cs = .empty ∧ Blank cs)
      ∨ (malformation cs = .unbalanced ∧ ¬ Blank cs ∧ ¬ Balanced cs)
      ∨ (malformation cs = .trailing ∧ ¬ Blank cs ∧ Balanced cs) := by
  have hdepth : depthAfter 0 cs = 0 ↔ Balanced cs :=
    depthAfter_eq_zero_iff.trans balanced_iff.symm
  rw [malformation, ← trim_eq_nil_iff, ← List.isEmpty_iff, ← hdepth]
  by_cases hempty : (trim cs).isEmpty = true
  · exact .inl ⟨if_pos hempty, hempty⟩
  · rw [if_neg hempty]
    by_cases hzero : depthAfter 0 cs = 0
    · exact .inr (.inr ⟨if_neg (not_not.2 hzero), hempty, hzero⟩)
    · exact .inr (.inl ⟨if_pos hzero, hempty, hzero⟩)

/-- A text that is refused is refused for what is wrong with it. -/
theorem ofChars_eq_error {cs : List Char} {cause : Malformation}
    (h : ofChars cs = .error cause) : cause = malformation cs := by
  unfold ofChars at h
  split at h
  · cases h
  · cases h
    rfl

/-- What is read of a text, and why nothing is, is decided by its flat
layout. The s-expressions read are those whose lexemes the text consists
of, if only separators stand between them; there is one for a balanced
text with a single item. Otherwise the whole text is refused, as empty
where it is blank, else as unbalanced where it is, else because of what
stands beside a complete form. -/
theorem layout_decides_reading (text : String) :
    (∀ s, ofChars text.toList = .ok s
        ↔ Separated text.toList ∧ Lexeme.Cuts text.toList s.lexemes)
      ∧ ((∃ s, ofChars text.toList = .ok s)
        ↔ Separated text.toList ∧ Balanced text.toList
          ∧ ∃ ls, Lexeme.Cuts text.toList ls ∧ Lexeme.topItems 0 ls = 1)
      ∧ (∀ s, ofChars text.toList = .ok s →
          Term.parse text = Term.ofSexp text s)
      ∧ ∀ cause, ofChars text.toList = .error cause →
          (Term.parse text).result = .error (.malformedForm text cause)
          ∧ (cause.message = "empty input" ↔ Blank text.toList)
          ∧ (cause.message = "unbalanced parentheses"
            ↔ ¬ Blank text.toList ∧ ¬ Balanced text.toList)
          ∧ (cause.message = "trailing tokens after a complete expression"
            ↔ ¬ Blank text.toList ∧ Balanced text.toList) := by
  refine ⟨fun s => ofChars_eq_ok_iff, exists_ofChars_iff, fun s h => ?_,
    fun cause h => ⟨?_, ?_⟩⟩
  · rw [Term.parse, h]
  · rw [Term.parse, h]
    rfl
  · rw [ofChars_eq_error h]
    rcases malformation_cases text.toList with
      ⟨hcause, hblank⟩ | ⟨hcause, hblank, hopen⟩ | ⟨hcause, hblank, hbalanced⟩
    · simp [hcause, Malformation.message, hblank]
    · simp [hcause, Malformation.message, hblank, hopen]
    · simp [hcause, Malformation.message, hblank, hbalanced]

end Sexp

end LogicalForm
