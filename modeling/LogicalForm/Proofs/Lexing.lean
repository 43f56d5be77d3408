/-
S-expressions in their plain spelling, and what reading keeps of a text.
The plain spelling of a group is its items with one space between two of
them. A word is cut off where the text goes on with a blank or a
parenthesis, so every statement about a spelling is made before further
text that does not start with a character of a word (`EndsWord`).

The lexemes of a text forget how much white space stands where. Two facts
are all that is needed of them: the plain spelling of an s-expression has
its lexemes (`ofChars_chars_append`), and the words among the lexemes of
any text are words (`isWord_of_mem_ofChars`).
-/
import LogicalForm.Sexp.Basic
import Mathlib.Data.List.TakeWhile

namespace LogicalForm

open Text

-- ================================================================ words

/-- The characters make up one word: there are some, and none of them is a
blank or a parenthesis. -/
def IsWord (w : List Char) : Prop := w ≠ [] ∧ ∀ c ∈ w, isWordChar c = true

theorem isWord_of_all {w : List Char} (hne : w ≠ [])
    (h : w.all isWordChar = true) : IsWord w :=
  ⟨hne, List.all_eq_true.1 h⟩

/-- A word ends at a blank or at a parenthesis. -/
theorem isWordChar_eq_false_iff {c : Char} :
    isWordChar c = false ↔ isBlank c = true ∨ c = '(' ∨ c = ')' := by
  rw [isWordChar, Bool.not_eq_false', Bool.or_eq_true, Bool.or_eq_true,
    beq_iff_eq, beq_iff_eq, or_assoc]

theorem isWordChar_iff {c : Char} :
    isWordChar c = true ↔ isBlank c = false ∧ c ≠ '(' ∧ c ≠ ')' := by
  simp [isWordChar, and_assoc]

/-- A word that stands before the text ends there. -/
def EndsWord (rest : List Char) : Prop := rest.head?.any isWordChar = false

theorem endsWord_nil : EndsWord [] := rfl

theorem endsWord_cons {c : Char} (h : isWordChar c = false) (cs : List Char) :
    EndsWord (c :: cs) := h

-- ============================================================== lexemes

namespace Lexeme

theorem ofChars_blank {c : Char} (h : isBlank c = true) (cs : List Char) :
    ofChars (c :: cs) = ofChars cs := by
  rw [ofChars, if_pos h]

theorem ofChars_opening (cs : List Char) :
    ofChars ('(' :: cs) = .opening :: ofChars cs := by
  rw [ofChars, if_neg (by decide), if_pos rfl]

theorem ofChars_closing (cs : List Char) :
    ofChars (')' :: cs) = .closing :: ofChars cs := by
  rw [ofChars, if_neg (by decide), if_neg (by decide), if_pos rfl]

/-- A character of a word joins the word behind it or makes a word of its
own. -/
theorem ofChars_wordChar {c : Char} (h : isWordChar c = true)
    (cs : List Char) :
    ofChars (c :: cs) = consChar c (cs.head?.any isWordChar) (ofChars cs) := by
  obtain ⟨hblank, hopening, hclosing⟩ := isWordChar_iff.1 h
  rw [ofChars, if_neg (by simp [hblank]), if_neg hopening, if_neg hclosing]

@[simp] theorem consChar_false (c : Char) (ls : List Lexeme) :
    consChar c false ls = .word [c] :: ls := by
  cases ls with
  | nil => rfl
  | cons l ls => cases l <;> rfl

/-- A word that ends where the rest begins is a lexeme of its own. -/
theorem ofChars_append_of_isWord {w : List Char} (hw : IsWord w)
    {rest : List Char} (hrest : EndsWord rest) :
    ofChars (w ++ rest) = .word w :: ofChars rest := by
  obtain ⟨hne, hall⟩ := hw
  induction w with
  | nil => exact absurd rfl hne
  | cons c w ih =>
      obtain ⟨hc, hw⟩ := List.forall_mem_cons.1 hall
      rw [List.cons_append, ofChars_wordChar hc]
      cases w with
      | nil => rw [List.nil_append, hrest, consChar_false]
      | cons d w =>
          have hd : isWordChar d = true := (List.forall_mem_cons.1 hw).1
          rw [ih (List.cons_ne_nil _ _) hw, List.cons_append, List.head?_cons,
            Option.any_some, hd]
          rfl

/-- A character of a word begins one that ends where the rest begins. -/
theorem exists_word_append {c : Char} (hc : isWordChar c = true)
    (cs : List Char) :
    ∃ w rest, c :: cs = w ++ rest ∧ IsWord w ∧ EndsWord rest := by
  refine ⟨(c :: cs).takeWhile isWordChar, (c :: cs).dropWhile isWordChar,
    List.takeWhile_append_dropWhile.symm, ⟨by simp [hc], fun _ hx => ?_⟩, ?_⟩
  · exact List.mem_takeWhile_imp hx
  · have hhead := List.head?_dropWhile_not isWordChar (c :: cs)
    unfold EndsWord
    cases h : ((c :: cs).dropWhile isWordChar).head? with
    | none => rfl
    | some d =>
        rw [h] at hhead
        exact hhead

/-- One more character in front leaves words words. -/
theorem isWord_of_mem_consChar {c : Char} (hc : isWordChar c = true)
    {joins : Bool} {ls : List Lexeme} (hls : ∀ w, .word w ∈ ls → IsWord w)
    {w : List Char} (h : .word w ∈ consChar c joins ls) : IsWord w := by
  have hsingle : IsWord [c] := ⟨List.cons_ne_nil _ _, by simpa using hc⟩
  unfold consChar at h
  split at h
  · rename_i v rest
    have hv : IsWord v := hls v (List.mem_cons_self ..)
    have hcv : IsWord (c :: v) :=
      ⟨List.cons_ne_nil _ _, List.forall_mem_cons.2 ⟨hc, hv.2⟩⟩
    split at h
    · rcases List.mem_cons.1 h with h | h
      · cases h
        exact hcv
      · exact hls w (List.mem_cons_of_mem _ h)
    · rcases List.mem_cons.1 h with h | h
      · cases h
        exact hsingle
      · exact hls w h
  · rcases List.mem_cons.1 h with h | h
    · cases h
      exact hsingle
    · exact hls w h

/-- The words that a text is cut into are words. -/
theorem isWord_of_mem_ofChars {w : List Char} {cs : List Char}
    (h : .word w ∈ ofChars cs) : IsWord w := by
  induction cs generalizing w with
  | nil => cases h
  | cons c cs ih =>
      cases hc : isWordChar c with
      | true =>
          rw [ofChars_wordChar hc] at h
          exact isWord_of_mem_consChar hc (fun v hv => ih hv) h
      | false =>
          rcases isWordChar_eq_false_iff.1 hc with hc | rfl | rfl
          · rw [ofChars_blank hc] at h
            exact ih h
          · rw [ofChars_opening] at h
            rcases List.mem_cons.1 h with h | h
            · cases h
            · exact ih h
          · rw [ofChars_closing] at h
            rcases List.mem_cons.1 h with h | h
            · cases h
            · exact ih h

end Lexeme

namespace Sexp

-- ======================================================= plain spelling

mutual
/-- The plain spelling of an s-expression. -/
def chars : Sexp → List Char
  | .word w => w
  | .group [] => ['(', ')']
  | .group (s :: ss) => '(' :: (chars s ++ tailChars ss)
/-- The plain spelling of the remaining items of a group, a space before
each, and of the parenthesis that closes the group. -/
def tailChars : List Sexp → List Char
  | [] => [')']
  | s :: ss => ' ' :: (chars s ++ tailChars ss)
end

/-- Every word in the s-expression is one. -/
def Worded (s : Sexp) : Prop := ∀ w, .word w ∈ s.lexemes → IsWord w

theorem worded_word {w : List Char} : (word w).Worded ↔ IsWord w := by
  simp [Worded, lexemes]

theorem worded_group {items : List Sexp} :
    (group items).Worded ↔ ∀ s ∈ items, s.Worded := by
  constructor
  · intro h s hs w hw
    refine h w ?_
    simp only [lexemes, lexemesAll_eq_flatMap, List.mem_cons, List.mem_append,
      List.mem_flatMap]
    exact .inr (.inl ⟨s, hs, hw⟩)
  · intro h w hw
    simp only [lexemes, lexemesAll_eq_flatMap, List.mem_cons, List.mem_append,
      List.mem_flatMap] at hw
    rcases hw with hw | ⟨s, hs, hw⟩ | hw | hw
    · cases hw
    · exact h s hs w hw
    · cases hw
    · cases hw

/-- After an item comes a space or a parenthesis, either of which ends a
word. -/
theorem endsWord_tailChars (ss : List Sexp) (rest : List Char) :
    EndsWord (tailChars ss ++ rest) := by
  cases ss with
  | nil => exact endsWord_cons (by decide) _
  | cons s ss => exact endsWord_cons (by decide) _

/-- Of what follows the first item of a group, the lexemes are those of
the items and the closing parenthesis. -/
theorem ofChars_tailChars_append {ss : List Sexp}
    (hss : ∀ s ∈ ss, ∀ rest, EndsWord rest →
      Lexeme.ofChars (s.chars ++ rest) = s.lexemes ++ Lexeme.ofChars rest)
    (rest : List Char) :
    Lexeme.ofChars (tailChars ss ++ rest)
      = ss.flatMap lexemes ++ .closing :: Lexeme.ofChars rest := by
  induction ss with
  | nil => exact Lexeme.ofChars_closing rest
  | cons s ss ih =>
      obtain ⟨hs, hss⟩ := List.forall_mem_cons.1 hss
      rw [tailChars, List.cons_append, Lexeme.ofChars_blank (by decide),
        List.append_assoc, hs _ (endsWord_tailChars ..), ih hss,
        List.flatMap_cons, List.append_assoc]

/-- The lexemes of a plain spelling are those of the s-expression. -/
theorem ofChars_chars_append {s : Sexp} (h : s.Worded) :
    ∀ rest, EndsWord rest →
      Lexeme.ofChars (s.chars ++ rest) = s.lexemes ++ Lexeme.ofChars rest := by
  induction s with
  | word w =>
      intro rest hrest
      exact Lexeme.ofChars_append_of_isWord (worded_word.1 h) hrest
  | group items ih =>
      intro rest hrest
      have hitems := worded_group.1 h
      cases items with
      | nil =>
          rw [chars, List.cons_append, Lexeme.ofChars_opening, List.cons_append,
            Lexeme.ofChars_closing]
          rfl
      | cons s ss =>
          have hread := fun t ht => ih t ht (hitems t ht)
          obtain ⟨hs, hss⟩ := List.forall_mem_cons.1 hread
          rw [chars, List.cons_append, Lexeme.ofChars_opening,
            List.append_assoc, hs _ (endsWord_tailChars ..),
            ofChars_tailChars_append hss]
          simp [lexemes]

/-- The only blanks between the items of a group are spaces, if the items
have no others. -/
theorem eq_space_of_blank_tailChars {ss : List Sexp}
    (hss : ∀ s ∈ ss, ∀ c ∈ s.chars, isBlank c = true → c = ' ') :
    ∀ c ∈ tailChars ss, isBlank c = true → c = ' ' := by
  induction ss with
  | nil =>
      intro c hc hblank
      rw [List.mem_singleton.1 hc] at hblank
      exact absurd hblank (by decide)
  | cons s ss ih =>
      obtain ⟨hs, hss⟩ := List.forall_mem_cons.1 hss
      intro c hc hblank
      rw [tailChars, List.mem_cons, List.mem_append] at hc
      rcases hc with rfl | hc | hc
      · rfl
      · exact hs c hc hblank
      · exact ih hss c hc hblank

/-- The only blanks of a plain spelling are spaces. -/
theorem eq_space_of_blank {s : Sexp} (h : s.Worded) :
    ∀ c ∈ s.chars, isBlank c = true → c = ' ' := by
  induction s with
  | word w =>
      intro c hc hblank
      have hchar := isWordChar_iff.1 ((worded_word.1 h).2 c hc)
      rw [hchar.1] at hblank
      cases hblank
  | group items ih =>
      have hitems := worded_group.1 h
      intro c hc hblank
      have hparen : c ≠ '(' := by
        rintro rfl
        exact absurd hblank (by decide)
      cases items with
      | nil =>
          rcases List.mem_cons.1 hc with rfl | hc
          · exact absurd rfl hparen
          · rw [List.mem_singleton.1 hc] at hblank
            exact absurd hblank (by decide)
      | cons s ss =>
          have hread := fun t ht => ih t ht (hitems t ht)
          obtain ⟨hs, hss⟩ := List.forall_mem_cons.1 hread
          rw [chars, List.mem_cons, List.mem_append] at hc
          rcases hc with hc | hc | hc
          · exact absurd hc hparen
          · exact hs c hc hblank
          · exact eq_space_of_blank_tailChars hss c hc hblank

/-- Every s-expression writes something. -/
theorem lexemes_ne_nil (s : Sexp) : s.lexemes ≠ [] := by
  cases s <;> simp [lexemes]

end Sexp

end LogicalForm
