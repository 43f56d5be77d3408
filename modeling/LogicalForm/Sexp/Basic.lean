/-
S-expressions and their lexemes. A text is cut into single parentheses
and words, a word being a maximal run of characters that are neither
blanks nor parentheses. An s-expression is a word or a parenthesised
group of s-expressions; written out it is the sequence of its lexemes
again (`Sexp.lexemes`).
-/
import LogicalForm.Text.Blank

namespace LogicalForm

open Text

-- ============================================================== lexemes

/-- A lexeme: a parenthesis or a word, given by its characters. -/
inductive Lexeme where
  | opening
  | closing
  | word (w : List Char)
  deriving DecidableEq, Repr

/-- A character that belongs to a word. -/
def isWordChar (c : Char) : Bool := !(isBlank c || c == '(' || c == ')')

namespace Lexeme

/-- Puts a character in front of the word that the lexemes start with, or
in front of them as a word of its own, as `joins` says. -/
def consChar (c : Char) (joins : Bool) : List Lexeme → List Lexeme
  | .word w :: ls =>
    if joins then .word (c :: w) :: ls else .word [c] :: .word w :: ls
  | ls => .word [c] :: ls

/-- The lexemes of a text. A character of a word joins the word behind it
when the next character belongs to a word too. -/
def ofChars : List Char → List Lexeme
  | [] => []
  | c :: cs =>
    if isBlank c then ofChars cs
    else if c = '(' then .opening :: ofChars cs
    else if c = ')' then .closing :: ofChars cs
    else consChar c (cs.head?.any isWordChar) (ofChars cs)

end Lexeme

-- ======================================================== s-expressions

/-- A word, or a group in parentheses. -/
inductive Sexp where
  | word (w : List Char)
  | group (items : List Sexp)
  deriving Repr, Inhabited

namespace Sexp

/-- Induction over s-expressions: a property holds of every one when it
holds of words and passes from the items to a group. -/
@[induction_eliminator]
theorem ind {motive : Sexp → Prop}
    (word : ∀ w, motive (.word w))
    (group : ∀ items, (∀ s ∈ items, motive s) → motive (.group items)) :
    ∀ s, motive s := fun s =>
  Sexp.rec (motive_1 := motive) (motive_2 := fun ss => ∀ s ∈ ss, motive s)
    word group
    (fun _ h => nomatch h)
    (fun _ _ first rest => fun _ h => by
      cases h with
      | head => exact first
      | tail _ h => exact rest _ h)
    s

mutual
/-- The lexemes that write the s-expression. -/
def lexemes : Sexp → List Lexeme
  | .word w => [.word w]
  | .group items => .opening :: (lexemesAll items ++ [.closing])
/-- The lexemes that write the s-expressions one after the other. -/
def lexemesAll : List Sexp → List Lexeme
  | [] => []
  | s :: ss => lexemes s ++ lexemesAll ss
end

@[simp] theorem lexemesAll_eq_flatMap (ss : List Sexp) :
    lexemesAll ss = ss.flatMap lexemes := by
  induction ss with
  | nil => rfl
  | cons s ss ih => rw [lexemesAll, ih, List.flatMap_cons]

end Sexp

end LogicalForm
