/-
Reading lexemes with the open groups kept apart. The grammar reads a group
by calling itself, so how many groups are open at a place of the text
shows in its calls only. `readForest` meets the lexemes one by one and
keeps the items of every group that is still open instead. It puts no
limit on how many s-expressions there are, and fails only where
parentheses do not match, which is what the balance of a text has to be
compared with.

Reading lexemes and writing them are inverse (`forest?_eq_some_iff`). So
the grammar reads an s-expression from a separated text exactly if that
reader finds it and nothing else (`ofChars_eq_ok_iff_forest?`).
-/
import LogicalForm.Proofs.SexpGrammar

namespace LogicalForm

namespace Sexp

open Text

/-- Reads lexemes on, with the items of the innermost open group and the
items of the groups around it, innermost first and the latest item first
in each. The outermost items are the result, in order. -/
def readForest (items : List Sexp) (outer : List (List Sexp)) :
    List Lexeme → Option (List Sexp)
  | [] =>
    match outer with
    | [] => some items.reverse
    | _ :: _ => none
  | .word w :: ls => readForest (.word w :: items) outer ls
  | .opening :: ls => readForest [] (items :: outer) ls
  | .closing :: ls =>
    match outer with
    | [] => none
    | around :: outer => readForest (.group items.reverse :: around) outer ls

/-- The s-expressions that the lexemes write one after the other. -/
def forest? (ls : List Lexeme) : Option (List Sexp) := readForest [] [] ls

-- ================================================== reading what is written

/-- The reader passes the lexemes of an s-expression and has one more item
in the innermost group. -/
theorem readForest_append_lexemes (s : Sexp) :
    ∀ (items : List Sexp) (outer : List (List Sexp)) (ls : List Lexeme),
      readForest items outer (s.lexemes ++ ls)
        = readForest (s :: items) outer ls := by
  induction s with
  | word w =>
    intro items outer ls
    rfl
  | group inner ih =>
    intro items outer ls
    have run : ∀ (ss : List Sexp) (acc : List Sexp) (ls : List Lexeme),
        (∀ s ∈ ss, s ∈ inner) →
        readForest acc (items :: outer) (ss.flatMap lexemes ++ ls)
          = readForest (ss.reverse ++ acc) (items :: outer) ls := by
      intro ss
      induction ss with
      | nil =>
        intro acc ls _
        rfl
      | cons s ss ihs =>
        intro acc ls h
        rw [List.flatMap_cons, List.append_assoc,
          ih s (h s (List.mem_cons_self ..)),
          ihs _ _ fun t ht => h t (List.mem_cons_of_mem _ ht),
          List.reverse_cons, List.append_assoc]
        rfl
    simp only [lexemes, lexemesAll_eq_flatMap, List.cons_append,
      List.append_assoc, readForest]
    rw [run inner [] _ fun _ h => h, List.append_nil]
    simp [readForest]

/-- Written one after the other, s-expressions are read back. -/
theorem forest?_flatMap_lexemes (ss : List Sexp) :
    forest? (ss.flatMap lexemes) = some ss := by
  have run : ∀ (ss acc : List Sexp),
      readForest acc [] (ss.flatMap lexemes) = some (acc.reverse ++ ss) := by
    intro ss
    induction ss with
    | nil =>
      intro acc
      simp [readForest]
    | cons s ss ih =>
      intro acc
      rw [List.flatMap_cons, readForest_append_lexemes, ih]
      simp
  exact run ss []

-- =================================================== what reading keeps

/-- The lexemes met so far, with those items read and those groups open. -/
def written (items : List Sexp) : List (List Sexp) → List Lexeme
  | [] => items.reverse.flatMap lexemes
  | around :: outer =>
    written around outer ++ .opening :: items.reverse.flatMap lexemes

/-- One more item adds its lexemes at the end of what has been met. -/
theorem written_cons (s : Sexp) (items : List Sexp)
    (outer : List (List Sexp)) :
    written (s :: items) outer = written items outer ++ s.lexemes := by
  cases outer with
  | nil => simp [written]
  | cons around outer => simp [written]

/-- Reading keeps every lexeme, read or still to come. -/
theorem flatMap_lexemes_of_readForest {ls : List Lexeme} :
    ∀ {items : List Sexp} {outer : List (List Sexp)} {ss : List Sexp},
      readForest items outer ls = some ss →
      ss.flatMap lexemes = written items outer ++ ls := by
  induction ls with
  | nil =>
      intro items outer ss h
      cases outer with
      | nil =>
          cases h
          simp [written]
      | cons around outer => cases h
  | cons l ls ih =>
      intro items outer ss h
      cases l with
      | word w =>
          rw [ih h, written_cons]
          simp [lexemes]
      | opening =>
          rw [ih h]
          simp [written]
      | closing =>
          cases outer with
          | nil => cases h
          | cons around outer =>
              rw [ih h, written_cons]
              simp [written, lexemes]

/-- The s-expressions that are read write the lexemes they were read
from. -/
theorem flatMap_lexemes_of_forest? {ls : List Lexeme} {ss : List Sexp}
    (h : forest? ls = some ss) : ss.flatMap lexemes = ls := by
  simpa [written] using flatMap_lexemes_of_readForest h

/-- The reader finds the s-expressions that the lexemes write, and only
those. -/
theorem forest?_eq_some_iff {ls : List Lexeme} {ss : List Sexp} :
    forest? ls = some ss ↔ ss.flatMap lexemes = ls := by
  refine ⟨flatMap_lexemes_of_forest?, ?_⟩
  rintro rfl
  exact forest?_flatMap_lexemes ss

/-- The grammar reads the one s-expression that the lexemes of a separated
text write. -/
theorem ofChars_eq_ok_iff_forest? {cs : List Char} {s : Sexp} :
    ofChars cs = .ok s
      ↔ Separated cs ∧ forest? (Lexeme.ofChars cs) = some [s] := by
  rw [ofChars_eq_ok_iff_lexemes, forest?_eq_some_iff, List.flatMap_singleton,
    eq_comm (a := s.lexemes)]

end Sexp

end LogicalForm
