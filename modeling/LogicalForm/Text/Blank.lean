/-
Blanks, separators, and the cuts made at them. Two classes of white space
are in use and they differ on purpose. The four *separators* (space, tab,
carriage return, line feed) are what may stand between the parts of a
type or of a form. The *blanks* are all of Unicode's White_Space: a blank
ends a word, and a text or a signature line is trimmed and split at
blanks. So a blank that is no separator ends a word and then stands where
nothing may stand.

`isBlank_of_isSeparator` says that the separators are among the blanks.
-/
namespace LogicalForm.Text

-- ======================================================= the two classes

/-- The code points of the Unicode property White_Space, as closed ranges. -/
def blankRanges : List (Nat × Nat) :=
  [(0x9, 0xD), (0x20, 0x20), (0x85, 0x85), (0xA0, 0xA0), (0x1680, 0x1680),
   (0x2000, 0x200A), (0x2028, 0x2029), (0x202F, 0x202F), (0x205F, 0x205F),
   (0x3000, 0x3000)]

/-- Whether the code point of a character lies in one of the ranges. -/
def inRanges (ranges : List (Nat × Nat)) (c : Char) : Bool :=
  ranges.any fun r => r.1 ≤ c.toNat && c.toNat ≤ r.2

/-- A blank is a character with the property White_Space. -/
def isBlank (c : Char) : Bool := inRanges blankRanges c

/-- A separator may stand between the parts of a type or of a form. -/
def isSeparator (c : Char) : Bool :=
  c == ' ' || c == '\t' || c == '\r' || c == '\n'

/-- The separators are the space, the tab, the carriage return and the line
feed. -/
theorem isSeparator_iff {c : Char} :
    isSeparator c = true ↔ c = ' ' ∨ c = '\t' ∨ c = '\r' ∨ c = '\n' := by
  simp [isSeparator, or_assoc]

/-- Every separator is white space, though not every white space separates.
-/
theorem isBlank_of_isSeparator {c : Char} (h : isSeparator c = true) :
    isBlank c = true := by
  rcases isSeparator_iff.1 h with rfl | rfl | rfl | rfl <;> rfl

/-- Nothing stands in the text. -/
def Blank (cs : List Char) : Prop := ∀ c ∈ cs, isBlank c = true

-- ================================================================= cuts

/-- The segments between the characters that satisfy `p`: one more than
there are such characters, empty ones included. -/
def segments (p : Char → Bool) : List Char → List (List Char)
  | [] => [[]]
  | c :: cs =>
    if p c then [] :: segments p cs
    else
      match segments p cs with
      | [] => [[c]]
      | s :: rest => (c :: s) :: rest

/-- Even the empty text has one segment. -/
theorem segments_ne_nil (p : Char → Bool) (cs : List Char) :
    segments p cs ≠ [] := by
  cases cs with
  | nil => simp [segments]
  | cons c cs =>
    rw [segments]
    split
    · simp
    · split <;> simp

/-- A cut splits the segments of a text into those before and those
behind it. -/
theorem segments_append_cons {p : Char → Bool} {c : Char} (hc : p c = true)
    (xs ys : List Char) :
    segments p (xs ++ c :: ys) = segments p xs ++ segments p ys := by
  induction xs with
  | nil => simp [segments, hc]
  | cons x xs ih =>
    rw [List.cons_append, segments, segments, ih]
    by_cases hx : p x = true
    · simp [hx]
    · cases hs : segments p xs with
      | nil => exact absurd hs (segments_ne_nil p xs)
      | cons s rest => simp [hx]

/-- The lines of a text, cut at every line feed. What follows the last
line feed is a line too, and may be empty. -/
def lines (cs : List Char) : List (List Char) := segments (· == '\n') cs

/-- The fields of a line: its maximal runs of characters that are no
blanks. -/
def fields (cs : List Char) : List (List Char) :=
  (segments isBlank cs).filter (!·.isEmpty)

/-- The lines of two texts with a line feed between them are the lines of
the one and then those of the other. -/
theorem lines_append_lineFeed (xs ys : List Char) :
    lines (xs ++ '\n' :: ys) = lines xs ++ lines ys :=
  segments_append_cons rfl xs ys

/-- A blank between two texts keeps their fields apart. -/
theorem fields_append_blank {c : Char} (hc : isBlank c = true)
    (xs ys : List Char) : fields (xs ++ c :: ys) = fields xs ++ fields ys := by
  rw [fields, segments_append_cons hc, List.filter_append]
  rfl

/-- A line without the blanks at its two ends. -/
def trim (cs : List Char) : List Char :=
  ((cs.dropWhile isBlank).reverse.dropWhile isBlank).reverse

/-- What follows a dropped beginning does not start like it. -/
theorem not_of_head?_dropWhile {p : Char → Bool} {c : Char} {cs : List Char}
    (h : c ∈ (cs.dropWhile p).head?) : p c = false := by
  have hnot := List.head?_dropWhile_not p cs
  rw [Option.mem_def.1 h] at hnot
  exact hnot

end LogicalForm.Text
