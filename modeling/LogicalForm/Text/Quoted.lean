/-
Quoted text. A diagnosis repeats the text it is about between double
quotes, in a form that can be read back from one line of plain output:
the quote and the backslash are written after a backslash, NUL, tab,
carriage return and line feed have a letter each, an invisible character
is written by its code point, and every other character stands for
itself. `visible_of_mem_quoted` says that nothing in a quotation is
invisible.
-/
import LogicalForm.Text.Blank
import LogicalForm.Text.Invisible

namespace LogicalForm.Text

/-- Whether a quotation writes the character by its code point. -/
def isInvisible (c : Char) : Bool := inRanges invisibleRanges c

/-- One character inside a quotation. A code point is written in
lower-case hexadecimal digits without leading zeros. -/
def quotedChar (c : Char) : List Char :=
  if c == '\x00' then ['\\', '0']
  else if c == '\t' then ['\\', 't']
  else if c == '\r' then ['\\', 'r']
  else if c == '\n' then ['\\', 'n']
  else if c == '\x22' || c == '\\' then ['\\', c]
  else if isInvisible c then
    ['\\', 'u', '\x7b'] ++ Nat.toDigits 16 c.toNat ++ ['\x7d']
  else [c]

/-- A text between double quotes. -/
def quoted (s : String) : String :=
  String.ofList ('\x22' :: (s.toList.flatMap quotedChar ++ ['\x22']))

/-- The digits of a number are digits of its remainders. -/
theorem eq_digitChar_of_mem_toDigits {base n : Nat} {d : Char}
    (h : d ∈ Nat.toDigits base n) : ∃ k, d = (k % base).digitChar := by
  have core : ∀ (fuel n : Nat) (ds : List Char),
      d ∈ Nat.toDigitsCore base fuel n ds →
        (∃ k, d = (k % base).digitChar) ∨ d ∈ ds := by
    intro fuel
    induction fuel with
    | zero => exact fun _ _ h => .inr h
    | succ fuel ih =>
        intro n ds h
        have hstep : d ∈ (n % base).digitChar :: ds →
            (∃ k, d = (k % base).digitChar) ∨ d ∈ ds := by
          intro h
          rcases List.mem_cons.1 h with rfl | h
          · exact .inl ⟨n, rfl⟩
          · exact .inr h
        rw [Nat.toDigitsCore] at h
        split at h
        · exact hstep h
        · rcases ih _ _ h with h | h
          · exact .inl h
          · exact hstep h
  rcases core _ _ _ h with h | h
  · exact h
  · cases h

/-- The printable characters of ASCII are visible. -/
theorem visible_of_ascii {c : Char} (h : 0x20 ≤ c.toNat ∧ c.toNat < 0x7F) :
    isInvisible c = false := by
  have htable : ∀ r ∈ invisibleRanges, r.2 < 0x20 ∨ 0x7F ≤ r.1 := by
    decide +kernel
  rw [isInvisible, inRanges, List.any_eq_false]
  intro r hr hmem
  rw [Bool.and_eq_true, decide_eq_true_eq, decide_eq_true_eq] at hmem
  have hapart := htable r hr
  omega

/-- The digits of an escape are visible. -/
theorem visible_hexDigit {k : Nat} (hk : k < 16) :
    isInvisible k.digitChar = false := by
  have hascii : ∀ k < 16, 0x20 ≤ k.digitChar.toNat ∧ k.digitChar.toNat < 0x7F := by
    decide
  exact visible_of_ascii (hascii k hk)

/-- A quoted character is spelled with visible characters only. -/
theorem visible_of_mem_quotedChar {c d : Char} (h : c ∈ quotedChar d) :
    isInvisible c = false := by
  -- all but the last two ways write a backslash and one more character
  have two {e : Char} (he : isInvisible e = false) (h : c ∈ ['\\', e]) :
      isInvisible c = false := by
    rcases List.mem_cons.1 h with rfl | h
    · exact visible_of_ascii (by decide)
    · rw [List.mem_singleton.1 h]
      exact he
  unfold quotedChar at h
  repeat' split at h
  · exact two (visible_of_ascii (by decide)) h
  · exact two (visible_of_ascii (by decide)) h
  · exact two (visible_of_ascii (by decide)) h
  · exact two (visible_of_ascii (by decide)) h
  · rename_i hmark
    rw [Bool.or_eq_true, beq_iff_eq, beq_iff_eq] at hmark
    rcases hmark with rfl | rfl
    · exact two (visible_of_ascii (by decide)) h
    · exact two (visible_of_ascii (by decide)) h
  · rw [List.append_assoc, List.mem_append, List.mem_append] at h
    rcases h with h | h | h
    · rw [List.mem_cons, List.mem_cons, List.mem_singleton] at h
      rcases h with rfl | rfl | rfl
      · exact visible_of_ascii (by decide)
      · exact visible_of_ascii (by decide)
      · exact visible_of_ascii (by decide)
    · obtain ⟨k, rfl⟩ := eq_digitChar_of_mem_toDigits h
      exact visible_hexDigit (Nat.mod_lt _ (by decide))
    · rw [List.mem_singleton.1 h]
      exact visible_of_ascii (by decide)
  · rename_i hvisible
    rw [List.mem_singleton.1 h]
    exact Bool.eq_false_iff.2 hvisible

/-- Every character of a quotation can be seen; so it stands on one line,
whatever is quoted. -/
theorem visible_of_mem_quoted {s : String} {c : Char}
    (h : c ∈ (quoted s).toList) : isInvisible c = false := by
  rw [quoted, String.toList_ofList, List.mem_cons, List.mem_append,
    List.mem_flatMap, List.mem_singleton] at h
  rcases h with rfl | ⟨d, -, h⟩ | rfl
  · exact visible_of_ascii (by decide)
  · exact visible_of_mem_quotedChar h
  · exact visible_of_ascii (by decide)

/-- A tab and quotation marks are written by visible characters, a letter
is left as it is. -/
example : quoted "<e\t\"é" = "\"<e\\t\\\"é\"" := by decide +kernel

end LogicalForm.Text
