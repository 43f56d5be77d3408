/-
Decimal numbers: the digits of a natural number, and the number that a
run of digits spells. Reading accepts leading zeros and refuses a sign,
an empty run and every character that is no ASCII digit
(`decimal?_eq_some_iff`); writing gives the one spelling without leading
zeros, and reading takes it back (`decimal?_digits`). So all spellings of
a number are its digits with zeros before them
(`decimal?_eq_some_iff_zeros`).
-/
namespace LogicalForm.Text

/-- The decimal digits of a number, without leading zeros. -/
def digits (n : Nat) : List Char := Nat.toDigits 10 n

/-- The number that a run of ASCII digits spells. -/
def decimal? (cs : List Char) : Option Nat :=
  if cs.isEmpty || !cs.all Char.isDigit then none
  else some (Nat.ofDigitChars 10 cs 0)

/-- Exactly the runs of ASCII digits that are not empty spell a number. -/
theorem decimal?_eq_some_iff {ds : List Char} {n : Nat} :
    decimal? ds = some n
      ↔ ds ≠ [] ∧ (∀ d ∈ ds, d.isDigit = true) ∧ n = Nat.ofDigitChars 10 ds 0 := by
  unfold decimal?
  split
  · rename_i hfault
    rw [Bool.or_eq_true, List.isEmpty_iff, Bool.not_eq_true',
      List.all_eq_false] at hfault
    constructor
    · intro h
      cases h
    · intro h
      obtain ⟨hne, hall, -⟩ := h
      rcases hfault with hnil | ⟨d, hd, hnot⟩
      · exact absurd hnil hne
      · exact absurd (hall d hd) hnot
  · rename_i hfault
    rw [Bool.or_eq_true, not_or, List.isEmpty_iff, Bool.not_eq_true',
      Bool.not_eq_false, List.all_eq_true] at hfault
    obtain ⟨hne, hall⟩ := hfault
    rw [Option.some.injEq]
    constructor
    · intro h
      exact ⟨hne, hall, h.symm⟩
    · intro h
      exact h.2.2.symm

/-- A number is spelled with ASCII digits only. -/
theorem isDigit_of_mem_digits {n : Nat} {c : Char} (h : c ∈ digits n) :
    c.isDigit = true :=
  Nat.isDigit_of_mem_toDigits (by decide) (by decide) h

theorem digits_ne_nil (n : Nat) : digits n ≠ [] := Nat.toDigits_ne_nil

/-- A number is read back from its digits. -/
theorem decimal?_digits (n : Nat) : decimal? (digits n) = some n :=
  decimal?_eq_some_iff.2
    ⟨digits_ne_nil n, fun _ hd => isDigit_of_mem_digits hd,
      Nat.ofDigitChars_ten_toDigits.symm⟩

/-- An ASCII digit is the digit of its value. -/
theorem exists_digitChar {c : Char} (h : c.isDigit = true) :
    ∃ k, k < 10 ∧ c = k.digitChar := by
  have hc : 48 ≤ c.toNat ∧ c.toNat ≤ 57 := Char.isDigit_iff_toNat.1 h
  have hk : c.toNat - 48 < 10 := by omega
  refine ⟨c.toNat - 48, hk, Char.toNat_inj.1 ?_⟩
  rw [Nat.toNat_digitChar_of_lt_ten hk]
  omega

/-- Digits behind those of a number that is not 0 continue them. -/
theorem digits_append {n : Nat} (hn : 0 < n) {ds : List Char}
    (hds : ∀ d ∈ ds, d.isDigit = true) :
    digits n ++ ds = digits (Nat.ofDigitChars 10 ds n) := by
  induction ds generalizing n with
  | nil => rw [List.append_nil, Nat.ofDigitChars_nil]
  | cons d ds ih =>
    obtain ⟨hd, htail⟩ := List.forall_mem_cons.1 hds
    obtain ⟨k, hk, rfl⟩ := exists_digitChar hd
    have hstep : digits n ++ [k.digitChar] = digits (10 * n + k) := by
      rw [digits, digits, ← Nat.toDigits_append_toDigits (by decide) hn hk,
        Nat.toDigits_of_lt_base hk]
    rw [Nat.ofDigitChars_cons_digitChar_of_lt_ten hk, ← ih (by omega) htail,
      ← hstep, List.append_assoc]
    rfl

/-- A run of ASCII digits consists of zeros and the digits of the number
that it spells. -/
theorem exists_zeros {ds : List Char} (hne : ds ≠ [])
    (hds : ∀ d ∈ ds, d.isDigit = true) :
    ∃ zeros, ds = List.replicate zeros '0' ++ digits (Nat.ofDigitChars 10 ds 0) := by
  induction ds with
  | nil => exact absurd rfl hne
  | cons d ds ih =>
    obtain ⟨hd, htail⟩ := List.forall_mem_cons.1 hds
    obtain ⟨k, hk, rfl⟩ := exists_digitChar hd
    rw [Nat.ofDigitChars_cons_digitChar_of_lt_ten hk, Nat.mul_zero, Nat.zero_add]
    cases k with
    | zero =>
      cases ds with
      | nil => exact ⟨0, rfl⟩
      | cons c cs =>
        obtain ⟨zeros, hzeros⟩ := ih (List.cons_ne_nil _ _) htail
        refine ⟨zeros + 1, ?_⟩
        rw [List.replicate_succ, List.cons_append, ← hzeros]
        rfl
    | succ k =>
      refine ⟨0, ?_⟩
      rw [← digits_append (Nat.succ_pos k) htail, digits, Nat.toDigits_of_lt_base hk]
      rfl

/-- The texts that spell a number are its digits behind any number of
zeros. -/
theorem decimal?_eq_some_iff_zeros {ds : List Char} {n : Nat} :
    decimal? ds = some n
      ↔ ∃ zeros, ds = List.replicate zeros '0' ++ digits n := by
  rw [decimal?_eq_some_iff]
  constructor
  · rintro ⟨hne, hds, rfl⟩
    exact exists_zeros hne hds
  · rintro ⟨zeros, rfl⟩
    refine ⟨List.append_ne_nil_of_right_ne_nil _ (digits_ne_nil n), fun d hd => ?_, ?_⟩
    · rcases List.mem_append.1 hd with hd | hd
      · rw [List.eq_of_mem_replicate hd]
        rfl
      · exact isDigit_of_mem_digits hd
    · rw [Nat.ofDigitChars_append, Nat.ofDigitChars_replicate_zero, Nat.mul_zero]
      exact Nat.ofDigitChars_ten_toDigits.symm

/-- Zeros before the digits do not change the number. -/
theorem eq_of_zeros_append_digits {k l m n : Nat}
    (h : List.replicate k '0' ++ digits m = List.replicate l '0' ++ digits n) :
    m = n :=
  Option.some.inj ((decimal?_eq_some_iff_zeros.2 ⟨k, rfl⟩).symm.trans
    (decimal?_eq_some_iff_zeros.2 ⟨l, h⟩))

end LogicalForm.Text
