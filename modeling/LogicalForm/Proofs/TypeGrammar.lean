/-
The grammar of types, opened once. Behind its opening bracket a group is
read in two halves, each a type between separators with the character
that ends it (`half`), and a text that holds no type is refused for the
character at its start (`run_rule_eq_error`): whatever stopped a function
type, the codes are tried after it at the same place, and the last of
them has the say.

# Open groups kept apart

The grammar reads a group by reading its halves, so what has been read of
a group is known only while it calls itself. `readType` and `readAfter`
keep that in a list of open groups instead, innermost first, and meet
every character once. They read what the grammar reads
(`readType_eq_run`), by induction on the length of the text: at an
opening bracket the grammar runs over two halves, and the readers over
the same two with one more group open (`readType_eq_half`).
-/
import LogicalForm.Ty.Reader
import Mathlib.Data.List.TakeWhile

namespace LogicalForm

namespace Ty

open Text Rule

variable {c : Char} {cs rest : List Char} {t : Ty}

-- ============================================================== grammar

/-- One half of a group, with the separators around it and the character
that ends it. -/
def half (ending : Char) : Rule Ty :=
  delimited multispace0 rule (pair multispace0 (char ending))

/-- A function type calls for its halves only behind its bracket. -/
theorem guarded_rule : Guarded fun self => alt (funcRule self) atomicRule := by
  intro n p q h
  have hopening : Consuming (pair (char '<') multispace0) :=
    consuming_bind (consuming_char '<') _
  have hhalves (separator : Rule (List Char × Char × List Char)) :
      AgreeBelow n (separatedPair p separator p) (separatedPair q separator q) :=
    h.bind fun _ => (AgreeBelow.refl n separator).bind fun _ => h.map _
  refine AgreeBelow.alt (AgreeBelow.map ?_ _) (.refl _ _)
  exact .bind_consuming hopening fun _ =>
    (hhalves _).bind fun _ => .refl _ _

/-- The rule for types is a group, whose halves it reads itself, or else an
atomic type. -/
theorem rule_eq : rule = alt (funcRule rule) atomicRule := fix_eq guarded_rule

theorem run_atomicRule_cons (c : Char) (cs : List Char) :
    atomicRule.run (c :: cs)
      = match ofLetter? c with
        | some t => .ok (t, cs)
        | none => .error ⟨c :: cs, .char⟩ := by
  by_cases he : c = 'e'
  · subst he
    rfl
  by_cases ht : c = 't'
  · subst ht
    rfl
  by_cases hi : c = 'i'
  · subst hi
    rfl
  simp [atomicRule, ofLetter?, value, he, ht, hi]

/-- A text that begins with no type is refused for the character at its
start, however far a function type had been read. -/
theorem run_rule_eq_error {e : Refusal} (h : rule.run cs = .error e) :
    e = ⟨cs, .char⟩ := by
  rw [rule_eq] at h
  have hatomic : atomicRule.run cs = .error e := run_alt_eq_error h
  cases cs with
  | nil =>
      cases hatomic
      rfl
  | cons c cs =>
      rw [run_atomicRule_cons] at hatomic
      split at hatomic
      · cases hatomic
      · cases hatomic
        rfl

/-- A code is read as its type. -/
theorem run_rule_cons (hc : c ≠ '<') (cs : List Char) :
    rule.run (c :: cs) = atomicRule.run (c :: cs) := by
  rw [rule_eq]
  simp [funcRule, delimited, pair, hc]

/-- A half is a type, behind separators, and its ending, behind separators
too. -/
theorem run_half (ending : Char) (cs : List Char) :
    (half ending).run cs
      = match rule.run (cs.dropWhile isSeparator) with
        | .error e => .error e
        | .ok (t, mid) =>
          match (char ending).run (mid.dropWhile isSeparator) with
          | .error e => .error e
          | .ok (_, rest) => .ok (t, rest) := by
  simp only [half, delimited, pair, run_bind, run_map, run_multispace0]
  cases rule.run (cs.dropWhile isSeparator) with
  | error e => rfl
  | ok r =>
      simp only
      cases (char ending).run (r.2.dropWhile isSeparator) <;> rfl

/-- A group is read in two halves. -/
theorem run_rule_opening (cs : List Char) :
    rule.run ('<' :: cs)
      = match (half ',').run cs with
        | .error _ => .error ⟨'<' :: cs, .char⟩
        | .ok (d, mid) =>
          match (half '>').run mid with
          | .error _ => .error ⟨'<' :: cs, .char⟩
          | .ok (c, rest) => .ok (func d c, rest) := by
  have hatomic : atomicRule.run ('<' :: cs) = .error ⟨'<' :: cs, .char⟩ :=
    run_atomicRule_cons '<' cs
  rw [rule_eq, run_alt, hatomic]
  simp only [funcRule, delimited, separatedPair, pair, run_half, run_bind,
    run_map, run_multispace0, run_char_cons, if_pos]
  -- one case for each of the four parts that may be missing
  cases rule.run (cs.dropWhile isSeparator) with
  | error e => rfl
  | ok d =>
      simp only
      cases (char ',').run (d.2.dropWhile isSeparator) with
      | error e => rfl
      | ok mid =>
          simp only
          cases rule.run (mid.2.dropWhile isSeparator) with
          | error e => rfl
          | ok c =>
              simp only
              cases (char '>').run (c.2.dropWhile isSeparator) <;> rfl

-- ========================================================== open groups

/-- The half of an open group that is being read: its domain, or its
codomain after the domain. -/
inductive Slot where
  | domain
  | codomain (domain : Ty)
  deriving DecidableEq, Repr

mutual
/-- Reads on where a type has to start, inside the given open groups. The
result is the outermost type with the characters behind it. -/
def readType (groups : List Slot) : List Char → Option (Ty × List Char)
  | [] => none
  | c :: cs =>
    if isSeparator c then readType groups cs
    else if c = '<' then readType (.domain :: groups) cs
    else
      match ofLetter? c with
      | some t => readAfter groups t cs
      | none => none
/-- Reads on after the type `t` has been completed inside the given open
groups: a comma has to follow a domain and a closing bracket a codomain. -/
def readAfter (groups : List Slot) (t : Ty) :
    List Char → Option (Ty × List Char)
  | [] =>
    match groups with
    | [] => some (t, [])
    | _ :: _ => none
  | c :: cs =>
    match groups with
    | [] => some (t, c :: cs)
    | slot :: outer =>
      if isSeparator c then readAfter (slot :: outer) t cs
      else
        match slot with
        | .domain => if c = ',' then readType (.codomain t :: outer) cs else none
        | .codomain d => if c = '>' then readAfter outer (.func d t) cs else none
end

/-- The character that ends the half. -/
def Slot.ending : Slot → Char
  | .domain => ','
  | .codomain _ => '>'

/-- Reads on behind the half that `t` completes. -/
def Slot.next (outer : List Slot) (t : Ty) :
    Slot → List Char → Option (Ty × List Char)
  | .domain => readType (.codomain t :: outer)
  | .codomain d => readAfter outer (.func d t)

theorem readType_separator (hc : isSeparator c = true)
    (groups : List Slot) (cs : List Char) :
    readType groups (c :: cs) = readType groups cs := by
  rw [readType, if_pos hc]

/-- A type starts with an opening bracket or is the letter of an atomic
type. -/
theorem readType_cons (hc : isSeparator c = false)
    (groups : List Slot) (cs : List Char) :
    readType groups (c :: cs)
      = if c = '<' then readType (.domain :: groups) cs
        else
          match ofLetter? c with
          | some t => readAfter groups t cs
          | none => none := by
  rw [readType, if_neg (by simp [hc])]

@[simp] theorem readAfter_nil (t : Ty) (cs : List Char) :
    readAfter [] t cs = some (t, cs) := by
  cases cs <;> rfl

/-- Behind a half, separators are passed over. -/
theorem readAfter_separator (hc : isSeparator c = true)
    (slot : Slot) (outer : List Slot) (t : Ty) (cs : List Char) :
    readAfter (slot :: outer) t (c :: cs) = readAfter (slot :: outer) t cs := by
  rw [readAfter.eq_def]
  simp only [if_pos hc]

/-- Behind a half, its ending leads on to the other half or closes the
group. -/
theorem readAfter_cons (hc : isSeparator c = false) (slot : Slot)
    (outer : List Slot) (t : Ty) (cs : List Char) :
    readAfter (slot :: outer) t (c :: cs)
      = match slot with
        | .domain => if c = ',' then readType (.codomain t :: outer) cs else none
        | .codomain d => if c = '>' then readAfter outer (.func d t) cs else none := by
  rw [readAfter.eq_def]
  exact if_neg (by simp [hc])

/-- Any number of separators is passed over. -/
theorem readType_dropWhile (groups : List Slot) (cs : List Char) :
    readType groups (cs.dropWhile isSeparator) = readType groups cs := by
  induction cs with
  | nil => rfl
  | cons c cs ih =>
      cases hc : isSeparator c with
      | true => rw [List.dropWhile_cons_of_pos hc, readType_separator hc, ih]
      | false => rw [List.dropWhile_cons_of_neg (by simp [hc])]

/-- A completed half has to be followed by the character that ends it. -/
theorem readAfter_eq_char (slot : Slot) (outer : List Slot) (t : Ty)
    (cs : List Char) :
    readAfter (slot :: outer) t cs
      = match (char slot.ending).run (cs.dropWhile isSeparator) with
        | .error _ => none
        | .ok (_, rest) => slot.next outer t rest := by
  induction cs with
  | nil => rfl
  | cons c cs ih =>
      cases hc : isSeparator c with
      | true => rw [readAfter_separator hc, ih, List.dropWhile_cons_of_pos hc]
      | false =>
          rw [readAfter_cons hc, List.dropWhile_cons_of_neg (by simp [hc]),
            run_char_cons]
          by_cases hending : c = slot.ending
          · rw [if_pos hending]
            cases slot <;> exact if_pos hending
          · rw [if_neg hending]
            cases slot <;> exact if_neg hending

-- ====================================================== the same reader

/-- Inside a group the readers read on behind the half that the grammar
reads, provided that they read its type as the grammar does. -/
theorem readType_eq_half {slot : Slot} {outer : List Slot}
    (h : readType (slot :: outer) cs
      = match rule.run (cs.dropWhile isSeparator) with
        | .error _ => none
        | .ok (t, rest) => readAfter (slot :: outer) t rest) :
    readType (slot :: outer) cs
      = match (half slot.ending).run cs with
        | .error _ => none
        | .ok (t, rest) => slot.next outer t rest := by
  rw [h, run_half]
  cases rule.run (cs.dropWhile isSeparator) with
  | error e => rfl
  | ok r =>
      simp only [readAfter_eq_char]
      cases (char slot.ending).run (r.2.dropWhile isSeparator) <;> rfl

/-- The readers read what the grammar reads, and stop where it does. -/
theorem readType_eq_run (groups : List Slot) (cs : List Char) :
    readType groups cs
      = match rule.run (cs.dropWhile isSeparator) with
        | .error _ => none
        | .ok (t, rest) => readAfter groups t rest := by
  induction hn : cs.length using Nat.strong_induction_on generalizing groups cs with
  | _ n ih =>
      rw [← readType_dropWhile]
      have hlen : (cs.dropWhile isSeparator).length ≤ n :=
        hn ▸ (List.dropWhile_suffix _).length_le
      have hfirst : ∀ c ∈ (cs.dropWhile isSeparator).head?, isSeparator c = false :=
        fun _ hc => not_of_head?_dropWhile hc
      generalize cs.dropWhile isSeparator = ds at hlen hfirst
      cases ds with
      | nil => rfl
      | cons c ds =>
          rw [readType_cons (hfirst c rfl)]
          by_cases hc : c = '<'
          · subst hc
            have hdomain := readType_eq_half (ih _ hlen (.domain :: groups) ds rfl)
            rw [if_pos rfl, hdomain, run_rule_opening]
            simp only [Slot.ending]
            cases hhalf : (half ',').run ds with
            | error e => rfl
            | ok r =>
                obtain ⟨d, mid⟩ := r
                have hmid : mid.length < n :=
                  Nat.lt_of_le_of_lt ((half ',').rest_suffix hhalf).length_le hlen
                have hcodomain :=
                  readType_eq_half (ih _ hmid (.codomain d :: groups) mid rfl)
                simp only [Slot.next, hcodomain, Slot.ending]
                cases (half '>').run mid <;> rfl
          · rw [if_neg hc, run_rule_cons hc, run_atomicRule_cons]
            cases ofLetter? c <;> rfl

/-- A text spells a type if nothing but separators is left over behind the
type at its start. It is refused for what is left over, or as a whole
where no type stands at its start. -/
theorem parse_eq_readType (text : String) :
    parse text
      = match readType [] text.toList with
        | none => .error ⟨text, text.toList.dropWhile isSeparator, .char⟩
        | some (t, rest) =>
          match rest.dropWhile isSeparator with
          | [] => .ok t
          | c :: cs => .error ⟨text, c :: cs, .eof⟩ := by
  rw [parse, run_whole, readType_eq_run]
  cases h : rule.run (text.toList.dropWhile isSeparator) with
  | error e => rw [run_rule_eq_error h]
  | ok r =>
      simp only [readAfter_nil]
      cases r.2.dropWhile isSeparator <;> rfl

end Ty

end LogicalForm
