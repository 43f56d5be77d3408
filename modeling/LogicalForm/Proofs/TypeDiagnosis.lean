/-
The diagnosis of texts that spell no type. A text may begin with the
notation of a type and go on, or no type may be complete at its start;
either way the grammar refuses it at some place, for some reason, and the
diagnosis quotes both. Which of the two happens is told without reading
the text: `Ty.Spells` says that characters are the notation of a type,
separators inside it allowed, and the diagnosis is decided by whether some
beginning of the text is such a notation.

# One beginning at most

Reading stops right behind a character that is no separator
(`read_stops`). What was read is then the notation of its result
(`spells_of_readType`). In the other direction a beginning that spells a
type is what is read (`readType_of_spells`): without separators it is, and
separators left over could only stand behind it, where it has none. So
two beginnings of one text that spell types are the same.

# Where no type is complete

A mistake inside a group is found deep in the text, where the inner rules
refuse it for reasons of their own. Nothing of this is reported. When a
group fails, its alternative is tried at the same place, and what that one
says of an opening bracket takes the place of all that was said within the
group (`run_rule_eq_error`). So the whole text is at fault, from the
outermost bracket on.
-/
import LogicalForm.Proofs.TypeNotation

namespace LogicalForm

namespace Ty

open Text

variable {cs p q rest s : List Char} {t u : Ty} {groups : List Slot}

-- ============================================================== notation

/-- The characters are the notation of a known type: they start and end
with no separator, and without the separators among them they are the
display of the type. -/
structure Spells (p : List Char) (t : Ty) : Prop where
  known : t.Known
  chars : withoutSeparators p = t.chars
  first : ∀ c ∈ p.head?, isSeparator c = false
  last : ∀ c ∈ p.getLast?, isSeparator c = false

/-- Separators are left out of each part of a text. -/
theorem withoutSeparators_append (xs ys : List Char) :
    withoutSeparators (xs ++ ys)
      = withoutSeparators xs ++ withoutSeparators ys := by
  simp [withoutSeparators]

/-- A text that ends with a character other than a separator ends so. -/
theorem last_append_singleton {c : Char} (hc : isSeparator c = false)
    (p : List Char) : ∀ d ∈ (p ++ [c]).getLast?, isSeparator d = false := by
  intro d hd
  rw [List.getLast?_concat] at hd
  cases hd
  exact hc

/-- Nothing but separators follows where a text does not end with one. -/
theorem eq_nil_of_separators
    (hlast : ∀ c ∈ (p ++ q).getLast?, isSeparator c = false)
    (hq : withoutSeparators q = []) : q = [] := by
  rcases List.eq_nil_or_concat q with rfl | ⟨xs, c, rfl⟩
  · rfl
  · have hnot : isSeparator c = false := hlast c (by simp)
    have hmem : c ∈ withoutSeparators (xs.concat c) := by
      simp [withoutSeparators, hnot]
    rw [hq] at hmem
    cases hmem

/-- A text is cut in one way only behind a character that is no separator,
if what follows is told apart from separators. -/
theorem eq_of_append_eq_append {r : List Char} (h : p ++ rest = q ++ r)
    (hp : ∀ c ∈ p.getLast?, isSeparator c = false)
    (hq : ∀ c ∈ q.getLast?, isSeparator c = false)
    (hrest : withoutSeparators rest = withoutSeparators r) : rest = r := by
  rcases List.append_eq_append_iff.1 h with ⟨xs, rfl, rfl⟩ | ⟨xs, rfl, rfl⟩
  · rw [withoutSeparators_append, List.append_left_eq_self] at hrest
    rw [eq_nil_of_separators hq hrest, List.nil_append]
  · rw [withoutSeparators_append, List.self_eq_append_left] at hrest
    rw [eq_nil_of_separators hp hrest, List.nil_append]

-- =============================================================== reading

/-- The text goes on with `rest` right behind a character that is no
separator. -/
def StopsBefore (rest cs : List Char) : Prop :=
  ∃ p c, cs = p ++ c :: rest ∧ isSeparator c = false

/-- Where the text goes on does not depend on what is put in front. -/
theorem StopsBefore.cons {c : Char} (h : StopsBefore rest cs) :
    StopsBefore rest (c :: cs) := by
  obtain ⟨p, d, rfl, hd⟩ := h
  exact ⟨c :: p, d, rfl, hd⟩

/-- Reading stops right behind the last character that it needs: a letter
or a closing bracket. -/
theorem read_stops (cs : List Char) :
    ∀ groups : List Slot,
      (readType groups cs = some (u, rest) → StopsBefore rest cs)
      ∧ ∀ t, readAfter groups t cs = some (u, rest) →
          (groups = [] ∧ cs = rest) ∨ StopsBefore rest cs := by
  induction cs with
  | nil =>
      intro groups
      refine ⟨fun h => by simp [readType] at h, fun t h => ?_⟩
      cases groups with
      | nil =>
          cases h
          exact .inl ⟨rfl, rfl⟩
      | cons slot outer => simp [readAfter] at h
  | cons c cs ih =>
      -- a completed type is stopped behind at once, or reading goes on
      have completed {outer : List Slot} {t : Ty} (hc : isSeparator c = false)
          (h : readAfter outer t cs = some (u, rest)) :
          StopsBefore rest (c :: cs) := by
        rcases (ih outer).2 t h with ⟨-, rfl⟩ | h
        · exact ⟨[], c, rfl, hc⟩
        · exact h.cons
      intro groups
      refine ⟨fun h => ?_, fun t h => ?_⟩
      · cases hc : isSeparator c with
        | true =>
            rw [readType_separator hc] at h
            exact ((ih groups).1 h).cons
        | false =>
            rw [readType_cons hc] at h
            split at h
            · exact ((ih _).1 h).cons
            · split at h
              · exact completed hc h
              · cases h
      · cases groups with
        | nil =>
            rw [readAfter_nil] at h
            cases h
            exact .inl ⟨rfl, rfl⟩
        | cons slot outer =>
            right
            cases hc : isSeparator c with
            | true =>
                rw [readAfter_separator hc] at h
                rcases (ih _).2 t h with ⟨hnil, -⟩ | h
                · cases hnil
                · exact h.cons
            | false =>
                rw [readAfter_cons hc] at h
                cases slot with
                | domain =>
                    simp only at h
                    split at h
                    · exact ((ih _).1 h).cons
                    · cases h
                | codomain d =>
                    simp only at h
                    split at h
                    · exact completed hc h
                    · cases h

-- ================================================ beginnings of a text

/-- What is read from a text that starts with no separator is a beginning
that spells the result. -/
theorem spells_of_readType (hs : ∀ c ∈ s.head?, isSeparator c = false)
    (h : readType [] s = some (t, rest)) :
    ∃ p, s = p ++ rest ∧ Spells p t := by
  obtain ⟨q, c, rfl, hc⟩ := (read_stops s []).1 h
  have hsplit : q ++ c :: rest = (q ++ [c]) ++ rest := by simp
  have hknown : t.Known := (known_of_read _ [] (List.forall_mem_nil _)).1 h
  have hread : readType [] (withoutSeparators (q ++ c :: rest))
      = some (t, withoutSeparators rest) := by
    rw [(read_withoutSeparators _ []).1, h]
    rfl
  have hchars := (chars_append_of_read isSeparator_of_mem_withoutSeparators []).1 hread
  rw [hsplit, withoutSeparators_append] at hchars
  refine ⟨q ++ [c], hsplit, hknown, List.append_cancel_right hchars, ?_, ?_⟩
  · intro d hd
    refine hs d ?_
    rw [hsplit, List.head?_append, hd]
    rfl
  · exact last_append_singleton hc q

/-- A beginning that spells a type is read as that type, and no further. -/
theorem readType_of_spells (hp : Spells p t) (rest : List Char) :
    readType [] (p ++ rest) = some (t, rest) := by
  have hread : (readType [] (p ++ rest)).map (Prod.map id withoutSeparators)
      = some (t, withoutSeparators rest) := by
    rw [← (read_withoutSeparators _ []).1, withoutSeparators_append, hp.chars,
      readType_chars_append hp.known, readAfter_nil]
  obtain ⟨⟨u, r⟩, hr, heq⟩ := Option.map_eq_some_iff.1 hread
  obtain ⟨rfl, hrest⟩ := Prod.mk.inj heq
  obtain ⟨q, c, hsplit, hc⟩ := (read_stops _ []).1 hr
  rw [List.append_cons] at hsplit
  have hcut : rest = r :=
    eq_of_append_eq_append hsplit hp.last (last_append_singleton hc q) hrest.symm
  rw [hr, hcut]
  rfl

/-- No text begins with two notations of types. -/
theorem Spells.unique (hp : Spells p t) (hq : Spells q u) (hps : p <+: s)
    (hqs : q <+: s) : p = q := by
  obtain ⟨rest, rfl⟩ := hps
  obtain ⟨r, hr⟩ := hqs
  have hread := readType_of_spells hp rest
  rw [← hr, readType_of_spells hq r] at hread
  cases hread
  exact (List.append_cancel_right hr).symm

-- ================================================================ faults

/-- The text after the separators that it starts with. -/
def body (text : String) : List Char := text.toList.dropWhile isSeparator

/-- The text after the separators at its start starts with none. -/
theorem first_body (text : String) :
    ∀ c ∈ (body text).head?, isSeparator c = false :=
  fun _ hc => not_of_head?_dropWhile hc

/-- The separators at the start make no difference to the reader. -/
theorem readType_body (text : String) :
    readType [] text.toList = readType [] (body text) :=
  (readType_dropWhile [] text.toList).symm

/-- A text that begins with the notation of a type is at fault if more
than separators follow, and for what follows them. -/
theorem parse_of_spells {text : String} (hbody : body text = p ++ rest)
    (hp : Spells p t) :
    parse text
      = match rest.dropWhile isSeparator with
        | [] => .ok t
        | c :: cs => .error ⟨text, c :: cs, .eof⟩ := by
  have hread : readType [] text.toList = some (t, rest) := by
    rw [readType_body, hbody]
    exact readType_of_spells hp rest
  have hparse := parse_eq_readType text
  rw [hread] at hparse
  exact hparse

/-- A text that does not begin with the notation of a type is at fault as a
whole. -/
theorem parse_of_not_spells {text : String}
    (hnone : ∀ p t, p <+: body text → ¬ Spells p t) :
    parse text = .error ⟨text, body text, .char⟩ := by
  have hread : readType [] text.toList = none := by
    rw [readType_body]
    cases h : readType [] (body text) with
    | none => rfl
    | some r =>
        obtain ⟨p, hsplit, hp⟩ := spells_of_readType (first_body text) h
        exact absurd hp (hnone p r.1 ⟨r.2, hsplit.symm⟩)
  have hparse := parse_eq_readType text
  rw [hread] at hparse
  exact hparse

-- ========================================================= main theorem

/-- A text that is refused is diagnosed by what it begins with. At most
one beginning of it, after the leading separators, is the notation of a
type. If there is one, what follows it and the separators behind it is not
empty, and is reported as left over. If there is none, the whole text
after the leading separators is reported to hold no type, wherever in it
the mistake lies. -/
theorem refusals_are_diagnosed {text : String} {cause : Malformed}
    (h : parse text = .error cause) :
    (∀ p q t u, p <+: body text → q <+: body text → Spells p t →
        Spells q u → p = q)
      ∧ (∀ p rest t, body text = p ++ rest → Spells p t →
        rest.dropWhile isSeparator ≠ []
          ∧ cause = ⟨text, rest.dropWhile isSeparator, .eof⟩
          ∧ cause.fault.message
            = "Parsing Error: Error \x7b input: "
              ++ quoted (String.ofList (rest.dropWhile isSeparator))
              ++ ", code: Eof \x7d")
      ∧ ((∀ p t, p <+: body text → ¬ Spells p t) →
        cause = ⟨text, body text, .char⟩
          ∧ cause.fault.message
            = "Parsing Error: Error \x7b input: "
              ++ quoted (String.ofList (body text)) ++ ", code: Char \x7d") := by
  refine ⟨fun p q t u hps hqs hp hq => hp.unique hq hps hqs,
    fun p rest t hbody hp => ?_, fun hnone => ?_⟩
  · rw [parse_of_spells hbody hp] at h
    split at h
    · cases h
    · rename_i c cs hrest
      rw [hrest]
      cases h
      exact ⟨List.cons_ne_nil c cs, rfl, Refusal.message_eq_append _ rfl⟩
  · rw [parse_of_not_spells hnone] at h
    cases h
    exact ⟨rfl, Refusal.message_eq_append _ rfl⟩

/-- A group that closes once too often leaves the bracket and what is
behind it; a letter that is no code is met inside of two groups, and the
outer one is reported. -/
theorem closed_group_and_faulty_group :
    (∃ cause, parse " < e , t >\t> t" = .error cause
        ∧ Spells ['<', ' ', 'e', ' ', ',', ' ', 't', ' ', '>'] (.func .entity .truth)
        ∧ cause = ⟨" < e , t >\t> t", ['>', ' ', 't'], .eof⟩)
      ∧ ∃ cause, parse "\n<e, <e,x>>" = .error cause
        ∧ (∀ p t, p <+: body "\n<e, <e,x>>" → ¬ Spells p t)
        ∧ cause = ⟨"\n<e, <e,x>>", "<e, <e,x>>".toList, .char⟩ := by
  constructor
  · have hcause : parse " < e , t >\t> t"
        = .error ⟨" < e , t >\t> t", ['>', ' ', 't'], .eof⟩ := rfl
    have hspells : Spells ['<', ' ', 'e', ' ', ',', ' ', 't', ' ', '>']
        (.func .entity .truth) := by
      refine ⟨by decide, rfl, fun c hc => ?_, fun c hc => ?_⟩
      · cases hc
        rfl
      · cases hc
        rfl
    obtain ⟨-, hleft, -⟩ := refusals_are_diagnosed hcause
    obtain ⟨-, hfault, -⟩ := hleft _ ['\t', '>', ' ', 't'] _ rfl hspells
    exact ⟨_, hcause, hspells, hfault⟩
  · have hcause : parse "\n<e, <e,x>>"
        = .error ⟨"\n<e, <e,x>>", "<e, <e,x>>".toList, .char⟩ := rfl
    obtain ⟨-, hleft, hnone⟩ := refusals_are_diagnosed hcause
    have hno : ∀ p t, p <+: body "\n<e, <e,x>>" → ¬ Spells p t := by
      intro p t hp hspells
      obtain ⟨rest, hrest⟩ := hp
      obtain ⟨-, hfault, -⟩ := hleft p rest t hrest.symm hspells
      have hcode : Code.char = Code.eof :=
        congrArg (fun cause => cause.fault.code) hfault
      cases hcode
    exact ⟨_, hcause, hno, (hnone hno).1⟩

end Ty

end LogicalForm
