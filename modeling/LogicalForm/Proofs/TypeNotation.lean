/-
The type notation, read and written. Everything is proved of the reader
with a stack, which agrees with the grammar (`parse_eq_readType`). It
keeps the groups that are open, so what it does with the display of a type
is stated inside arbitrary open groups and before arbitrary further text:
it is done with the type and reads on after it (`readType_chars_append`).
On its own the display of a type is then read back.

In the other direction the reader never makes up the placeholder. Each
open group holds at most a domain that has been read, so it is enough
that those are known.

Separators change nothing wherever they stand (`read_withoutSeparators`):
taking them out of a text beforehand takes them out of what is left over
and out of nothing else. So a text has to be understood without its
separators only, and then what has been read of it is the display of the
result (`chars_append_of_read`). Together, a text spells a type exactly if it is
the display of that type once its separators are taken out
(`notation_spells_types`).
-/
import LogicalForm.Proofs.TypeGrammar
import Mathlib.Data.Set.Operations

namespace LogicalForm

namespace Text

/-- The text without its separators. -/
def withoutSeparators (cs : List Char) : List Char :=
  cs.filter fun c => !isSeparator c

theorem withoutSeparators_separator {c : Char} (h : isSeparator c = true)
    (cs : List Char) : withoutSeparators (c :: cs) = withoutSeparators cs := by
  simp [withoutSeparators, h]

theorem withoutSeparators_cons {c : Char} (h : isSeparator c = false)
    (cs : List Char) :
    withoutSeparators (c :: cs) = c :: withoutSeparators cs := by
  simp [withoutSeparators, h]

/-- Without its separators, a text has none. -/
theorem isSeparator_of_mem_withoutSeparators {cs : List Char} :
    ∀ c ∈ withoutSeparators cs, isSeparator c = false := by
  simp [withoutSeparators]

end Text

namespace Ty

open Text

-- ================================================== reading what is written

/-- The display of a known type takes the reader past that type. -/
theorem readType_chars_append {t : Ty} (h : t.Known) (groups : List Slot)
    (rest : List Char) :
    readType groups (t.chars ++ rest) = readAfter groups t rest := by
  induction t generalizing groups rest with
  | entity => rfl
  | truth => rfl
  | count => rfl
  | unknown => exact h.elim
  | func d c ihd ihc =>
      calc readType groups ((func d c).chars ++ rest)
          = readType (.domain :: groups) (d.chars ++ ',' :: (c.chars ++ '>' :: rest)) := by
            simp [chars, readType, isSeparator]
        _ = readType (.codomain d :: groups) (c.chars ++ '>' :: rest) := ihd h.1 ..
        _ = readAfter groups (.func d c) rest := ihc h.2 ..

/-- The display of a known type is read as that type. -/
theorem parse_render {t : Ty} (h : t.Known) : parse t.render = .ok t := by
  have hread : readType [] t.chars = some (t, []) := by
    simpa [readAfter] using readType_chars_append h [] []
  simp [parse_eq_readType, hread]

-- ====================================================== what a text can spell

/-- The type that an open group still holds. -/
def Slot.Known : Slot → Prop
  | .domain => True
  | .codomain d => d.Known

/-- The letters of types name known types. -/
theorem known_of_ofLetter? {c : Char} {t : Ty} (h : ofLetter? c = some t) :
    t.Known := by
  unfold ofLetter? at h
  split at h <;> cases h <;> trivial

/-- Every type that is read inside groups that hold known types is known;
so is every type that is read after a known one. -/
theorem known_of_read (cs : List Char) :
    ∀ groups : List Slot, (∀ slot ∈ groups, slot.Known) →
      (∀ {u rest}, readType groups cs = some (u, rest) → u.Known)
      ∧ ∀ {t u rest}, t.Known → readAfter groups t cs = some (u, rest) →
          u.Known := by
  induction cs with
  | nil =>
      intro groups _
      refine ⟨fun h => by simp [readType] at h, fun ht h => ?_⟩
      cases groups with
      | nil =>
          cases h
          exact ht
      | cons slot outer => simp [readAfter] at h
  | cons c cs ih =>
      intro groups hgroups
      constructor
      · intro u rest h
        rw [readType] at h
        split at h
        · exact (ih groups hgroups).1 h
        · split at h
          · have hdomain : Slot.Known .domain := trivial
            exact (ih _ (List.forall_mem_cons.2 ⟨hdomain, hgroups⟩)).1 h
          · split at h
            · rename_i t hletter
              exact (ih groups hgroups).2 (known_of_ofLetter? hletter) h
            · cases h
      · intro t u rest ht h
        cases groups with
        | nil =>
            cases h
            exact ht
        | cons slot outer =>
            obtain ⟨hslot, houter⟩ := List.forall_mem_cons.1 hgroups
            rw [readAfter.eq_def] at h
            simp only at h
            split at h
            · exact (ih _ hgroups).2 ht h
            · cases slot with
              | domain =>
                  simp only at h
                  split at h
                  · have hopen : Slot.Known (.codomain t) := ht
                    exact (ih _ (List.forall_mem_cons.2 ⟨hopen, houter⟩)).1 h
                  · cases h
              | codomain d =>
                  simp only at h
                  split at h
                  · have hfunc : (func d t).Known := ⟨hslot, ht⟩
                    exact (ih _ houter).2 hfunc h
                  · cases h

/-- A type that a text spells is known. -/
theorem known_of_parse {text : String} {t : Ty} (h : parse text = .ok t) :
    t.Known := by
  rw [parse_eq_readType] at h
  split at h
  · cases h
  · rename_i u rest hread
    split at h
    · cases h
      exact (known_of_read _ [] (List.forall_mem_nil _)).1 hread
    · cases h

-- ========================================================== separators

/-- Without its separators a text is read as it is with them, and what is
left over lacks its separators too. -/
theorem read_withoutSeparators (cs : List Char) :
    ∀ groups : List Slot,
      readType groups (withoutSeparators cs)
          = (readType groups cs).map (Prod.map id withoutSeparators)
      ∧ ∀ t, readAfter groups t (withoutSeparators cs)
          = (readAfter groups t cs).map (Prod.map id withoutSeparators) := by
  induction cs with
  | nil =>
      intro groups
      refine ⟨rfl, fun t => ?_⟩
      cases groups <;> rfl
  | cons c cs ih =>
      intro groups
      have after_nil (t : Ty) : readAfter [] t (withoutSeparators (c :: cs))
          = (readAfter [] t (c :: cs)).map (Prod.map id withoutSeparators) := by
        simp
      cases hc : isSeparator c with
      | true =>
          refine ⟨?_, fun t => ?_⟩
          · rw [withoutSeparators_separator hc, readType_separator hc]
            exact (ih groups).1
          · cases groups with
            | nil => exact after_nil t
            | cons slot outer =>
                rw [withoutSeparators_separator hc, readAfter_separator hc]
                exact (ih _).2 t
      | false =>
          refine ⟨?_, fun t => ?_⟩
          · rw [withoutSeparators_cons hc, readType_cons hc, readType_cons hc]
            split
            · exact (ih _).1
            · split
              · exact (ih _).2 _
              · rfl
          · cases groups with
            | nil => exact after_nil t
            | cons slot outer =>
                rw [withoutSeparators_cons hc, readAfter_cons hc, readAfter_cons hc]
                cases slot with
                | domain =>
                    simp only
                    split
                    · exact (ih _).1
                    · rfl
                | codomain d =>
                    simp only
                    split
                    · exact (ih _).2 _
                    · rfl

/-- A text spells a type if, without its separators, it is read as that
type to its end. -/
theorem parse_eq_ok_iff_read {text : String} {t : Ty} :
    parse text = .ok t
      ↔ readType [] (withoutSeparators text.toList) = some (t, []) := by
  rw [(read_withoutSeparators text.toList []).1, parse_eq_readType]
  cases hread : readType [] text.toList with
  | none => simp
  | some p =>
      obtain ⟨u, rest⟩ := p
      have hrest : withoutSeparators rest = [] ↔ rest.dropWhile isSeparator = [] := by
        simp [withoutSeparators, List.dropWhile_eq_nil_iff]
      simp only [Option.map_some, Prod.map_apply, id, Option.some.injEq,
        Prod.mk.injEq, hrest]
      cases rest.dropWhile isSeparator <;> simp

-- ================================================= what has been read

/-- An atomic type is displayed as its letter. -/
theorem chars_of_ofLetter? {c : Char} {t : Ty} (h : ofLetter? c = some t) :
    t.chars = [c] := by
  unfold ofLetter? at h
  split at h <;> cases h <;> rfl

/-- The display of the open groups as far as they have been read. -/
def opened : List Slot → List Char
  | [] => []
  | .domain :: outer => opened outer ++ ['<']
  | .codomain d :: outer => opened outer ++ '<' :: (d.chars ++ [','])

/-- Where there are no separators, the text from the outermost open group
on is the display of what is read, followed by what is left over. -/
theorem chars_append_of_read {cs : List Char}
    (hcs : ∀ c ∈ cs, isSeparator c = false) :
    ∀ groups : List Slot,
      (∀ {u rest}, readType groups cs = some (u, rest) →
        opened groups ++ cs = u.chars ++ rest)
      ∧ ∀ {t u rest}, readAfter groups t cs = some (u, rest) →
        opened groups ++ (t.chars ++ cs) = u.chars ++ rest := by
  induction cs with
  | nil =>
      intro groups
      refine ⟨fun h => by simp [readType] at h, fun h => ?_⟩
      cases groups with
      | nil =>
          cases h
          rfl
      | cons slot outer => simp [readAfter] at h
  | cons c cs ih =>
      obtain ⟨hc, hcs⟩ := List.forall_mem_cons.1 hcs
      have ih := ih hcs
      intro groups
      refine ⟨fun h => ?_, fun h => ?_⟩
      · rw [readType_cons hc] at h
        split at h
        · rename_i hopen
          rw [← (ih _).1 h]
          simp [opened, hopen]
        · split at h
          · rename_i t hletter
            rw [← (ih _).2 h]
            simp [chars_of_ofLetter? hletter]
          · cases h
      · cases groups with
        | nil =>
            cases h
            rfl
        | cons slot outer =>
            rw [readAfter_cons hc] at h
            cases slot with
            | domain =>
                simp only at h
                split at h
                · rename_i hcomma
                  rw [← (ih _).1 h]
                  simp [opened, hcomma]
                · cases h
            | codomain d =>
                simp only at h
                split at h
                · rename_i hclose
                  rw [← (ih _).2 h]
                  simp [opened, chars, hclose]
                · cases h

/-- Apart from separators, the display of a type is the one text that
spells it. -/
theorem parse_eq_ok_iff {text : String} {t : Ty} :
    parse text = .ok t
      ↔ t.Known ∧ String.ofList (withoutSeparators text.toList) = t.render := by
  rw [render, String.ofList_inj]
  constructor
  · intro h
    have hread := parse_eq_ok_iff_read.1 h
    refine ⟨known_of_parse h, ?_⟩
    simpa [opened] using
      (chars_append_of_read isSeparator_of_mem_withoutSeparators []).1 hread
  · intro h
    obtain ⟨hknown, hchars⟩ := h
    rw [parse_eq_ok_iff_read, hchars]
    simpa using readType_chars_append hknown [] []

example : parse " < e,<e , t>>\n" = .ok (.func .entity (.func .entity .truth)) :=
  rfl

/-- The notation is decoded exactly. A text spells a type if and only if
it is the display of the type once its separators are taken out, and the
type is known; so displays of known types are read back, no two known
types share a display, and a text that spells no known type is refused. -/
theorem notation_spells_types :
    (∀ (text : String) (t : Ty), parse text = .ok t
        ↔ t.Known ∧ String.ofList (withoutSeparators text.toList) = t.render)
      ∧ (∀ t : Ty, parse t.render = .ok t ↔ t.Known)
      ∧ Set.InjOn render {t | t.Known}
      ∧ ∀ text : String, (∃ cause, parse text = .error cause)
        ↔ ¬ ∃ t : Ty, t.Known
            ∧ String.ofList (withoutSeparators text.toList) = t.render := by
  refine ⟨fun text t => parse_eq_ok_iff, fun t => ⟨known_of_parse, parse_render⟩,
    ?_, fun text => ?_⟩
  · intro t ht u hu h
    have hread : parse u.render = .ok t := h ▸ parse_render ht
    exact Except.ok.inj (hread.symm.trans (parse_render hu))
  · cases hparse : parse text with
    | error cause =>
        simp only [← parse_eq_ok_iff, hparse]
        simp
    | ok t =>
        simp only [← parse_eq_ok_iff, hparse]
        simp

end Ty

end LogicalForm
