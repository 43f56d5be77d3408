/-
What the grammar of s-expressions reads, told by lexemes. A text has to
be separated for it, that is, every blank in it has to be a separator;
then the next character that the grammar looks at, behind separators,
belongs to the next lexeme (`lexeme_cases`).

# Both directions

What is read writes the lexemes that have been passed, and separators
only stand between them (`passes_of_run`). In the other direction, where a
separated text begins with the lexemes of an s-expression, that
s-expression is read, and what is left has the remaining lexemes
(`exists_run_of_lexemes`). Both go by induction on the s-expression, and
over the items of a group. Together, a text writes an s-expression exactly
if it is separated and has its lexemes (`ofChars_eq_ok_iff_lexemes`); so
an s-expression whose words are words is read back from its plain
spelling (`ofChars_chars`), and only such are ever read
(`worded_of_ofChars`).
-/
import LogicalForm.Sexp.Reader
import LogicalForm.Proofs.Lexing

namespace LogicalForm

namespace Text

/-- Every blank of the text is a separator. -/
def Separated (cs : List Char) : Prop :=
  ∀ c ∈ cs, isBlank c = true → isSeparator c = true

/-- The rest of a text with separators only has separators only. -/
theorem Separated.of_suffix {cs rest : List Char} (h : Separated cs)
    (hrest : rest <:+ cs) : Separated rest :=
  fun c hc => h c (hrest.subset hc)

end Text

namespace Sexp

open Text Rule

variable {cs rest : List Char} {s : Sexp}

-- ============================================================== grammar

/-- A group calls for its items only behind its parenthesis. -/
theorem guarded_rule : Guarded fun self => alt (groupRule self) wordRule := by
  intro n p q h
  have hitems : AgreeBelow n (many0 (preceded multispace0 p))
      (many0 (preceded multispace0 q)) :=
    AgreeBelow.many0 ((AgreeBelow.refl n multispace0).bind fun _ => h)
  refine AgreeBelow.alt (AgreeBelow.map ?_ _) (.refl _ _)
  exact .bind_consuming (consuming_char '(') fun _ =>
    hitems.bind fun _ => .refl _ _

/-- The rule for s-expressions is a group, whose items it reads itself, or
else a word. -/
theorem rule_eq : rule = alt (groupRule rule) wordRule := fix_eq guarded_rule

/-- An item of a group, with the separators before it. -/
def item : Rule Sexp := preceded multispace0 rule

/-- An item is read behind the separators before it. -/
theorem run_item (cs : List Char) :
    item.run cs = rule.run (cs.dropWhile isSeparator) := rfl

/-- A group is a parenthesis, as many items as there are, and a parenthesis
behind separators. -/
theorem run_groupRule (cs : List Char) :
    (groupRule rule).run cs
      = match (char '(').run cs with
        | .error e => .error e
        | .ok (_, inner) =>
          match (many0 item).run inner with
          | .error e => .error e
          | .ok (items, mid) =>
            match (char ')').run (mid.dropWhile isSeparator) with
            | .error e => .error e
            | .ok (_, rest) => .ok (group items, rest) := by
  simp only [groupRule, delimited, pair, run_map, run_bind, run_multispace0]
  cases (char '(').run cs with
  | error e => rfl
  | ok r =>
      simp only [item]
      cases (many0 (preceded multispace0 rule)).run r.2 with
      | error e => rfl
      | ok r =>
          simp only
          cases (char ')').run (r.2.dropWhile isSeparator) <;> rfl

/-- A word stops at the characters that are of no word. -/
theorem stops_eq (c : Char) :
    (isBlank c || c == '(' || c == ')') = !isWordChar c :=
  (Bool.not_not _).symm

/-- Where a word ends, a run of its characters stops. -/
theorem stops_of_endsWord (h : EndsWord cs) :
    ∀ c ∈ cs.head?, (isBlank c || c == '(' || c == ')') = true := by
  intro c hc
  rw [EndsWord, Option.mem_def.1 hc] at h
  rw [stops_eq, show isWordChar c = false from h]
  rfl

/-- A word is read where one stands. -/
theorem run_wordRule_append {w : List Char} (hw : IsWord w)
    (hrest : EndsWord rest) :
    wordRule.run (w ++ rest) = .ok (word w, rest) := by
  rw [wordRule, run_map, run_takeTill1_append hw.1 _ (stops_of_endsWord hrest)]
  intro c hc
  rw [stops_eq, hw.2 c hc]
  rfl

/-- Where a word ends, none can be read. -/
theorem run_wordRule_of_endsWord (h : EndsWord cs) :
    wordRule.run cs = .error ⟨cs, .takeTill1⟩ := by
  rw [wordRule, run_map, run_takeTill1_of_stop (stops_of_endsWord h)]

/-- What is read as a word is one, and all of it. -/
theorem run_wordRule_eq_ok (h : wordRule.run cs = .ok (s, rest)) :
    ∃ w, s = word w ∧ cs = w ++ rest ∧ IsWord w ∧ EndsWord rest := by
  by_cases hends : EndsWord cs
  · rw [run_wordRule_of_endsWord hends] at h
    cases h
  · cases cs with
    | nil => exact absurd endsWord_nil hends
    | cons c cs =>
        have hc : isWordChar c = true := by simpa [EndsWord] using hends
        obtain ⟨w, r, hsplit, hw, hr⟩ := Lexeme.exists_word_append hc cs
        rw [hsplit, run_wordRule_append hw hr] at h
        cases h
        exact ⟨w, rfl, hsplit, hw, hr⟩

/-- A word is no group, so it is read as a word. -/
theorem run_rule_word {w : List Char} (hw : IsWord w) (hrest : EndsWord rest) :
    rule.run (w ++ rest) = .ok (word w, rest) := by
  obtain ⟨c, v, rfl⟩ := List.exists_cons_of_ne_nil hw.1
  have hc : c ≠ '(' := (isWordChar_iff.1 (hw.2 c (List.mem_cons_self ..))).2.1
  rw [rule_eq, run_alt, run_groupRule, run_wordRule_append hw hrest,
    List.cons_append, run_char_cons, if_neg hc]

/-- No s-expression starts with a closing parenthesis. -/
theorem run_rule_closing (cs : List Char) :
    rule.run (')' :: cs) = .error ⟨')' :: cs, .takeTill1⟩ := by
  rw [rule_eq, run_alt, run_groupRule,
    run_wordRule_of_endsWord (endsWord_cons (by decide) cs)]
  rfl

/-- A group is read where its items stand in parentheses. -/
theorem run_rule_group {inner mid : List Char} {items : List Sexp}
    (hitems : (many0 item).run inner = .ok (items, mid))
    (hclosing : mid.dropWhile isSeparator = ')' :: rest) :
    rule.run ('(' :: inner) = .ok (group items, rest) := by
  rw [rule_eq, run_alt, run_groupRule]
  simp [hitems, hclosing]

/-- What is read is a group, from its opening to its closing parenthesis,
or a word. -/
theorem run_rule_eq_ok (h : rule.run cs = .ok (s, rest)) :
    (∃ inner items mid, cs = '(' :: inner ∧ s = group items
        ∧ (many0 item).run inner = .ok (items, mid)
        ∧ mid.dropWhile isSeparator = ')' :: rest)
      ∨ ∃ w, s = word w ∧ cs = w ++ rest ∧ IsWord w ∧ EndsWord rest := by
  rw [rule_eq, run_alt] at h
  split at h
  · rename_i hgroup
    cases h
    left
    rw [run_groupRule] at hgroup
    split at hgroup
    · cases hgroup
    · rename_i hopening
      split at hgroup
      · cases hgroup
      · rename_i inner _ items mid hitems
        split at hgroup
        · cases hgroup
        · rename_i hclosing
          cases hgroup
          exact ⟨inner, items, mid, (run_char_eq_ok.1 hopening).1, rfl, hitems,
            (run_char_eq_ok.1 hclosing).1⟩
  · exact .inr (run_wordRule_eq_ok h)

-- ======================================================== what is read

/-- Between two places of a text, those lexemes have been passed, and
separators only between them. -/
structure Passes (cs : List Char) (ls : List Lexeme) (rest : List Char) :
    Prop where
  lexemes : Lexeme.ofChars cs = ls ++ Lexeme.ofChars rest
  separated : Separated rest → Separated cs

theorem Passes.refl (cs : List Char) : Passes cs [] cs := ⟨rfl, id⟩

/-- What is passed one after the other is passed in all. -/
theorem Passes.trans {mid : List Char} {ls ms : List Lexeme}
    (h : Passes cs ls mid) (h' : Passes mid ms rest) :
    Passes cs (ls ++ ms) rest :=
  ⟨by rw [h.lexemes, h'.lexemes, List.append_assoc],
    fun hrest => h.separated (h'.separated hrest)⟩

/-- One character is passed with the lexemes that it adds, if it is no
blank that separates nothing. -/
theorem Passes.cons {c : Char} {ls : List Lexeme}
    (hlexemes : Lexeme.ofChars (c :: rest) = ls ++ Lexeme.ofChars rest)
    (hc : isBlank c = true → isSeparator c = true) :
    Passes (c :: rest) ls rest :=
  ⟨hlexemes, fun hrest => List.forall_mem_cons.2 ⟨hc, hrest⟩⟩

/-- Separators are passed without a lexeme. -/
theorem passes_dropWhile (cs : List Char) :
    Passes cs [] (cs.dropWhile isSeparator) := by
  induction cs with
  | nil => exact .refl []
  | cons c cs ih =>
      cases hc : isSeparator c with
      | true =>
          rw [List.dropWhile_cons_of_pos hc]
          have hblank : Lexeme.ofChars (c :: cs) = [] ++ Lexeme.ofChars cs :=
            Lexeme.ofChars_blank (isBlank_of_isSeparator hc) cs
          exact (Passes.cons hblank fun _ => hc).trans ih
      | false =>
          rw [List.dropWhile_cons_of_neg (by simp [hc])]
          exact .refl _

/-- Reading a word passes its lexeme. -/
theorem passes_word {w : List Char} (hw : IsWord w) (hrest : EndsWord rest) :
    Passes (w ++ rest) [.word w] rest := by
  refine ⟨Lexeme.ofChars_append_of_isWord hw hrest, fun h => ?_⟩
  refine List.forall_mem_append.2 ⟨fun c hc hblank => ?_, h⟩
  rw [(isWordChar_iff.1 (hw.2 c hc)).1] at hblank
  cases hblank

/-- Items that pass their lexemes pass them one after the other. -/
theorem passes_of_run_many0 {items : List Sexp}
    (hitems : ∀ s ∈ items, ∀ {cs rest}, rule.run cs = .ok (s, rest) →
      Passes cs s.lexemes rest)
    (h : (many0 item).run cs = .ok (items, rest)) :
    Passes cs (items.flatMap lexemes) rest := by
  refine many0_induction (P := fun cs ss rest => (∀ s ∈ ss, s ∈ items) →
    Passes cs (ss.flatMap lexemes) rest) ?_ ?_ h fun _ hs => hs
  · exact fun cs _ => .refl cs
  · intro cs s mid ss rest hs hss hmem
    obtain ⟨hfirst, hmem⟩ := List.forall_mem_cons.1 hmem
    exact ((passes_dropWhile cs).trans (hitems s hfirst hs)).trans (hss hmem)

/-- Reading an s-expression passes its lexemes. -/
theorem passes_of_run {s : Sexp} :
    ∀ {cs rest}, rule.run cs = .ok (s, rest) → Passes cs s.lexemes rest := by
  induction s with
  | word w =>
      intro cs rest h
      rcases run_rule_eq_ok h with ⟨_, _, _, _, hs, _⟩ | ⟨v, hs, rfl, hw, hrest⟩
      · cases hs
      · cases hs
        exact passes_word hw hrest
  | group items ih =>
      intro cs rest h
      rcases run_rule_eq_ok h with
        ⟨inner, ss, mid, rfl, hs, hitems, hclosing⟩ | ⟨_, hs, _⟩
      · cases hs
        have hopening : Passes ('(' :: inner) [.opening] inner :=
          .cons (Lexeme.ofChars_opening inner) (by decide)
        have hinner : Passes inner (items.flatMap lexemes) mid :=
          passes_of_run_many0 ih hitems
        have hend : Passes mid [.closing] rest := by
          have hspace := passes_dropWhile mid
          rw [hclosing] at hspace
          exact hspace.trans (.cons (Lexeme.ofChars_closing rest) (by decide))
        have hgroup := (hopening.trans hinner).trans hend
        simpa [lexemes] using hgroup
      · cases hs

-- ===================================================== what there is to read

/-- Behind the separators of a separated text its first lexeme stands, if
it has any. -/
theorem lexeme_cases (h : Separated cs) :
    (cs.dropWhile isSeparator = [] ∧ Lexeme.ofChars cs = [])
      ∨ (∃ ds, cs.dropWhile isSeparator = '(' :: ds
        ∧ Lexeme.ofChars cs = .opening :: Lexeme.ofChars ds)
      ∨ (∃ ds, cs.dropWhile isSeparator = ')' :: ds
        ∧ Lexeme.ofChars cs = .closing :: Lexeme.ofChars ds)
      ∨ ∃ w ds, cs.dropWhile isSeparator = w ++ ds ∧ IsWord w ∧ EndsWord ds
        ∧ Lexeme.ofChars cs = .word w :: Lexeme.ofChars ds := by
  have hrest : Separated (cs.dropWhile isSeparator) :=
    h.of_suffix (List.dropWhile_suffix _)
  have hfirst : ∀ c ∈ (cs.dropWhile isSeparator).head?, isSeparator c = false :=
    fun _ hc => not_of_head?_dropWhile hc
  rw [(passes_dropWhile cs).lexemes, List.nil_append]
  generalize cs.dropWhile isSeparator = ds at hrest hfirst
  cases ds with
  | nil => exact .inl ⟨rfl, rfl⟩
  | cons c ds =>
      cases hc : isWordChar c with
      | true =>
          obtain ⟨w, r, hsplit, hw, hr⟩ := Lexeme.exists_word_append hc ds
          rw [hsplit]
          exact .inr (.inr (.inr ⟨w, r, rfl, hw, hr,
            Lexeme.ofChars_append_of_isWord hw hr⟩))
      | false =>
          rcases isWordChar_eq_false_iff.1 hc with hblank | rfl | rfl
          · have hsep := hrest c (List.mem_cons_self ..) hblank
            rw [hfirst c rfl] at hsep
            cases hsep
          · exact .inr (.inl ⟨ds, rfl, Lexeme.ofChars_opening ds⟩)
          · exact .inr (.inr (.inl ⟨ds, rfl, Lexeme.ofChars_closing ds⟩))

/-- Before an opening parenthesis there is nothing but separators. -/
theorem dropWhile_of_opening {ls : List Lexeme} (h : Separated cs)
    (hls : Lexeme.ofChars cs = .opening :: ls) :
    ∃ ds, cs.dropWhile isSeparator = '(' :: ds ∧ Lexeme.ofChars ds = ls := by
  rcases lexeme_cases h with
    ⟨-, h⟩ | ⟨ds, hds, h⟩ | ⟨_, -, h⟩ | ⟨_, _, -, -, -, h⟩
  all_goals rw [hls] at h; cases h
  exact ⟨ds, hds, rfl⟩

/-- Before a closing parenthesis there is nothing but separators. -/
theorem dropWhile_of_closing {ls : List Lexeme} (h : Separated cs)
    (hls : Lexeme.ofChars cs = .closing :: ls) :
    ∃ ds, cs.dropWhile isSeparator = ')' :: ds ∧ Lexeme.ofChars ds = ls := by
  rcases lexeme_cases h with
    ⟨-, h⟩ | ⟨_, -, h⟩ | ⟨ds, hds, h⟩ | ⟨_, _, -, -, -, h⟩
  all_goals rw [hls] at h; cases h
  exact ⟨ds, hds, rfl⟩

/-- Before a word there is nothing but separators, and it is followed by
something that ends it. -/
theorem dropWhile_of_word {w : List Char} {ls : List Lexeme} (h : Separated cs)
    (hls : Lexeme.ofChars cs = .word w :: ls) :
    ∃ ds, cs.dropWhile isSeparator = w ++ ds ∧ IsWord w ∧ EndsWord ds
      ∧ Lexeme.ofChars ds = ls := by
  rcases lexeme_cases h with
    ⟨-, h⟩ | ⟨_, -, h⟩ | ⟨_, -, h⟩ | ⟨_, ds, hds, hw, hends, h⟩
  all_goals rw [hls] at h; cases h
  exact ⟨ds, hds, hw, hends, rfl⟩

/-- Items are read up to the closing parenthesis where the text has their
lexemes and then that one. -/
theorem exists_run_many0_of_lexemes {items : List Sexp} {ls : List Lexeme}
    (hitems : ∀ s ∈ items, ∀ {cs ls}, Separated cs →
      Lexeme.ofChars cs = s.lexemes ++ ls →
      ∃ rest, item.run cs = .ok (s, rest) ∧ Lexeme.ofChars rest = ls)
    (hcs : Separated cs)
    (hls : Lexeme.ofChars cs = items.flatMap lexemes ++ .closing :: ls) :
    ∃ mid rest, (many0 item).run cs = .ok (items, mid)
      ∧ mid.dropWhile isSeparator = ')' :: rest ∧ Lexeme.ofChars rest = ls := by
  induction items generalizing cs with
  | nil =>
      obtain ⟨rest, hclosing, hrest⟩ := dropWhile_of_closing hcs hls
      have hitem : item.run cs = .error ⟨')' :: rest, .takeTill1⟩ := by
        rw [run_item, hclosing]
        exact run_rule_closing rest
      exact ⟨cs, rest, run_many0_of_error hitem, hclosing, hrest⟩
  | cons s ss ih =>
      obtain ⟨hs, hss⟩ := List.forall_mem_cons.1 hitems
      rw [List.flatMap_cons, List.append_assoc] at hls
      obtain ⟨next, hnext, hlexemes⟩ := hs hcs hls
      have hseparated : Separated next := hcs.of_suffix (item.rest_suffix hnext)
      obtain ⟨mid, rest, hmid, hend⟩ := ih hss hseparated hlexemes
      refine ⟨mid, rest, run_many0_of_ok hnext ?_ hmid, hend⟩
      rintro rfl
      rw [hlexemes, List.self_eq_append_left] at hls
      exact lexemes_ne_nil s hls

/-- Where a separated text begins with the lexemes of an s-expression, it
is read, and the remaining lexemes are left. -/
theorem exists_run_of_lexemes {s : Sexp} :
    ∀ {cs ls}, Separated cs → Lexeme.ofChars cs = s.lexemes ++ ls →
      ∃ rest, item.run cs = .ok (s, rest) ∧ Lexeme.ofChars rest = ls := by
  induction s with
  | word w =>
      intro cs ls hcs hls
      obtain ⟨rest, hsplit, hw, hends, hrest⟩ := dropWhile_of_word hcs hls
      refine ⟨rest, ?_, hrest⟩
      rw [run_item, hsplit, run_rule_word hw hends]
  | group items ih =>
      intro cs ls hcs hls
      rw [lexemes, lexemesAll_eq_flatMap, List.cons_append, List.append_assoc] at hls
      obtain ⟨inner, hopening, hinner⟩ := dropWhile_of_opening hcs hls
      have hseparated : Separated ('(' :: inner) :=
        hopening ▸ hcs.of_suffix (List.dropWhile_suffix _)
      obtain ⟨mid, rest, hitems, hclosing, hrest⟩ :=
        exists_run_many0_of_lexemes ih
          (hseparated.of_suffix (List.suffix_cons ..)) hinner
      refine ⟨rest, ?_, hrest⟩
      rw [run_item, hopening, run_rule_group hitems hclosing]

-- =============================================================== reader

/-- A text writes what is read from its start, if only separators are left
over. -/
theorem ofChars_eq_ok_iff_run :
    ofChars cs = .ok s
      ↔ ∃ rest, item.run cs = .ok (s, rest) ∧ rest.dropWhile isSeparator = [] := by
  rw [ofChars, run_whole, run_item]
  cases rule.run (cs.dropWhile isSeparator) with
  | error e => simp
  | ok r =>
      obtain ⟨u, rest⟩ := r
      constructor
      · intro h
        cases hend : rest.dropWhile isSeparator with
        | nil =>
            simp only [hend] at h
            cases h
            exact ⟨rest, rfl, hend⟩
        | cons c ds =>
            simp only [hend] at h
            cases h
      · rintro ⟨rest, hrun, hend⟩
        cases hrun
        simp only [hend]

/-- A text writes an s-expression if it is separated and consists of its
lexemes. -/
theorem ofChars_eq_ok_iff_lexemes :
    ofChars cs = .ok s ↔ Separated cs ∧ Lexeme.ofChars cs = s.lexemes := by
  rw [ofChars_eq_ok_iff_run]
  constructor
  · rintro ⟨rest, hrun, hend⟩
    have hspace := passes_dropWhile rest
    rw [hend] at hspace
    have hpasses := ((passes_dropWhile cs).trans (passes_of_run hrun)).trans hspace
    refine ⟨hpasses.separated fun _ h => (List.not_mem_nil h).elim, ?_⟩
    simpa [Lexeme.ofChars] using hpasses.lexemes
  · rintro ⟨hcs, hls⟩
    have hall : Lexeme.ofChars cs = s.lexemes ++ [] := by
      rw [hls, List.append_nil]
    obtain ⟨rest, hrun, hrest⟩ := exists_run_of_lexemes hcs hall
    refine ⟨rest, hrun, ?_⟩
    rcases lexeme_cases (hcs.of_suffix (item.rest_suffix hrun)) with
      ⟨hend, -⟩ | ⟨_, -, h⟩ | ⟨_, -, h⟩ | ⟨_, _, -, -, -, h⟩
    · exact hend
    all_goals rw [hrest] at h; cases h

/-- An s-expression is read back from its plain spelling. -/
theorem ofChars_chars (h : s.Worded) : ofChars s.chars = .ok s := by
  refine ofChars_eq_ok_iff_lexemes.2 ⟨fun c hc hblank => ?_, ?_⟩
  · rw [eq_space_of_blank h c hc hblank]
    rfl
  · simpa [Lexeme.ofChars] using ofChars_chars_append h [] endsWord_nil

/-- The words of an s-expression that a text spells are words. -/
theorem worded_of_ofChars (h : ofChars cs = .ok s) : s.Worded := by
  intro w hw
  rw [← (ofChars_eq_ok_iff_lexemes.1 h).2] at hw
  exact Lexeme.isWord_of_mem_ofChars hw

end Sexp

end LogicalForm
