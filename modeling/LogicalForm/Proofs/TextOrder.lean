/-
Visiting order is textual order. The occurrences of a term that a text
writes stand in the text as its words with a dollar sign, one word for
each, from left to right (`visits_follow_the_text`). The lexemes around a
word decide what it is: behind a word that opens a group as a lambda or as
a binder it introduces its variable, everywhere else it uses it. So the
first occurrence of a variable in a term, which decides its type, is the
first one that a reader of the text meets.

# The lexemes alone decide

A text is walked here as the flat sequence of its lexemes, without its
groups. `Place` is a lexeme with what stands before and behind it, and
`Place.Writes` says which occurrence a word writes there. It writes one
only, so the lexemes determine what they mention (`Mentions.unique`).

`HeadedBy` looks back by two lexemes: at the parenthesis and at the word
that opens a group. Nothing else is needed, because an item of a group
leaves behind a closing parenthesis or a word that is not the first of its
group (`Inside`), and then the next item is not the variable of a lambda
or of a binder. Walks compose (`Mentions.append`), so each shape of a term
is one walk over its own lexemes.
-/
import LogicalForm.Proofs.Balance
import LogicalForm.Proofs.RoundTrip
import LogicalForm.Term.Occurrences
import Mathlib.Data.List.Forall2

namespace LogicalForm

open Text

-- ======================================================= kinds of words

/-- The word is a spelling of the marker of lambdas. -/
def MarksLambda (w : List Char) : Prop :=
  ∃ m ∈ ["lambda", "λ", "\\"], m.toList = w

/-- The word is the name of a built-in that binds. -/
def NamesBinder (w : List Char) : Prop :=
  ∃ op : Builtin, op.isBinder = true ∧ op.name.toList = w

/-- The words that open lambdas are the spellings of the marker. -/
theorem isLambdaWord_iff {w : List Char} :
    isLambdaWord w = true ↔ MarksLambda w := by
  simp only [isLambdaWord, Bool.or_eq_true, decide_eq_true_eq]
  simp [MarksLambda, Marker.chars, eq_comm, or_assoc]

/-- No spelling of the marker starts with a dollar sign. -/
theorem MarksLambda.head? {w : List Char} (h : MarksLambda w) :
    w.head? ≠ some '$' := by
  obtain ⟨m, hm, rfl⟩ := h
  revert m
  decide

/-- A word opens no binder if it names no built-in that binds. -/
theorem binderOfWord?_eq_none_iff {w : List Char} :
    Builtin.binderOfWord? w = none ↔ ¬ NamesBinder w := by
  rw [Option.eq_none_iff_forall_ne_some]
  simp [NamesBinder, ← Builtin.binderOfWord?_eq_some_iff]

/-- A word that spells a type does not start with a dollar sign. -/
theorem Ty.head?_of_parse {w : List Char} {type : Ty}
    (h : Ty.parse (String.ofList w) = .ok type) : w.head? ≠ some '$' := by
  intro hhead
  cases w with
  | nil => cases hhead
  | cons c cs =>
      cases hhead
      rw [Ty.parse_eq_ok_iff_read, String.toList_ofList,
        withoutSeparators_cons (by decide), Ty.readType_cons (by decide)] at h
      cases h

-- ===================================================== places in a text

namespace Lexeme

/-- A lexeme of a text with the lexemes before it and behind it. -/
structure Place where
  before : List Lexeme
  lexeme : Lexeme
  behind : List Lexeme

/-- The places of the lexemes `ls`, from left to right, where `before`
stands before them. -/
def places (before : List Lexeme) : List Lexeme → List Place
  | [] => []
  | l :: ls => ⟨before, l, ls⟩ :: places (before ++ [l]) ls

/-- The lexeme is a word that starts with a dollar sign. -/
def isDollar : Lexeme → Bool
  | .word w => w.head? = some '$'
  | _ => false

/-- The lexemes end with the beginning of a group, and the word that the
group opens with is of the kind `P`. -/
def HeadedBy (P : List Char → Prop) (ls : List Lexeme) : Prop :=
  ∃ w, P w ∧ [.opening, .word w] <:+ ls

/-- No lambda and no binder waits for its variable behind the lexemes. -/
def Unbound (ls : List Lexeme) : Prop :=
  ¬ HeadedBy MarksLambda ls ∧ ¬ HeadedBy NamesBinder ls

/-- What the place of a word says of the site of the occurrence that the
word writes. The type that a lambda states is the next word. -/
def Place.Tells (p : Place) : Site → Prop
  | .lambda type =>
    HeadedBy MarksLambda p.before
      ∧ ∃ w ls, p.behind = .word w :: ls ∧ Ty.parse (String.ofList w) = .ok type
  | .binder => HeadedBy NamesBinder p.before
  | .atom => Unbound p.before

/-- The occurrence is written at the place: there the index of its
variable stands behind a dollar sign and any number of zeros. -/
structure Place.Writes (p : Place) (o : Visit) : Prop where
  spelled : ∃ zeros,
    p.lexeme = .word ('$' :: (List.replicate zeros '0' ++ digits o.var.index))
  site : p.Tells o.site

/-- The words with a dollar sign among `ls`, where `before` stands before
them, write these occurrences: as many, and in this order. -/
def Mentions (before ls : List Lexeme) (os : List Visit) : Prop :=
  List.Forall₂ Place.Writes ((places before ls).filter (·.lexeme.isDollar)) os

-- ================================================== what a place decides

/-- There is one word that the lexemes are headed by. -/
theorem HeadedBy.common {P Q : List Char → Prop} {ls : List Lexeme}
    (hP : HeadedBy P ls) (hQ : HeadedBy Q ls) : ∃ w, P w ∧ Q w := by
  obtain ⟨v, hv, hvs⟩ := hP
  obtain ⟨w, hw, hws⟩ := hQ
  have hsame := (List.suffix_of_suffix_length_le hvs hws le_rfl).eq_of_length rfl
  cases hsame
  exact ⟨v, hv, hw⟩

/-- A group cannot open both a lambda and a binder. -/
theorem not_headedBy_both {ls : List Lexeme} (hlambda : HeadedBy MarksLambda ls)
    (hbinder : HeadedBy NamesBinder ls) : False := by
  obtain ⟨w, hmarks, op, -, rfl⟩ := hlambda.common hbinder
  have hword := op.isLambdaWord_name
  rw [isLambdaWord_iff.2 hmarks] at hword
  cases hword

/-- A place tells one site. -/
theorem Place.Tells.unique {p : Place} {s s' : Site} (h : p.Tells s)
    (h' : p.Tells s') : s = s' := by
  cases s with
  | lambda type =>
      cases s' with
      | lambda type' =>
          obtain ⟨-, w, ls, hbehind, htype⟩ := h
          obtain ⟨-, w', ls', hbehind', htype'⟩ := h'
          cases hbehind.symm.trans hbehind'
          cases htype.symm.trans htype'
          rfl
      | binder => exact (not_headedBy_both h.1 h').elim
      | atom => exact absurd h.1 h'.1
  | binder =>
      cases s' with
      | lambda type => exact (not_headedBy_both h'.1 h).elim
      | binder => rfl
      | atom => exact absurd h h'.2
  | atom =>
      cases s' with
      | lambda type => exact absurd h'.1 h.1
      | binder => exact absurd h' h.2
      | atom => rfl

/-- One occurrence is written at a place. -/
theorem Place.Writes.unique {p : Place} {o o' : Visit} (h : p.Writes o)
    (h' : p.Writes o') : o = o' := by
  obtain ⟨site, ⟨index⟩⟩ := o
  obtain ⟨site', ⟨index'⟩⟩ := o'
  obtain ⟨zeros, hword⟩ := h.spelled
  obtain ⟨zeros', hword'⟩ := h'.spelled
  have hdigits := hword.symm.trans hword'
  rw [Lexeme.word.injEq, List.cons.injEq] at hdigits
  have hindex : index = index' := eq_of_zeros_append_digits hdigits.2
  have hsite : site = site' := h.site.unique h'.site
  rw [hindex, hsite]

/-- The lexemes mention at most one sequence of occurrences. -/
theorem Mentions.unique {before ls : List Lexeme} {os ps : List Visit}
    (hos : Mentions before ls os) (hps : Mentions before ls ps) : os = ps := by
  have hplace : Relator.RightUnique Place.Writes :=
    fun _ _ _ h h' => h.unique h'
  exact hplace.forall₂ hos hps

-- ============================================================== one walk

section

variable {before xs ys : List Lexeme} {l : Lexeme} {os ps : List Visit}

/-- The place in a text that goes on with `ls`. -/
def Place.extend (ls : List Lexeme) (p : Place) : Place :=
  { p with behind := p.behind ++ ls }

/-- The places of a text are those of its first part, where the text goes
on, and those of its second part. -/
theorem places_append (before xs ys : List Lexeme) :
    places before (xs ++ ys)
      = (places before xs).map (Place.extend ys) ++ places (before ++ xs) ys := by
  induction xs generalizing before with
  | nil => simp [places]
  | cons x xs ih => simp [places, ih, Place.extend]

/-- What a place writes does not depend on how the text goes on. -/
theorem Place.Writes.extend {p : Place} {o : Visit} (h : p.Writes o)
    (ls : List Lexeme) : (p.extend ls).Writes o := by
  refine ⟨h.spelled, ?_⟩
  have hsite := h.site
  cases hs : o.site with
  | lambda type =>
      rw [hs] at hsite
      obtain ⟨hhead, w, rest, hbehind, htype⟩ := hsite
      refine ⟨hhead, w, rest ++ ls, ?_, htype⟩
      rw [Place.extend, hbehind, List.cons_append]
  | binder =>
      rw [hs] at hsite
      exact hsite
  | atom =>
      rw [hs] at hsite
      exact hsite

theorem mentions_nil (before : List Lexeme) : Mentions before [] [] := .nil

/-- Two walks, the second from where the first one ends, are one. -/
theorem Mentions.append (hxs : Mentions before xs os)
    (hys : Mentions (before ++ xs) ys ps) :
    Mentions before (xs ++ ys) (os ++ ps) := by
  rw [Mentions, places_append, List.filter_append, List.filter_map]
  refine List.rel_append ?_ hys
  rw [List.forall₂_map_left_iff]
  exact hxs.imp fun _ _ h => h.extend ys

/-- A lexeme without a dollar sign mentions nothing. -/
theorem Mentions.skip (hl : l.isDollar = false)
    (h : Mentions (before ++ [l]) xs os) : Mentions before (l :: xs) os := by
  rw [Mentions, places, List.filter_cons_of_neg (by simp [hl])]
  exact h

/-- A word with a dollar sign mentions the variable that it spells, at the
site that its place tells. -/
theorem Mentions.take {w : List Char} {site : Site} {v : Var}
    (hv : Var.ofWord w = .ok v) (hsite : Place.Tells ⟨before, .word w, xs⟩ site)
    (h : Mentions (before ++ [.word w]) xs os) :
    Mentions before (.word w :: xs) (⟨site, v⟩ :: os) := by
  obtain ⟨-, zeros, rfl⟩ := Var.ofWord_eq_ok_iff.1 hv
  rw [Mentions, places, List.filter_cons_of_pos (by simp [isDollar])]
  exact .cons ⟨⟨zeros, rfl⟩, hsite⟩ h

/-- The parenthesis that closes a group ends the walk over the group. -/
theorem Mentions.closed (h : Mentions before xs os) :
    Mentions before (xs ++ [.closing]) os := by
  rw [← List.append_nil os]
  exact h.append (.skip rfl (mentions_nil _))

end

-- ======================================================== what is behind

section

variable {before : List Lexeme} {w : List Char} {P : List Char → Prop}

/-- The last lexeme heads a group if it is a word right behind the opening
parenthesis. -/
theorem headedBy_concat {l : Lexeme} :
    HeadedBy P (before ++ [l]) ↔ ∃ w, P w ∧ l = .word w ∧ [.opening] <:+ before := by
  refine exists_congr fun w => and_congr_right fun _ => ?_
  have hlast : [.opening] ++ [.word w] <:+ before ++ [l]
      ↔ [.opening] <:+ before ∧ [.word w] = [l] :=
    List.suffix_append_inj_of_length_eq rfl
  rw [List.singleton_append, List.singleton_inj, and_comm, eq_comm] at hlast
  exact hlast

/-- Something stands in the innermost open group already, and no lambda
and no binder waits for its variable. -/
structure Inside (before : List Lexeme) : Prop where
  unbound : Unbound before
  notFirst : ¬ [.opening] <:+ before

/-- Behind a word, no group has just been opened. -/
theorem not_opening_suffix_word (before : List Lexeme) (w : List Char) :
    ¬ [.opening] <:+ before ++ [.word w] := by
  simp

theorem unbound_nil : Unbound [] := by
  simp [Unbound, HeadedBy]

/-- Behind an opening parenthesis nothing waits for a variable. -/
theorem unbound_opening (before : List Lexeme) :
    Unbound (before ++ [.opening]) := by
  simp [Unbound, headedBy_concat]

/-- Behind a closed group something stands in the group around it. -/
theorem inside_closing (before : List Lexeme) :
    Inside (before ++ [.closing]) :=
  ⟨by simp [Unbound, headedBy_concat], by simp⟩

/-- A word that is not the first of its group. -/
theorem inside_word (h : ¬ [.opening] <:+ before) (w : List Char) :
    Inside (before ++ [.word w]) :=
  ⟨by simp [Unbound, headedBy_concat, h], not_opening_suffix_word before w⟩

/-- A word that opens neither a lambda nor a binder. -/
theorem inside_head (hlambda : isLambdaWord w = false)
    (hbinder : Builtin.binderOfWord? w = none) (before : List Lexeme) :
    Inside (before ++ [.word w]) := by
  have hmarker : ¬ MarksLambda w := by simp [← isLambdaWord_iff, hlambda]
  have hname : ¬ NamesBinder w := binderOfWord?_eq_none_iff.1 hbinder
  exact ⟨by simp [Unbound, headedBy_concat, hmarker, hname],
    not_opening_suffix_word before w⟩

/-- Behind a group something stands in the group around it. -/
theorem inside_group (items : List Sexp) (before : List Lexeme) :
    Inside (before ++ (Sexp.group items).lexemes) := by
  rw [Sexp.lexemes, ← List.cons_append, ← List.append_assoc]
  exact inside_closing _

/-- After an item that is not the first of its group. -/
theorem inside_lexemes (h : ¬ [.opening] <:+ before) (s : Sexp) :
    Inside (before ++ s.lexemes) := by
  cases s with
  | word w => exact inside_word h w
  | group items => exact inside_group items before

end

end Lexeme

namespace Term

open Lexeme

-- ============================================================ one group

section

variable {text : String} {before : List Lexeme} {w wv wt : List Char}
  {v : Var} {body : Term} {args : List Term}

/-- A word by itself is walked as the atom that it is read as. -/
theorem mentions_word (hbefore : Unbound before) {a : Atom}
    (h : (Atom.ofWord w).result = .ok a) :
    Mentions before [.word w] (visits (.atom a)) := by
  obtain ⟨v, hv, rfl⟩ | ⟨b, hhead, -, rfl⟩ | ⟨stated, hhead, -, -, rfl⟩ :=
    Atom.ofWord_eq_ok h
  · exact .take hv hbefore (mentions_nil _)
  · exact .skip (by simp [isDollar, hhead]) (mentions_nil _)
  · exact .skip (by simp [isDollar, hhead]) (mentions_nil _)

/-- The items of a lambda. Its variable stands behind the marker, and the
type that follows keeps the body apart from both. -/
theorem mentions_lambda (hw : isLambdaWord w = true)
    (hv : Var.ofWord wv = .ok v) {type : Ty}
    (htype : Ty.parse (String.ofList wt) = .ok type) {s : Sexp}
    (hbody : ∀ {before}, Unbound before → Mentions before s.lexemes body.visits) :
    Mentions (before ++ [.opening])
      (Sexp.lexemesAll [.word w, .word wv, .word wt, s])
      (visits (.lambda v type body)) := by
  have hmarker := isLambdaWord_iff.1 hw
  have hhead : HeadedBy MarksLambda (before ++ [.opening] ++ [.word w]) :=
    headedBy_concat.2 ⟨w, hmarker, rfl, by simp⟩
  -- the word for the type is not the first of the group, so behind it the
  -- body stands as any other item
  have hwt : Inside (before ++ [.opening] ++ [.word w] ++ [.word wv] ++ [.word wt]) :=
    inside_word (not_opening_suffix_word _ wv) wt
  refine .skip (by simp [isDollar, hmarker.head?]) (.take hv ⟨hhead, wt, _, rfl, htype⟩
    (.skip (by simp [isDollar, Ty.head?_of_parse htype]) ?_))
  show Mentions _ (s.lexemes ++ []) body.visits
  rw [List.append_nil]
  exact hbody hwt.unbound

/-- The items of a binder, with a variable behind its name. -/
theorem mentions_binder {op : Builtin} (hop : Builtin.binderOfWord? w = some op)
    (hv : Var.ofWord wv = .ok v) {ss : List Sexp}
    (hargs : ∀ {before}, Inside before →
      Mentions before (Sexp.lexemesAll ss) (visitsAll args)) :
    Mentions (before ++ [.opening])
      (Sexp.lexemesAll (.word w :: .word wv :: ss))
      (visits (.binder op v args)) := by
  obtain ⟨hbinds, rfl⟩ := Builtin.binderOfWord?_eq_some_iff.1 hop
  have hhead : HeadedBy NamesBinder
      (before ++ [.opening] ++ [.word op.name.toList]) :=
    headedBy_concat.2 ⟨_, ⟨op, hbinds, rfl⟩, rfl, by simp⟩
  exact .skip (by simp [isDollar, op.head?_name])
    (.take hv hhead (hargs (inside_word (not_opening_suffix_word _ _) wv)))

/-- The items of a group behind the first of an application. -/
theorem mentions_items {ss : List Sexp}
    (hss : ∀ s ∈ ss, ∀ {before t}, Unbound before →
      (ofSexp text s).result = .ok t → Mentions before s.lexemes t.visits) :
    ∀ {before ts}, Inside before → (ofSexps text ss).result = .ok ts →
      Mentions before (Sexp.lexemesAll ss) (visitsAll ts) := by
  induction ss with
  | nil =>
      intro before ts _ h
      cases h
      exact mentions_nil _
  | cons s ss ih =>
      intro before ts hbefore h
      obtain ⟨hs, hss⟩ := List.forall_mem_cons.1 hss
      obtain ⟨t, ht, h⟩ := Traced.result_bind_eq_ok h
      obtain ⟨us, hus, h⟩ := Traced.result_bind_eq_ok h
      cases h
      exact (hs hbefore.unbound ht).append
        (ih hss (inside_lexemes hbefore.notFirst s) hus)

end

-- ============================================================ whole texts

/-- The lexemes of an s-expression mention what occurs in the term that it
is read as, wherever no lambda and no binder waits for its variable. -/
theorem mentions_lexemes {text : String} {s : Sexp} :
    ∀ {before t}, Unbound before → (ofSexp text s).result = .ok t →
      Mentions before s.lexemes t.visits := by
  induction s with
  | word w =>
      intro before t hbefore h
      obtain ⟨a, ha, rfl⟩ := Traced.result_map_eq_ok h
      exact mentions_word hbefore ha
  | group items ih =>
      intro before t _ h
      -- inside the group only what stands behind its parenthesis counts
      have hopened := unbound_opening before
      refine .skip rfl (.closed ?_)
      cases items with
      | nil => cases h
      | cons s rest =>
          obtain ⟨hhead, htail⟩ := List.forall_mem_cons.1 ih
          cases s with
          | group inner =>
              obtain ⟨head, hh, h⟩ := Traced.result_bind_eq_ok h
              obtain ⟨args, hargs, h⟩ := Traced.result_bind_eq_ok h
              cases h
              exact (hhead hopened hh).append
                (mentions_items htail (inside_group inner _) hargs)
          | word w =>
              obtain ⟨wv, wt, s, v, type, body, hw, rfl, hv, htype, hbody, rfl⟩
                | ⟨op, wv, ss, v, args, hop, rfl, hv, hargs, rfl⟩
                | ⟨a, args, hlambda, hbinder, ha, hargs, rfl⟩ :=
                  ofSexp_word_eq_ok h
              · have hmem : s ∈ [Sexp.word wv, .word wt, s] := by simp
                exact mentions_lambda hw hv htype
                  fun hbefore => htail s hmem hbefore hbody
              · have hargument := (List.forall_mem_cons.1 htail).2
                exact mentions_binder hop hv
                  fun hbefore => mentions_items hargument hbefore hargs
              · exact (mentions_word hopened ha).append
                  (mentions_items htail (inside_head hlambda hbinder _) hargs)

/-- The words with a dollar sign in a text mention the occurrences of the
term that it writes and no other sequence: one occurrence for each word,
from left to right. A word is the index of its variable behind the dollar
sign and any number of zeros. It introduces the variable of a lambda
exactly if it follows a marker that opens a group, and then the next word
is the stated type; it introduces the variable of a binder exactly if it
follows the name of one that opens a group; otherwise it is an atom. -/
theorem visits_follow_the_text {text : String} {t : Term}
    (h : (parse text).result = .ok t) :
    ∃ ls, Lexeme.Cuts text.toList ls
      ∧ ∀ os, Lexeme.Mentions [] ls os ↔ os = t.visits := by
  unfold parse at h
  split at h
  · rename_i s hs
    have hmentions : Mentions [] s.lexemes t.visits :=
      mentions_lexemes unbound_nil h
    refine ⟨s.lexemes, (Sexp.ofChars_eq_ok_iff.1 hs).2, fun os => ?_⟩
    constructor
    · intro hos
      exact hos.unique hmentions
    · rintro rfl
      exact hmentions
  · cases h

/-- Leading zeros, a marker and the name of a binder among arguments, and
a head that is a group. -/
theorem displaced_markers_follow_the_text :
    ∃ t, (parse "(λ $007 <e,t> ((f lambda $7) (the $0 $07 exists $00)))").result
        = .ok t
      ∧ t.visits = [⟨.lambda (.func .entity .truth), ⟨7⟩⟩, ⟨.atom, ⟨7⟩⟩,
          ⟨.binder, ⟨0⟩⟩, ⟨.atom, ⟨7⟩⟩, ⟨.atom, ⟨0⟩⟩]
      ∧ ∃ ls, Lexeme.Cuts
            "(λ $007 <e,t> ((f lambda $7) (the $0 $07 exists $00)))".toList ls
          ∧ ∀ os, Lexeme.Mentions [] ls os ↔ os = t.visits := by
  have hread : ∃ t,
      (parse "(λ $007 <e,t> ((f lambda $7) (the $0 $07 exists $00)))").result
          = .ok t
        ∧ t.visits = [⟨.lambda (.func .entity .truth), ⟨7⟩⟩, ⟨.atom, ⟨7⟩⟩,
            ⟨.binder, ⟨0⟩⟩, ⟨.atom, ⟨7⟩⟩, ⟨.atom, ⟨0⟩⟩] := by
    decide +kernel
  obtain ⟨t, h, hvisits⟩ := hread
  exact ⟨t, h, hvisits, visits_follow_the_text h⟩

end Term

end LogicalForm
