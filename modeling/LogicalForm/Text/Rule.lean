/-
Rules that read from the start of a text. A rule gives what it has read
and the rest of the text, or it refuses, with the place where it came to
a stop and the step that stopped it. Grammars are written by putting
rules together; what a grammar refuses is refused with the refusal of
one of its steps.

A rule never reads backwards: that the rest is an end of the text is
part of it. So a grammar that mentions itself only behind a character
that has been read comes to an end, and is given by unrolling it as often
as the text has characters (`Rule.fix`). `Rule.fix_eq` says that such a
grammar is its own right-hand side; it is all that is used of the
unrolling.
-/
import LogicalForm.Text.Quoted

namespace LogicalForm.Text

-- ============================================================= refusals

/-- The step that a text was refused by. -/
inductive Code where
  /-- A character other than the one that has to stand here. -/
  | char
  /-- No character that a run could start with. -/
  | takeTill1
  /-- An item of a repetition that reads nothing. -/
  | many0
  /-- Text left over where all of it had to be read. -/
  | eof
  /-- A rule that reads no text. -/
  | fail
  deriving DecidableEq, Repr

/-- The name of a step in a diagnosis. -/
def Code.name : Code → String
  | .char => "Char"
  | .takeTill1 => "TakeTill1"
  | .many0 => "Many0"
  | .eof => "Eof"
  | .fail => "Fail"

/-- A refusal: the text from the place on where reading stopped, and the
step that stopped it. -/
structure Refusal where
  input : List Char
  code : Code
  deriving DecidableEq, Repr

/-- The wording of a refusal. -/
def Refusal.message (r : Refusal) : String :=
  "Parsing Error: Error \x7b input: " ++ quoted (String.ofList r.input)
    ++ (", code: " ++ r.code.name ++ " \x7d")

/-- A refusal is worded by quoting the text and then naming the step. -/
theorem Refusal.message_eq_append (r : Refusal) {named : String}
    (h : ", code: " ++ r.code.name ++ " \x7d" = named) :
    r.message
      = "Parsing Error: Error \x7b input: " ++ quoted (String.ofList r.input)
        ++ named :=
  congrArg
    (fun tail => "Parsing Error: Error \x7b input: "
      ++ quoted (String.ofList r.input) ++ tail) h

-- ================================================================ rules

/-- A rule reads something from the start of a text. It gives what it has
read and the rest, which is an end of the text, or it refuses. -/
@[ext] structure Rule (α : Type) where
  run : List Char → Except Refusal (α × List Char)
  rest_suffix : ∀ {cs a rest}, run cs = .ok (a, rest) → rest <:+ cs

namespace Rule

variable {α β γ δ : Type}

/-- Reads nothing. -/
def pure (a : α) : Rule α where
  run cs := .ok (a, cs)
  rest_suffix h := by
    cases h
    exact List.suffix_rfl

/-- Refuses every text. -/
def fail : Rule α where
  run cs := .error ⟨cs, .fail⟩
  rest_suffix h := nomatch h

/-- Reads on behind `p` by the rule for what `p` has read. -/
def bind (p : Rule α) (f : α → Rule β) : Rule β where
  run cs :=
    match p.run cs with
    | .error e => .error e
    | .ok (a, rest) => (f a).run rest
  rest_suffix h := by
    split at h
    · cases h
    · rename_i hp
      exact ((f _).rest_suffix h).trans (p.rest_suffix hp)

/-- Reads what `p` reads and gives its image. -/
def map (f : α → β) (p : Rule α) : Rule β := p.bind fun a => pure (f a)

/-- Reads what `p` reads and gives `b`. -/
def value (b : β) (p : Rule α) : Rule β := p.map fun _ => b

/-- Reads the character `c`. -/
def char (c : Char) : Rule Char where
  run
    | [] => .error ⟨[], .char⟩
    | d :: cs => if d = c then .ok (d, cs) else .error ⟨d :: cs, .char⟩
  rest_suffix := by
    intro cs a rest h
    split at h
    · cases h
    · split at h
      · cases h
        exact List.suffix_cons ..
      · cases h

/-- Reads up to the first character that satisfies `stop`, and at least
one character. -/
def takeTill1 (stop : Char → Bool) : Rule (List Char) where
  run cs :=
    match cs.takeWhile fun c => !stop c with
    | [] => .error ⟨cs, .takeTill1⟩
    | c :: w => .ok (c :: w, cs.dropWhile fun c => !stop c)
  rest_suffix h := by
    split at h
    · cases h
    · cases h
      exact List.dropWhile_suffix _

/-- Reads the separators that the text starts with, if any. -/
def multispace0 : Rule (List Char) where
  run cs := .ok (cs.takeWhile isSeparator, cs.dropWhile isSeparator)
  rest_suffix h := by
    cases h
    exact List.dropWhile_suffix _

/-- Reads by `p` and then by `q`. -/
def pair (p : Rule α) (q : Rule β) : Rule (α × β) :=
  p.bind fun a => q.map fun b => (a, b)

/-- Reads by `p` and then by `q`, and gives what `q` reads. -/
def preceded (p : Rule α) (q : Rule β) : Rule β := p.bind fun _ => q

/-- Reads by `p`, `q` and `r`, and gives what `q` reads. -/
def delimited (p : Rule α) (q : Rule β) (r : Rule γ) : Rule β :=
  p.bind fun _ => q.bind fun b => r.map fun _ => b

/-- Reads by `p`, `separator` and `q`, and gives what `p` and `q` read. -/
def separatedPair (p : Rule α) (separator : Rule γ) (q : Rule β) :
    Rule (α × β) :=
  p.bind fun a => separator.bind fun _ => q.map fun b => (a, b)

/-- Reads by `p`, or by `q` from the same place if `p` refuses. Where both
refuse, the refusal is that of `q`. -/
def alt (p q : Rule α) : Rule α where
  run cs :=
    match p.run cs with
    | .ok r => .ok r
    | .error _ => q.run cs
  rest_suffix h := by
    split at h
    · rename_i hp
      cases h
      exact p.rest_suffix hp
    · exact q.rest_suffix h

/-- Reads by `p`, to the end of the text. -/
def allConsuming (p : Rule α) : Rule α where
  run cs :=
    match p.run cs with
    | .error e => .error e
    | .ok (a, []) => .ok (a, [])
    | .ok (_, c :: rest) => .error ⟨c :: rest, .eof⟩
  rest_suffix h := by
    split at h
    · cases h
    · rename_i hp
      cases h
      exact p.rest_suffix hp
    · cases h

/-- Reads all of a text by `p`, separators around it allowed. -/
def whole (p : Rule α) : Rule α :=
  allConsuming (delimited multispace0 p multispace0)

-- ============================================================ recursion

/-- The rule that `F` describes in terms of itself, called once more than
`fuel` has characters at most. It is unrolled while it is run, and so only
as far as the text needs it. -/
def unrolled (F : Rule α → Rule α) : List Char → Rule α
  | [] => F fail
  | _ :: fuel =>
    { run := fun cs => (F (unrolled F fuel)).run cs
      rest_suffix := fun h => (F (unrolled F fuel)).rest_suffix h }

/-- The rule that `F` describes in terms of itself. A text is read no
deeper than it is long. -/
def fix (F : Rule α → Rule α) : Rule α where
  run cs := (unrolled F cs).run cs
  rest_suffix h := (unrolled F _).rest_suffix h

/-- One item and the rest of a repetition, which is read by `self`. The
repetition ends where no item can be read. -/
def item (p : Rule α) (self : Rule (List α)) : Rule (List α) where
  run cs :=
    match p.run cs with
    | .error _ => .ok ([], cs)
    | .ok (a, rest) =>
      if rest == cs then .error ⟨cs, .many0⟩
      else (self.map fun as => a :: as).run rest
  rest_suffix h := by
    split at h
    · cases h
      exact List.suffix_rfl
    · rename_i hp
      split at h
      · cases h
      · exact (rest_suffix _ h).trans (p.rest_suffix hp)

/-- Reads as many items as there are, none included. An item that reads
nothing is refused. -/
def many0 (p : Rule α) : Rule (List α) := fix (item p)

-- ======================================================== what rules read

variable {p p' q q' : Rule α} {f f' : α → Rule β} {F : Rule α → Rule α}
  {cs rest : List Char} {n : Nat}

@[simp] theorem run_pure (a : α) (cs : List Char) :
    (pure a).run cs = .ok (a, cs) := rfl

@[simp] theorem run_bind (p : Rule α) (f : α → Rule β) (cs : List Char) :
    (p.bind f).run cs
      = match p.run cs with
        | .error e => .error e
        | .ok (a, rest) => (f a).run rest := rfl

@[simp] theorem run_map (g : α → β) (p : Rule α) (cs : List Char) :
    (p.map g).run cs
      = match p.run cs with
        | .error e => .error e
        | .ok (a, rest) => .ok (g a, rest) := rfl

/-- An alternative that fails leaves no trace: the other one starts at the
same place, and its error is the one that is reported. -/
@[simp] theorem run_alt (p q : Rule α) (cs : List Char) :
    (p.alt q).run cs
      = match p.run cs with
        | .ok r => .ok r
        | .error _ => q.run cs := rfl

@[simp] theorem run_char_cons (c d : Char) (cs : List Char) :
    (char c).run (d :: cs)
      = if d = c then .ok (d, cs) else .error ⟨d :: cs, .char⟩ := rfl

@[simp] theorem run_multispace0 (cs : List Char) :
    multispace0.run cs
      = .ok (cs.takeWhile isSeparator, cs.dropWhile isSeparator) := rfl

/-- A sequence succeeds if its parts do, each from where the one before
stopped. -/
theorem run_bind_eq_ok {b : β} :
    (p.bind f).run cs = .ok (b, rest)
      ↔ ∃ a mid, p.run cs = .ok (a, mid) ∧ (f a).run mid = .ok (b, rest) := by
  simp only [bind]
  cases p.run cs with
  | error e => simp
  | ok r => simp [Prod.ext_iff, and_assoc]

theorem run_map_eq_ok {g : α → β} {b : β} :
    (p.map g).run cs = .ok (b, rest)
      ↔ ∃ a, p.run cs = .ok (a, rest) ∧ g a = b := by
  simp only [map, run_bind_eq_ok, pure, Except.ok.injEq, Prod.mk.injEq]
  constructor
  · rintro ⟨a, mid, h, rfl, rfl⟩
    exact ⟨a, h, rfl⟩
  · rintro ⟨a, h, rfl⟩
    exact ⟨a, rest, h, rfl, rfl⟩

theorem run_char_eq_ok {c d : Char} :
    (char c).run cs = .ok (d, rest) ↔ cs = c :: rest ∧ d = c := by
  cases cs with
  | nil => simp [char]
  | cons e cs =>
      by_cases he : e = c
      · simp [char, he, and_comm, eq_comm]
      · simp [char, he]

/-- A run is read to its end. -/
theorem run_takeTill1_append {stop : Char → Bool} {w : List Char}
    (hne : w ≠ []) (hw : ∀ c ∈ w, stop c = false)
    (hrest : ∀ c ∈ rest.head?, stop c = true) :
    (takeTill1 stop).run (w ++ rest) = .ok (w, rest) := by
  have hw' : ∀ c ∈ w, (!stop c) = true := fun c hc => by rw [hw c hc]; rfl
  have htake : (w ++ rest).takeWhile (fun c => !stop c) = w := by
    rw [List.takeWhile_append_of_pos hw']
    cases rest with
    | nil => exact List.append_nil w
    | cons c rest => simp [hrest c rfl]
  have hdrop : (w ++ rest).dropWhile (fun c => !stop c) = rest := by
    rw [List.dropWhile_append_of_pos hw']
    cases rest with
    | nil => rfl
    | cons c rest => simp [hrest c rfl]
  obtain ⟨c, v, rfl⟩ := List.exists_cons_of_ne_nil hne
  simp only [takeTill1, htake, hdrop]

/-- A run that would be empty is refused. -/
theorem run_takeTill1_of_stop {stop : Char → Bool}
    (h : ∀ c ∈ cs.head?, stop c = true) :
    (takeTill1 stop).run cs = .error ⟨cs, .takeTill1⟩ := by
  cases cs with
  | nil => rfl
  | cons c cs => simp [takeTill1, h c rfl]

/-- A choice refuses a text with the refusal of its second rule, whatever
the first one refused it for. -/
theorem run_alt_eq_error {e : Refusal} (h : (alt p q).run cs = .error e) :
    q.run cs = .error e := by
  simp only [alt] at h
  split at h
  · cases h
  · exact h

/-- Read as a whole, a text may have separators around what the rule accepts
and nothing else. -/
theorem run_whole (p : Rule α) (cs : List Char) :
    (whole p).run cs
      = match p.run (cs.dropWhile isSeparator) with
        | .error e => .error e
        | .ok (a, rest) =>
          match rest.dropWhile isSeparator with
          | [] => .ok (a, [])
          | c :: cs => .error ⟨c :: cs, .eof⟩ := by
  simp only [whole, allConsuming, delimited, bind, map, pure, multispace0]
  cases p.run (cs.dropWhile isSeparator) with
  | error e => rfl
  | ok r =>
      simp only
      cases r.2.dropWhile isSeparator <;> rfl

-- ============================================================ unrolling

/-- The two rules read all texts of fewer than `n` characters alike. -/
def AgreeBelow (n : Nat) (p q : Rule α) : Prop :=
  ∀ cs, cs.length < n → p.run cs = q.run cs

/-- The rule reads at least one character. -/
def Consuming (p : Rule α) : Prop :=
  ∀ {cs a rest}, p.run cs = .ok (a, rest) → rest.length < cs.length

/-- What `F` describes on a text rests on what its argument reads from
shorter texts alone. -/
def Guarded (F : Rule α → Rule α) : Prop :=
  ∀ {n p q}, AgreeBelow n p q → AgreeBelow (n + 1) (F p) (F q)

theorem AgreeBelow.refl (n : Nat) (p : Rule α) : AgreeBelow n p p :=
  fun _ _ => rfl

theorem AgreeBelow.zero (p q : Rule α) : AgreeBelow 0 p q :=
  fun cs hcs => absurd hcs (Nat.not_lt_zero cs.length)

/-- Sequences agree as far as both of their parts agree. -/
theorem AgreeBelow.bind (hp : AgreeBelow n p p')
    (hf : ∀ a, AgreeBelow n (f a) (f' a)) :
    AgreeBelow n (p.bind f) (p'.bind f') := by
  intro cs hcs
  simp only [Rule.bind, hp cs hcs]
  cases h : p'.run cs with
  | error e => rfl
  | ok r => exact hf r.1 r.2 (Nat.lt_of_le_of_lt (p'.rest_suffix h).length_le hcs)

/-- Behind a character that has been read, agreement on shorter texts is
enough. -/
theorem AgreeBelow.bind_consuming (hp : Consuming p)
    (hf : ∀ a, AgreeBelow n (f a) (f' a)) :
    AgreeBelow (n + 1) (p.bind f) (p.bind f') := by
  intro cs hcs
  simp only [Rule.bind]
  cases h : p.run cs with
  | error e => rfl
  | ok r => exact hf r.1 r.2 (Nat.lt_of_lt_of_le (hp h) (Nat.le_of_lt_succ hcs))

theorem AgreeBelow.map (hp : AgreeBelow n p p') (g : α → β) :
    AgreeBelow n (p.map g) (p'.map g) :=
  hp.bind fun _ => refl n _

theorem AgreeBelow.alt (hp : AgreeBelow n p p') (hq : AgreeBelow n q q') :
    AgreeBelow n (p.alt q) (p'.alt q') := by
  intro cs hcs
  simp only [Rule.alt, hp cs hcs, hq cs hcs]

theorem consuming_char (c : Char) : Consuming (char c) := by
  intro cs a rest h
  rw [(run_char_eq_ok.1 h).1]
  exact Nat.lt_succ_self _

/-- A sequence moves on if its first part does. -/
theorem consuming_bind (hp : Consuming p) (f : α → Rule β) :
    Consuming (p.bind f) := by
  intro cs b rest h
  obtain ⟨a, mid, hmid, hrest⟩ := run_bind_eq_ok.1 h
  exact Nat.lt_of_le_of_lt ((f a).rest_suffix hrest).length_le (hp hmid)

/-- Unrolling deeper changes nothing for texts that are short enough. -/
theorem unrolled_agree (hF : Guarded F) :
    ∀ {fuel more : List Char}, fuel.length ≤ more.length →
      AgreeBelow (fuel.length + 1) (unrolled F fuel) (unrolled F more) := by
  intro fuel
  induction fuel with
  | nil =>
      intro more _
      cases more with
      | nil => exact .refl _ _
      | cons c more => exact hF (.zero _ _)
  | cons c fuel ih =>
      intro more hle
      cases more with
      | nil => cases hle
      | cons d more => exact hF (ih (Nat.le_of_succ_le_succ hle))

/-- A guarded grammar is its own right-hand side. -/
theorem fix_eq (hF : Guarded F) : fix F = F (fix F) := by
  ext1
  funext cs
  cases cs with
  | nil => exact hF (.zero fail (fix F)) [] Nat.zero_lt_one
  | cons c cs =>
      have hfix : AgreeBelow (cs.length + 1) (unrolled F cs) (fix F) := by
        intro ds hds
        have hle : ds.length ≤ cs.length := Nat.le_of_lt_succ hds
        exact (unrolled_agree hF hle ds (Nat.lt_succ_self _)).symm
      exact hF hfix (c :: cs) (Nat.lt_succ_self _)

-- ============================================================ repetition

/-- A repetition rests on the item at its start and on what is read from
shorter texts behind it: an item that read nothing would be refused. -/
theorem run_item_congr {self self' : Rule (List α)}
    (hp : p.run cs = p'.run cs)
    (hself : ∀ rest, rest.length < cs.length → self.run rest = self'.run rest) :
    (item p self).run cs = (item p' self').run cs := by
  simp only [item, hp]
  cases h : p'.run cs with
  | error e => rfl
  | ok r =>
      obtain ⟨a, rest⟩ := r
      simp only [beq_iff_eq]
      by_cases hrest : rest = cs
      · simp only [if_pos hrest]
      · have hsuffix : rest <:+ cs := p'.rest_suffix h
        have hlt : rest.length < cs.length :=
          Nat.lt_of_le_of_ne hsuffix.length_le fun hlen =>
            hrest (hsuffix.eq_of_length hlen)
        simp only [if_neg hrest, run_map, hself rest hlt]

/-- In a repetition the recursion comes after an item that has moved on. -/
theorem guarded_item (p : Rule α) : Guarded (item p) := by
  intro n self self' h cs hcs
  exact run_item_congr rfl fun rest hlt => h rest (by omega)

/-- A repetition is an item and the repetition again. -/
theorem run_many0 (p : Rule α) (cs : List Char) :
    (many0 p).run cs = (item p (many0 p)).run cs := by
  rw [many0, ← fix_eq (guarded_item p)]

/-- A repetition ends where no item can be read. -/
theorem run_many0_of_error {e : Refusal} (h : p.run cs = .error e) :
    (many0 p).run cs = .ok ([], cs) := by
  rw [run_many0]
  simp only [item, h]

/-- A repetition goes on behind an item that has read something. -/
theorem run_many0_of_ok {a : α} {as : List α} {mid : List Char}
    (h : p.run cs = .ok (a, mid)) (hne : mid ≠ cs)
    (has : (many0 p).run mid = .ok (as, rest)) :
    (many0 p).run cs = .ok (a :: as, rest) := by
  rw [run_many0]
  simp only [item, h, beq_iff_eq, if_neg hne, run_map, has]

/-- Repetitions of rules that agree on short texts agree on them. -/
theorem AgreeBelow.many0 (h : AgreeBelow n p p') :
    AgreeBelow n (many0 p) (many0 p') := by
  intro cs hcs
  induction hk : cs.length using Nat.strongRecOn generalizing cs with
  | _ k ih =>
      rw [run_many0, run_many0]
      refine run_item_congr (h cs hcs) fun rest hlt => ?_
      exact ih _ (hk ▸ hlt) rest (Nat.lt_trans hlt hcs) rfl

/-- What a repetition reads is nothing where no item can be read, or an
item and what the repetition reads behind it. -/
theorem many0_induction {P : List Char → List α → List Char → Prop}
    (stop : ∀ cs, P cs [] cs)
    (more : ∀ cs a mid as rest, p.run cs = .ok (a, mid) → P mid as rest →
      P cs (a :: as) rest)
    {as : List α} (h : (many0 p).run cs = .ok (as, rest)) : P cs as rest := by
  induction as generalizing cs with
  | nil =>
      rw [run_many0] at h
      simp only [item] at h
      split at h
      · cases h
        exact stop _
      · split at h
        · cases h
        · obtain ⟨bs, -, hcons⟩ := run_map_eq_ok.1 h
          cases hcons
  | cons a as ih =>
      rw [run_many0] at h
      simp only [item] at h
      split at h
      · cases h
      · rename_i hp
        split at h
        · cases h
        · obtain ⟨bs, hbs, heq⟩ := run_map_eq_ok.1 h
          cases heq
          exact more _ _ _ _ _ hp (ih hbs)

end Rule

end LogicalForm.Text
