/-
The cuts of a line, described by what they leave. The fields of a text are
told by their look: each is a run without blanks, each but the last is
followed by a blank, and blanks may stand in front and behind
(`Text.HasFields`). Every text has fields, by induction on its characters
from the right, and the cut at every blank finds them
(`Text.hasFields_iff`).

Trimming finds the part between the blanks at both ends
(`Text.trim_eq`, `Text.exists_trim`).
-/
import LogicalForm.Text.Blank
import Mathlib.Data.List.TakeWhile

namespace LogicalForm

namespace Text

variable {cs f lead trail mid : List Char} {fs : List (List Char)}

-- ================================================================ blanks

/-- Something, and no blank in it. -/
def Solid (cs : List Char) : Prop := cs ≠ [] ∧ ∀ c ∈ cs, isBlank c = false

/-- Neither the first nor the last character is a blank. -/
structure Trimmed (cs : List Char) : Prop where
  first : ∀ c ∈ cs.head?, isBlank c = false
  last : ∀ c ∈ cs.getLast?, isBlank c = false

-- ================================================================ fields

/-- The text consists of the fields, with blanks between them and maybe
around them. -/
inductive HasFields : List Char → List (List Char) → Prop where
  | nil {cs : List Char} (hcs : Blank cs) : HasFields cs []
  | cons {lead f rest : List Char} {fs : List (List Char)} (hlead : Blank lead)
    (hf : Solid f) (hend : ∀ c ∈ rest.head?, isBlank c = true)
    (hrest : HasFields rest fs) : HasFields (lead ++ (f ++ rest)) (f :: fs)

/-- Without a separating character, a text is one segment. -/
theorem segments_of_forall_not {p : Char → Bool} (h : ∀ c ∈ cs, p c = false) :
    segments p cs = [cs] := by
  induction cs with
  | nil => rfl
  | cons c cs ih =>
      obtain ⟨hc, hcs⟩ := List.forall_mem_cons.1 h
      rw [segments, ih hcs, hc]
      rfl

/-- A blank at the start makes no difference. -/
theorem fields_cons_blank {c : Char} (hc : isBlank c = true) :
    fields (c :: cs) = fields cs :=
  fields_append_blank hc [] cs

theorem fields_blank_append (hlead : Blank lead) :
    fields (lead ++ cs) = fields cs := by
  induction lead with
  | nil => rfl
  | cons c lead ih =>
      obtain ⟨hc, hlead⟩ := List.forall_mem_cons.1 hlead
      rw [List.cons_append, fields_cons_blank hc, ih hlead]

/-- Blanks alone have no fields. -/
theorem fields_of_blank (hcs : Blank cs) : fields cs = [] := by
  have h : fields (cs ++ []) = fields [] := fields_blank_append hcs
  rw [List.append_nil] at h
  exact h

/-- A text without blanks is its own only field. -/
theorem fields_of_solid (hf : Solid f) : fields f = [f] := by
  unfold fields
  rw [segments_of_forall_not hf.2]
  simp [hf.1]

/-- A field ends where the text does or a blank follows. -/
theorem fields_solid_append (hf : Solid f)
    (hend : ∀ c ∈ cs.head?, isBlank c = true) :
    fields (f ++ cs) = f :: fields cs := by
  cases cs with
  | nil =>
      rw [List.append_nil, fields_of_solid hf]
      rfl
  | cons c cs =>
      have hc : isBlank c = true := hend c rfl
      rw [fields_append_blank hc, fields_of_solid hf, fields_cons_blank hc]
      rfl

/-- The fields that a text consists of are the ones that it is split into.
-/
theorem HasFields.fields_eq (h : HasFields cs fs) : fields cs = fs := by
  induction h with
  | nil hcs => exact fields_of_blank hcs
  | cons hlead hf hend _ ih =>
      rw [fields_blank_append hlead, fields_solid_append hf hend, ih]

/-- Every text has fields: a character in front of them is a blank around
them, a field of its own, or one more character of the first field. -/
theorem exists_hasFields (cs : List Char) : ∃ fs, HasFields cs fs := by
  induction cs with
  | nil => exact ⟨[], .nil (List.forall_mem_nil _)⟩
  | cons c cs ih =>
      obtain ⟨fs, h⟩ := ih
      cases hc : isBlank c with
      | true =>
          cases h with
          | nil hcs => exact ⟨[], .nil (List.forall_mem_cons.2 ⟨hc, hcs⟩)⟩
          | cons hlead hf hend hrest =>
              exact ⟨_, .cons (List.forall_mem_cons.2 ⟨hc, hlead⟩) hf hend hrest⟩
      | false =>
          have hnil : Blank [] := List.forall_mem_nil _
          by_cases hend : ∀ d ∈ cs.head?, isBlank d = true
          · have hsolid : Solid [c] := ⟨List.cons_ne_nil c [], by simpa using hc⟩
            exact ⟨_, .cons hnil hsolid hend h⟩
          · cases h with
            | nil hcs =>
                exact absurd (fun d hd => hcs d (List.mem_of_mem_head? hd)) hend
            | @cons lead f rest fs hlead hf hend' hrest =>
                cases lead with
                | nil =>
                    have hsolid : Solid (c :: f) :=
                      ⟨List.cons_ne_nil c f, List.forall_mem_cons.2 ⟨hc, hf.2⟩⟩
                    exact ⟨_, .cons hnil hsolid hend' hrest⟩
                | cons d lead =>
                    refine absurd (fun e he => ?_) hend
                    cases he
                    exact hlead d (List.mem_cons_self ..)

/-- The split of a text into fields is described in full by what the text
consists of. -/
theorem hasFields_iff : HasFields cs fs ↔ fields cs = fs := by
  constructor
  · exact HasFields.fields_eq
  · rintro rfl
    obtain ⟨fs, h⟩ := exists_hasFields cs
    rw [h.fields_eq]
    exact h

-- ============================================================== trimming

/-- Dropping blanks stops where something else starts. -/
theorem dropWhile_blank_append (hlead : Blank lead)
    (hcs : ∀ c ∈ cs.head?, isBlank c = false) :
    (lead ++ cs).dropWhile isBlank = cs := by
  rw [List.dropWhile_append_of_pos hlead]
  cases cs with
  | nil => rfl
  | cons c cs =>
      have hc : isBlank c = false := hcs c rfl
      exact List.dropWhile_cons_of_neg (by simp [hc])

/-- What stands between blanks at both ends is what trimming leaves. -/
theorem trim_eq (hlead : Blank lead) (htrail : Blank trail)
    (hmid : Trimmed mid) : trim (lead ++ (mid ++ trail)) = mid := by
  unfold trim
  cases mid with
  | nil =>
      have hblank : Blank (lead ++ ([] ++ trail)) :=
        List.forall_mem_append.2 ⟨hlead, htrail⟩
      rw [List.dropWhile_eq_nil_iff.2 hblank]
      rfl
  | cons m ms =>
      have hfront : ∀ c ∈ ((m :: ms) ++ trail).head?, isBlank c = false :=
        fun c hc => hmid.first c hc
      have hback : ∀ c ∈ (m :: ms).reverse.head?, isBlank c = false := by
        rw [List.head?_reverse]
        exact hmid.last
      have hreverse : Blank trail.reverse :=
        fun c hc => htrail c (List.mem_reverse.1 hc)
      rw [dropWhile_blank_append hlead hfront, List.reverse_append,
        dropWhile_blank_append hreverse hback, List.reverse_reverse]

/-- Every text is its trimmed part between blanks. -/
theorem exists_trim (cs : List Char) :
    ∃ lead trail, cs = lead ++ (trim cs ++ trail) ∧ Blank lead ∧ Blank trail
      ∧ Trimmed (trim cs) := by
  obtain ⟨trail, htrail, hcut⟩ :
      ∃ trail, Blank trail ∧ cs.dropWhile isBlank = trim cs ++ trail := by
    refine ⟨((cs.dropWhile isBlank).reverse.takeWhile isBlank).reverse,
      fun c hc => List.mem_takeWhile_imp (List.mem_reverse.1 hc), ?_⟩
    unfold trim
    rw [← List.reverse_append, List.takeWhile_append_dropWhile,
      List.reverse_reverse]
  refine ⟨cs.takeWhile isBlank, trail, ?_, fun c hc => List.mem_takeWhile_imp hc,
    htrail, fun c hc => ?_, fun c hc => ?_⟩
  · rw [← hcut, List.takeWhile_append_dropWhile]
  · have hfront : c ∈ (cs.dropWhile isBlank).head? := by
      rw [hcut, List.head?_append, hc]
      rfl
    exact not_of_head?_dropWhile hfront
  · unfold trim at hc
    rw [List.getLast?_reverse] at hc
    exact not_of_head?_dropWhile hc

/-- A trimmed text with something in it has a field. -/
theorem HasFields.ne_nil (h : HasFields cs fs) (hcs : Trimmed cs)
    (hne : cs ≠ []) : fs ≠ [] := by
  rintro rfl
  cases h with
  | nil hblank =>
      cases cs with
      | nil => exact hne rfl
      | cons c cs =>
          have hnot : isBlank c = false := hcs.first c rfl
          rw [hblank c (List.mem_cons_self ..)] at hnot
          cases hnot

end Text

end LogicalForm
