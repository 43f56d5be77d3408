/-
Signatures, line by line and as a whole.

# One line

A line is described from the outside: it is a content with blanks around
it, up to a comment (`Signature.IsContent`), and the content has fields.
Two fields are a name and the notation of a type. Which names stand for
variables is said by their spelling (`Signature.Names`); the value of the
digits decides, so leading zeros do no harm and an index that is too large
makes the name that of a symbol. What the line states is then read off
the number of its fields (`Context.ofSignature_line`).

# All lines

Reading puts the entry of a line into the context that it has so far, and
the entry wins over what this says of the same name. Put into a context
that is merged with another, it may as well be put in first
(`Signature.Entry.addTo_merge`): so lines that are read into a context
state what they state by themselves, completed by that context
(`Signature.addLines_merge`). With the cut at line feeds this makes a
signature of two texts the merge of the signatures of both
(`Context.ofSignature_append`).
-/
import LogicalForm.Context.Signature
import LogicalForm.Proofs.Fields

namespace LogicalForm

namespace Signature

open Text

variable {line mid name : List Char} {v : Var}

-- ================================================================= lines

/-- The line is `mid` with blanks around it, up to a comment. -/
def IsContent (line mid : List Char) : Prop :=
  ∃ lead trail comment, line = lead ++ (mid ++ trail) ++ comment
    ∧ Blank lead ∧ Blank trail ∧ Trimmed mid
    ∧ '#' ∉ lead ++ (mid ++ trail) ∧ ∀ c ∈ comment.head?, c = '#'

/-- The content of a line is what stands between blanks before the comment.
-/
theorem isContent_iff : IsContent line mid ↔ content line = mid := by
  constructor
  · intro h
    obtain ⟨lead, trail, comment, rfl, hlead, htrail, hmid, hbefore, hcomment⟩ := h
    have hbefore' : ∀ c ∈ lead ++ (mid ++ trail), (c != '#') = true := by
      intro c hc
      exact bne_iff_ne.2 fun e => hbefore (e ▸ hc)
    have hopen : comment.takeWhile (· != '#') = [] := by
      cases comment with
      | nil => rfl
      | cons c cs =>
          rw [hcomment c rfl]
          rfl
    unfold content
    rw [List.takeWhile_append_of_pos hbefore', hopen, List.append_nil,
      trim_eq hlead htrail hmid]
  · rintro rfl
    obtain ⟨lead, trail, hcut, hlead, htrail, hmid⟩ :=
      exists_trim (line.takeWhile (· != '#'))
    refine ⟨lead, trail, line.dropWhile (· != '#'), ?_, hlead, htrail, hmid, ?_, ?_⟩
    · unfold content
      rw [← hcut, List.takeWhile_append_dropWhile]
    · intro h
      unfold content at h
      rw [← hcut] at h
      simpa using List.mem_takeWhile_imp h
    · intro c hc
      simpa using not_of_head?_dropWhile hc

/-- The content of a line has no blanks around it. -/
theorem IsContent.trimmed (h : IsContent line mid) : Trimmed mid := by
  obtain ⟨lead, trail, comment, -, -, -, hmid, -, -⟩ := h
  exact hmid

/-- The name is a dollar sign, a plus sign or none, and one or more ASCII
digits that spell the index of the variable. -/
def Names (name : List Char) (v : Var) : Prop :=
  ∃ sign ds, name = '$' :: (sign ++ ds) ∧ (sign = [] ∨ sign = ['+'])
    ∧ ds ≠ [] ∧ (∀ d ∈ ds, d.isDigit = true)
    ∧ v.index = Nat.ofDigitChars 10 ds 0 ∧ v.index ≤ 4294967295

/-- Digits spell an index if there are some, and if their value is no larger
than the largest index. -/
theorem index?_eq_some_iff {ds : List Char} :
    varOfName?.index? ds = some v
      ↔ ds ≠ [] ∧ (∀ d ∈ ds, d.isDigit = true)
        ∧ v.index = Nat.ofDigitChars 10 ds 0 ∧ v.index ≤ 4294967295 := by
  unfold varOfName?.index?
  rw [Option.map_eq_some_iff]
  constructor
  · intro h
    obtain ⟨n, hn, rfl⟩ := h
    obtain ⟨hdecimal, hle⟩ := Option.filter_eq_some_iff.1 hn
    obtain ⟨hne, hall, hvalue⟩ := decimal?_eq_some_iff.1 hdecimal
    exact ⟨hne, hall, hvalue, of_decide_eq_true hle⟩
  · intro h
    obtain ⟨hne, hall, hvalue, hle⟩ := h
    refine ⟨v.index, Option.filter_eq_some_iff.2 ⟨?_, decide_eq_true hle⟩, rfl⟩
    exact decimal?_eq_some_iff.2 ⟨hne, hall, hvalue⟩

/-- Only a plus sign may stand between the dollar sign and the digits. -/
theorem varOfName?_of_ne_plus {c : Char} (hc : c ≠ '+') (cs : List Char) :
    varOfName? ('$' :: c :: cs) = varOfName?.index? (c :: cs) := by
  unfold varOfName?
  split
  · rename_i heq
    cases heq
    exact absurd rfl hc
  · rename_i heq
    cases heq
    rfl
  · rename_i hnone
    exact absurd rfl (hnone _)

/-- A name is read as a variable exactly if it names one. -/
theorem varOfName?_eq_some_iff : varOfName? name = some v ↔ Names name v := by
  constructor
  · intro h
    unfold varOfName? at h
    split at h
    · rename_i ds
      exact ⟨['+'], ds, rfl, .inr rfl, index?_eq_some_iff.1 h⟩
    · rename_i ds _
      exact ⟨[], ds, rfl, .inl rfl, index?_eq_some_iff.1 h⟩
    · cases h
  · intro h
    obtain ⟨sign, ds, rfl, rfl | rfl, hds⟩ := h
    · cases ds with
      | nil => exact absurd rfl hds.1
      | cons d ds =>
          have hd : d.isDigit = true := hds.2.1 d (List.mem_cons_self ..)
          have hplus : d ≠ '+' := by
            rintro rfl
            cases hd
          rw [List.nil_append, varOfName?_of_ne_plus hplus]
          exact index?_eq_some_iff.2 hds
    · exact index?_eq_some_iff.2 hds

-- ========================================================= concatenation

/-- What a further entry states comes on top, whatever else is merged. -/
theorem Entry.addTo_merge (entry : Entry) (c d : Context) :
    entry.addTo (d.merge c) = (entry.addTo d).merge c := by
  cases entry with
  | var v type =>
      refine Context.ext_lookups (fun w => ?_) fun name => ?_
      · simp only [Entry.addTo, Context.var?_insertVar, Context.var?_merge]
        split <;> rfl
      · simp only [Entry.addTo, Context.symbol?_insertVar, Context.symbol?_merge]
  | symbol name type =>
      refine Context.ext_lookups (fun w => ?_) fun other => ?_
      · simp only [Entry.addTo, Context.var?_insertSymbol, Context.var?_merge]
      · simp only [Entry.addTo, Context.symbol?_insertSymbol, Context.symbol?_merge]
        split <;> rfl

/-- A line of a signature does to a merged context what it does to the left
one. -/
theorem addLine_merge (line : List Char) (c d : Context) :
    addLine (d.merge c) line = (addLine d line).map fun e => e.merge c := by
  unfold addLine
  cases entry? line with
  | error fault => rfl
  | ok entry =>
      cases entry with
      | none => rfl
      | some entry => exact congrArg Except.ok (entry.addTo_merge c d)

/-- The lines of a signature do to a merged context what they do to the left
one. -/
theorem addLines_merge (lines : List (List Char)) (c d : Context) :
    lines.foldlM addLine (d.merge c)
      = (lines.foldlM addLine d).map fun e => e.merge c := by
  induction lines generalizing d with
  | nil => rfl
  | cons line lines ih =>
      rw [List.foldlM_cons, List.foldlM_cons, addLine_merge]
      cases addLine d line with
      | error fault => rfl
      | ok e => exact ih e

end Signature

namespace Context

theorem empty_merge (c : Context) : empty.merge c = c := by
  refine ext_lookups (fun v => ?_) fun name => ?_
  · rw [var?_merge]
    rfl
  · rw [symbol?_merge]
    rfl

/-- The lines behind a line feed complete what those before it state, and
replace it where both speak of the same name. -/
theorem ofSignature_append (s t : String) :
    ofSignature (s ++ "\n" ++ t)
      = match ofSignature s with
        | .error fault => .error fault
        | .ok c => (ofSignature t).map fun d => d.merge c := by
  have hlines : Text.lines (s ++ "\n" ++ t).toList
      = Text.lines s.toList ++ Text.lines t.toList := by
    rw [← Text.lines_append_lineFeed]
    simp
  unfold ofSignature
  rw [hlines, List.foldlM_append]
  cases (Text.lines s.toList).foldlM Signature.addLine empty with
  | error fault => rfl
  | ok c =>
      have h := Signature.addLines_merge (Text.lines t.toList) c empty
      rw [empty_merge] at h
      exact h

-- ========================================================= single lines

variable {line : String} {mid name type : List Char} {fs : List (List Char)}

/-- A text without line feeds is read as one line, by its fields. -/
theorem ofSignature_line (hline : '\n' ∉ line.toList)
    (hmid : Signature.IsContent line.toList mid) (hfs : Text.HasFields mid fs) :
    ofSignature line
      = match fs with
        | [] => .ok empty
        | [name, type] =>
          match Ty.parse (String.ofList type) with
          | .error cause => .error (.type cause)
          | .ok τ =>
            match Signature.varOfName? name with
            | some v => .ok (empty.insertVar v τ)
            | none => .ok (empty.insertSymbol (String.ofList name) τ)
        | _ => .error (.fields (String.ofList mid)) := by
  have hone : Text.lines line.toList = [line.toList] := by
    refine Text.segments_of_forall_not fun c hc => ?_
    exact beq_eq_false_iff_ne.2 fun e => hline (e ▸ hc)
  have hread : ofSignature line = Signature.addLine empty line.toList := by
    unfold ofSignature
    rw [hone, List.foldlM_cons]
    cases Signature.addLine empty line.toList <;> rfl
  rw [hread]
  unfold Signature.addLine Signature.entry?
  rw [Signature.isContent_iff.1 hmid, hfs.fields_eq]
  rcases fs with _ | ⟨name, _ | ⟨type, _ | ⟨more, rest⟩⟩⟩
  · rfl
  · rfl
  · simp only
    cases Ty.parse (String.ofList type) with
    | error cause => rfl
    | ok τ => cases Signature.varOfName? name <;> rfl
  · rfl

-- ========================================================= main theorem

/-- A signature is read line by line. What stands behind a line feed is
read by itself; the first fault counts, and of two entries for one name
the later one. Every line has a content, up to its comment and without
the blanks around it, and this has fields. A line without content states
nothing, and one that does not have two fields is at fault. With two
fields, the second has to be the notation of a type, and the first stands
for a variable if it is a dollar sign, maybe a plus sign and the digits of
an index, and for a symbol otherwise. -/
theorem signatures_are_read_by_lines :
    (∀ s t : String, ofSignature (s ++ "\n" ++ t)
        = match ofSignature s, ofSignature t with
          | .error fault, _ => .error fault
          | .ok _, .error fault => .error fault
          | .ok c, .ok d => .ok (d.merge c))
      ∧ (∀ line, ∃! mid, Signature.IsContent line mid)
      ∧ (∀ mid, ∃! fs, Text.HasFields mid fs)
      ∧ ∀ (line : String) (mid : List Char) (fs : List (List Char)),
          '\n' ∉ line.toList → Signature.IsContent line.toList mid →
          Text.HasFields mid fs →
          (mid = [] → ofSignature line = .ok empty)
          ∧ (∀ name type, fs = [name, type] →
            (∀ cause, Ty.parse (String.ofList type) = .error cause →
              ofSignature line = .error (.type cause))
            ∧ ∀ τ, Ty.parse (String.ofList type) = .ok τ →
              (∀ v, Signature.Names name v →
                ofSignature line = .ok (empty.insertVar v τ))
              ∧ ((∀ v, ¬ Signature.Names name v) →
                ofSignature line
                  = .ok (empty.insertSymbol (String.ofList name) τ)))
          ∧ (mid ≠ [] → fs.length ≠ 2 →
            ofSignature line = .error (.fields (String.ofList mid))) := by
  refine ⟨fun s t => ?_, fun line => ?_, fun mid => ?_,
    fun line mid fs hline hmid hfs =>
      ⟨fun hnil => ?_, fun name type htwo => ?_, fun hne hlength => ?_⟩⟩
  · rw [ofSignature_append]
    cases ofSignature s with
    | error fault => rfl
    | ok c => cases ofSignature t <;> rfl
  · exact ⟨_, Signature.isContent_iff.2 rfl, fun mid hmid =>
      (Signature.isContent_iff.1 hmid).symm⟩
  · exact ⟨_, Text.hasFields_iff.2 rfl, fun fs hfs => hfs.fields_eq.symm⟩
  · subst hnil
    cases hfs.fields_eq
    exact ofSignature_line hline hmid hfs
  · subst htwo
    have hread := ofSignature_line hline hmid hfs
    refine ⟨fun cause hcause => ?_, fun τ hτ => ⟨fun v hv => ?_, fun hnone => ?_⟩⟩
    · rw [hread]
      simp only [hcause]
    · rw [hread]
      simp only [hτ, Signature.varOfName?_eq_some_iff.2 hv]
    · have hname : Signature.varOfName? name = none :=
        Option.eq_none_iff_forall_ne_some.2 fun v hv =>
          hnone v (Signature.varOfName?_eq_some_iff.1 hv)
      rw [hread]
      simp only [hτ, hname]
  · rw [ofSignature_line hline hmid hfs]
    have hsome : fs ≠ [] := hfs.ne_nil hmid.trimmed hne
    rcases fs with _ | ⟨name, _ | ⟨type, _ | ⟨more, rest⟩⟩⟩
    · exact absurd rfl hsome
    · rfl
    · exact absurd rfl hlength
    · rfl

/-- A variable with a plus sign and leading zeros, between blanks that are
no separators; an index one too large, which makes a symbol; and a line of
three fields. -/
theorem variable_and_symbol_lines_join :
    ofSignature "\u2003$+07\te # c\r" = .ok (empty.insertVar ⟨7⟩ .entity)
      ∧ ofSignature "$4294967296 t"
        = .ok (empty.insertSymbol "$4294967296" .truth)
      ∧ ofSignature "P e t# c" = .error (.fields "P e t")
      ∧ ofSignature ("\u2003$+07\te # c\r" ++ "\n" ++ "$4294967296 t")
        = .ok ((empty.insertSymbol "$4294967296" .truth).merge
            (empty.insertVar ⟨7⟩ .entity)) := by
  obtain ⟨happend, -, -, hline⟩ := signatures_are_read_by_lines
  have hvar : ofSignature "\u2003$+07\te # c\r"
      = .ok (empty.insertVar ⟨7⟩ .entity) := by
    have hmid : Signature.IsContent "\u2003$+07\te # c\r".toList
        ['$', '+', '0', '7', '\t', 'e'] :=
      Signature.isContent_iff.2 (by decide +kernel)
    have hfs : Text.HasFields ['$', '+', '0', '7', '\t', 'e']
        [['$', '+', '0', '7'], ['e']] :=
      Text.hasFields_iff.2 (by decide +kernel)
    have hname : Signature.Names ['$', '+', '0', '7'] ⟨7⟩ :=
      ⟨['+'], ['0', '7'], rfl, .inr rfl, by decide, List.all_eq_true.1 rfl, rfl,
        by decide⟩
    obtain ⟨-, htwo, -⟩ := hline _ _ _ (by decide +kernel) hmid hfs
    obtain ⟨-, htype⟩ := htwo _ _ rfl
    exact (htype .entity rfl).1 ⟨7⟩ hname
  have hsymbol : ofSignature "$4294967296 t"
      = .ok (empty.insertSymbol "$4294967296" .truth) := by
    have hmid : Signature.IsContent "$4294967296 t".toList "$4294967296 t".toList :=
      Signature.isContent_iff.2 (by decide +kernel)
    have hfs : Text.HasFields "$4294967296 t".toList
        ["$4294967296".toList, ['t']] :=
      Text.hasFields_iff.2 (by decide +kernel)
    have hname : ∀ v, ¬ Signature.Names "$4294967296".toList v := by
      intro v hv
      have hnone : Signature.varOfName? "$4294967296".toList = none := by
        decide +kernel
      rw [Signature.varOfName?_eq_some_iff.2 hv] at hnone
      cases hnone
    obtain ⟨-, htwo, -⟩ := hline _ _ _ (by decide +kernel) hmid hfs
    obtain ⟨-, htype⟩ := htwo _ _ rfl
    rw [(htype .truth rfl).2 hname, String.ofList_toList]
  have hthree : ofSignature "P e t# c" = .error (.fields "P e t") := by
    have hmid : Signature.IsContent "P e t# c".toList "P e t".toList :=
      Signature.isContent_iff.2 (by decide +kernel)
    have hfs : Text.HasFields "P e t".toList [['P'], ['e'], ['t']] :=
      Text.hasFields_iff.2 (by decide +kernel)
    obtain ⟨-, -, hother⟩ := hline _ _ _ (by decide +kernel) hmid hfs
    rw [hother (by decide +kernel) (by decide), String.ofList_toList]
  refine ⟨hvar, hsymbol, hthree, ?_⟩
  rw [happend, hvar, hsymbol]

end Context

end LogicalForm
