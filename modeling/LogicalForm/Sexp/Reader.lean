/-
Reading s-expressions. A text is read by a grammar first: words, and
groups of items with separators before each. Only if the grammar refuses
it, the text is gone through once more to say why. That diagnosis does
not look at the refusal. It asks whether anything but blanks is there,
then counts parentheses, and blames what stands beside a complete form
for the rest.

The two passes do not mean the same by white space: a word ends at a
blank, and the diagnosis asks for blanks, but between items the grammar
skips separators alone.
-/
import LogicalForm.Error
import LogicalForm.Sexp.Basic

namespace LogicalForm

namespace Sexp

open Text Rule

-- ============================================================== grammar

/-- A word goes on to the next blank or parenthesis. -/
def wordRule : Rule Sexp :=
  map word (takeTill1 fun c => isBlank c || c == '(' || c == ')')

/-- A group is written by its items, which `self` reads, each behind
separators, and by parentheses around them. -/
def groupRule (self : Rule Sexp) : Rule Sexp :=
  map group
    (delimited (char '(') (many0 (preceded multispace0 self))
      (pair multispace0 (char ')')))

/-- An s-expression is a group or a word. -/
def rule : Rule Sexp := fix fun self => alt (groupRule self) wordRule

-- ============================================================ diagnosis

/-- The number of groups that are open behind the text if `depth` are open
before it. The count ends early where a group is closed that is not open,
and is negative then. -/
def depthAfter (depth : Int) : List Char → Int
  | [] => depth
  | c :: cs =>
    let depth :=
      if c = '(' then depth + 1 else if c = ')' then depth - 1 else depth
    if depth < 0 then depth else depthAfter depth cs

/-- What is wrong with a text that the grammar refuses. -/
def malformation (cs : List Char) : Malformation :=
  if (trim cs).isEmpty then .empty
  else if depthAfter 0 cs ≠ 0 then .unbalanced
  else .trailing

-- =============================================================== reader

/-- The one s-expression that the characters write. -/
def ofChars (cs : List Char) : Except Malformation Sexp :=
  match (whole rule).run cs with
  | .ok (s, _) => .ok s
  | .error _ => .error (malformation cs)

end Sexp

end LogicalForm
