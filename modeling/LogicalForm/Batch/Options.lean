/-
The options of the batch program. Arguments are taken in order, and the
first request for help or for the version settles what is done. An option
is given at most once; a signature is the name of a file.
-/
namespace LogicalForm.Batch

/-- What a run over standard input is asked to do. -/
structure Options where
  /-- Print the marker of a lambda as a word. -/
  ascii : Bool := false
  /-- Take the forms in pairs and print applications. -/
  apply : Bool := false
  /-- The file that holds the signature. -/
  signature : Option String := none
  deriving DecidableEq, Repr

/-- What the arguments ask for. -/
inductive Command where
  | help
  | version
  | run (options : Options)
  /-- The argument cannot be used where it stands. -/
  | misuse (argument : String)
  deriving DecidableEq, Repr

namespace Command

/-- What the arguments ask for, with the options given before them. -/
def ofArgs (o : Options) : List String → Command
  | [] => .run o
  | arg :: args =>
    if arg = "-h" ∨ arg = "--help" then .help
    else if arg = "-V" ∨ arg = "--version" then .version
    else if arg = "--ascii" then
      if o.ascii then .misuse arg else ofArgs { o with ascii := true } args
    else if arg = "-a" ∨ arg = "--apply" then
      if o.apply then .misuse arg else ofArgs { o with apply := true } args
    else if arg = "-s" ∨ arg = "--signature" then
      match o.signature, args with
      | none, file :: args => ofArgs { o with signature := some file } args
      | _, _ => .misuse arg
    else .misuse arg

end Command

-- ================================================================ texts

/-- What the request for the version prints. -/
def versionText : String := "lambda-forms 0.1.0\n"

/-- What the request for help prints. -/
def helpText : String := String.join
  ["Reads one logical form per line from stdin and prints it back typed and reduced. ",
    "Lines that do not start with `(` are skipped\n",
    "\n",
    "Usage: lambda-forms [OPTIONS]\n",
    "\n",
    "Options:\n",
    "  -s, --signature <SIGNATURE>  Signature file with one `symbol type` pair per line\n",
    "      --ascii                  Print the ASCII `lambda` marker instead of `λ`\n",
    "  -a, --apply                  Read lines in pairs and print the function applied ",
    "to the argument\n",
    "  -h, --help                   Print help\n",
    "  -V, --version                Print version\n"]

end LogicalForm.Batch
