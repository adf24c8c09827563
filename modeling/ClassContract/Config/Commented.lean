import ClassContract.Text.Blank

/-!
# JSON with comments

Configuration texts may have comments and a comma after the last item of an array or object. Both
are removed before the text is read as JSON, and strings are left alone. A line comment goes up to
the end of its line, a block comment up to the first `*/`; the line ends inside it stay, so that
every line keeps its number. Nothing is put in the place of a comment.
-/

namespace ClassContract

/-- Where a character stands with respect to strings. -/
inductive Quoting
  | outside
  | inside
  /-- Inside a string, after a backslash. -/
  | escaped
  deriving DecidableEq

/-- Where the next character stands. -/
def Quoting.next : Quoting → Char → Quoting
  | .outside, c => if c = '"' then .inside else .outside
  | .inside, c => if c = '\\' then .escaped else if c = '"' then .outside else .inside
  | .escaped, _ => .inside

mutual

/-- Remove the comments of a text. -/
def removeComments : Quoting → List Char → List Char
  | .outside, '/' :: '/' :: cs => afterLine cs
  | .outside, '/' :: '*' :: cs => afterBlock cs
  | q, c :: cs => c :: removeComments (q.next c) cs
  | _, [] => []

/-- Go on after a line comment. -/
def afterLine : List Char → List Char
  | [] => []
  | c :: cs => if c = '\n' then c :: removeComments .outside cs else afterLine cs

/-- Go on after a block comment. -/
def afterBlock : List Char → List Char
  | [] => []
  | '*' :: '/' :: cs => removeComments .outside cs
  | c :: cs => if c = '\n' then c :: afterBlock cs else afterBlock cs

end

/-- Whether only blanks stand before the next closing bracket. -/
def closesNext (cs : List Char) : Bool :=
  match (cs.dropWhile isBlank).head? with
  | some c => c == '\x7d' || c == ']'
  | none => false

/-- Remove the commas before closing brackets. -/
def removeTrailingCommas : Quoting → List Char → List Char
  | _, [] => []
  | q, c :: cs =>
    if q = .outside && c == ',' && closesNext cs then removeTrailingCommas .outside cs
    else c :: removeTrailingCommas (q.next c) cs

/-- The JSON text of a text with comments. -/
def plainJson (cs : List Char) : List Char :=
  removeTrailingCommas .outside (removeComments .outside cs)

end ClassContract
