import ClassContract.Json.Decoder

/-!
# Failures

Reading fails because a file cannot be read or because its text is not what it should be. The
message says what was being read, from the outside in; the cause is kept beside it.
-/

namespace ClassContract

/-- Why something could not be read. -/
inductive Cause
  /-- There is no text. -/
  | unreadable
  /-- The text is at fault. -/
  | fault (f : Fault)
  deriving DecidableEq

/-- A failure to read something. -/
structure Failure where
  /-- What was being read, outermost first. -/
  contexts : List String
  /-- Why it could not be read. -/
  cause : Cause
  deriving DecidableEq

namespace Failure

/-- The message of a failure. -/
def message (f : Failure) : String := ": ".intercalate f.contexts

/-- The text of a cause that has one. -/
def detail? (f : Failure) : Option String :=
  match f.cause with
  | .fault (.booleanWord s) => some (Fault.booleanWord s).message
  | _ => none

/-- A failure inside something larger. -/
def within (context : String) (f : Failure) : Failure :=
  { f with contexts := context :: f.contexts }

end Failure

/-- Read a document that is described by a context. -/
def readDocument (context : String) (d : Decoder α) (cs : List Char) : Except Failure α :=
  match (Document.ofChars cs).decode d with
  | .ok a => .ok a
  | .error f => .error ⟨[context], .fault f⟩

end ClassContract
