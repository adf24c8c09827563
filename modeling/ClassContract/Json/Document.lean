import ClassContract.Json.Basic

/-!
# Reading JSON documents

A document is read from its tokens with a stack of the arrays and objects that are still open.
`Document.root` is what the text says up to its first fault, with everything that was open there
closed off, and `Document.complete` tells whether there was none. Keeping the part before the fault
lets a reader report what is wrong there in preference to the fault.
-/

namespace ClassContract

/-- The outcome of reading a text. -/
structure Document where
  /-- The value up to the first fault; nothing when the text does not even begin one. -/
  root : Option Json
  /-- Whether the text is one value and nothing else. -/
  complete : Bool

namespace Document

/-- An array or object that is still open. What it already holds is kept last first. -/
inductive Frame
  | items (before : List Json)
  /-- An object in which the value of `key` comes next. -/
  | members (before : List (List Piece × Json)) (key : List Piece)

/-- Put a value into an open array or object and close that. -/
def Frame.close (v : Json) : Frame → Json
  | .items before => .array (v :: before).reverse
  | .members before key => .object ((key, v) :: before).reverse

/-- Close an array or object before its next value. -/
def Frame.cut : Frame → Json
  | .items before => .array before.reverse
  | .members before _ => .object before.reverse

/-- The document of a text that breaks off after the value `v`. -/
def brokenAfter (v : Json) (frames : List Frame) : Document :=
  ⟨some (frames.foldl Frame.close v), false⟩

/-- The document of a text that breaks off where a value should begin. -/
def brokenBefore : List Frame → Document
  | [] => ⟨none, false⟩
  | f :: frames => brokenAfter f.cut frames

mutual

/-- Read on where a value has to begin. -/
def value : List Frame → List Token → Document
  | fs, .null :: ts => next fs .null ts
  | fs, .bool b :: ts => next fs (.bool b) ts
  | fs, .number n :: ts => next fs (.number n) ts
  | fs, .string s :: ts => next fs (.string s) ts
  | fs, .openArray :: .closeArray :: ts => next fs (.array []) ts
  | fs, .openArray :: ts => value (.items [] :: fs) ts
  | fs, .openObject :: .closeObject :: ts => next fs (.object []) ts
  | fs, .openObject :: .string k :: .colon :: ts => value (.members [] k :: fs) ts
  | fs, .openObject :: _ => brokenAfter (.object []) fs
  | fs, _ => brokenBefore fs

/-- Read on after a value. -/
def next : List Frame → Json → List Token → Document
  | [], v, ts => ⟨some v, ts.isEmpty⟩
  | .items vs :: fs, v, .comma :: ts => value (.items (v :: vs) :: fs) ts
  | .items vs :: fs, v, .closeArray :: ts => next fs (.array (v :: vs).reverse) ts
  | .members ms k :: fs, v, .comma :: .string k' :: .colon :: ts =>
    value (.members ((k, v) :: ms) k' :: fs) ts
  | .members ms k :: fs, v, .closeObject :: ts => next fs (.object ((k, v) :: ms).reverse) ts
  | fs, v, _ => brokenAfter v fs

end

/-- The document of a token sequence. -/
def ofTokens (ts : List Token) : Document := value [] ts

/-- The document of a text. -/
def ofChars (cs : List Char) : Document := ofTokens (Token.lex cs)

/-- The document of a string. -/
def ofString (s : String) : Document := ofChars s.toList

end Document

end ClassContract
