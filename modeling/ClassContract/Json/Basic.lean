import ClassContract.Json.Token

/-!
# JSON values

`Json` keeps what a text says and not yet what it means: numbers as numerals, strings and keys as
pieces, members in the order of the text and with repetitions. `Json.tokens` is the token sequence
of a value, `Json.chars` its text without any white space.
-/

namespace ClassContract

/-- A JSON value as written. -/
inductive Json
  | null
  | bool (b : Bool)
  | number (n : Numeral)
  | string (ps : List Piece)
  | array (items : List Json)
  | object (members : List (List Piece × Json))

namespace Json

mutual

/-- The token sequence of a value. -/
def tokens : Json → List Token
  | .null => [.null]
  | .bool b => [.bool b]
  | .number n => [.number n]
  | .string ps => [.string ps]
  | .array items => .openArray :: (itemTokens items ++ [.closeArray])
  | .object members => .openObject :: (memberTokens members ++ [.closeObject])

/-- The tokens between the brackets of an array. -/
def itemTokens : List Json → List Token
  | [] => []
  | [v] => tokens v
  | v :: w :: rest => tokens v ++ .comma :: itemTokens (w :: rest)

/-- The tokens between the braces of an object. -/
def memberTokens : List (List Piece × Json) → List Token
  | [] => []
  | [(k, v)] => .string k :: .colon :: tokens v
  | (k, v) :: m :: rest => .string k :: .colon :: (tokens v ++ .comma :: memberTokens (m :: rest))

end

/-- The text of a value without white space. -/
def chars (v : Json) : List Char := v.tokens.flatMap Token.chars

/-- The text of a value as a string. -/
def render (v : Json) : String := String.ofList v.chars

/-- A string value. -/
def text (s : String) : Json := .string (encodePieces s)

/-- A count. -/
def count (n : Nat) : Json := .number (Numeral.ofNat n)

/-- A double. There are no numerals for the infinities, which are written as null. -/
def double : Double → Json
  | .finite x => .number x.numeral
  | .infinite _ => .null

/-- An object with the given members. -/
def record (members : List (String × Json)) : Json :=
  .object (members.map fun (k, v) => (encodePieces k, v))

/-- A value, or null for none. -/
def optional (write : α → Json) : Option α → Json
  | some a => write a
  | none => .null

end Json

end ClassContract
