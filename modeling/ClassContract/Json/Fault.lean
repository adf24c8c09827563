import ClassContract.Json.Basic
import ClassContract.Text.Quoted

/-!
# Faults of JSON values

A value that cannot be read as what it should be has a fault. A fault is a cause: what stands in
the text, what is expected there, which key is missing. `Fault.message` puts it into words.
-/

namespace ClassContract

/-- What can be said of a value without looking into it. -/
inductive Shape
  | null
  | bool (b : Bool)
  | number (n : Numeral)
  | text (s : String)
  | array
  | object
  deriving DecidableEq

/-- The shape of a value. Of a string that cannot be read only the fact remains. -/
def Json.shape : Json → Shape
  | .null => .null
  | .bool b => .bool b
  | .number n => .number n
  | .string ps => .text (String.ofList ((decodePieces ps).getD []))
  | .array _ => .array
  | .object _ => .object

/-- Whether a numeral writes an integer of 64 bits. A sign makes zero a double. -/
def Numeral.isInteger (n : Numeral) : Bool :=
  n.fraction.isEmpty && n.exponent.isNone &&
    (let v := digitsValue n.whole
     if n.negative then 0 < v && v ≤ twoPow 63 else v < wordLimit)

/-- A shape in words. Integers are shown as written, other numbers as the double they are. -/
def Shape.describe : Shape → String
  | .null => "null"
  | .bool b => "boolean `" ++ (if b then "true" else "false") ++ "`"
  | .number n =>
    if n.isInteger then "integer `" ++ String.ofList n.chars ++ "`"
    else
      let shown := (n.toFinite?.map FiniteDouble.numeral).getD n
      "floating point `" ++ String.ofList shown.chars ++ "`"
  | .text s => "string " ++ quoted s
  | .array => "sequence"
  | .object => "map"

/-- What should stand in a place. -/
inductive Expected
  /-- A string. -/
  | text
  /-- A truth value. -/
  | flag
  /-- A number. -/
  | double
  /-- A count. -/
  | count
  /-- An array. -/
  | list
  /-- The word of a choice, alone or as the only key of an object. -/
  | choice
  /-- The word of a choice. -/
  | word
  /-- Null beside the word of a choice. -/
  | nothing
  /-- The record of the given name. -/
  | record (name : String)
  /-- The record of the given name as an array of all its values. -/
  | values (name : String) (size : Nat)
  /-- The tagged value of the given name. -/
  | tagged (name : String)
  /-- Null, for a kind of tagged value that has no value of its own. -/
  | plain (name kind : String)
  /-- Fewer items. -/
  | fewerItems
  /-- So many items. -/
  | items (size : Nat)
  deriving DecidableEq

/-- A word that begins with a capital letter. -/
def capitalized (word : String) : String :=
  match word.toList with
  | [] => ""
  | c :: cs => String.ofList (c.toUpper :: cs)

/-- What is expected, in words. -/
def Expected.describe : Expected → String
  | .text => "a string"
  | .flag => "a boolean"
  | .double => "f64"
  | .count => "a count"
  | .list => "a sequence"
  | .choice => "string or map"
  | .word => "variant identifier"
  | .nothing => "unit"
  | .record name => "struct " ++ name
  | .values name size =>
    "struct " ++ name ++ " with " ++ toString size ++ (if size = 1 then " element" else " elements")
  | .tagged name => "adjacently tagged enum " ++ name
  | .plain name kind => "unit variant " ++ name ++ "::" ++ capitalized kind
  | .fewerItems => "fewer elements in array"
  | .items size => toString size ++ (if size = 1 then " element" else " elements") ++ " in sequence"

/-- Why a text cannot be read as what it should be. -/
inductive Fault
  /-- The text is not a JSON value. -/
  | malformed
  /-- Something else is expected. -/
  | wrongShape (found : Shape) (expected : Expected)
  /-- An array has the wrong number of items. -/
  | wrongLength (size : Nat) (expected : Expected)
  /-- Arrays and objects are nested too deep. -/
  | tooDeep
  /-- A number is beyond the range of doubles. -/
  | outOfRange
  /-- A string has a surrogate without its partner. -/
  | loneSurrogate
  /-- A value that precedes its kind has something in it that cannot be read. -/
  | notHeld
  /-- A key that has to be there is not. -/
  | missingKey (key : String)
  /-- A key is there twice. -/
  | repeatedKey (key : String)
  /-- A word is none of the words of a choice. -/
  | unknownWord (word : String) (choices : List String)
  /-- A choice has no word at this position. -/
  | unknownPosition (position size : Nat)
  /-- An object that stands for a word has no key, or several. -/
  | notSingle
  /-- A string stands for neither truth value. -/
  | booleanWord (word : String)
  deriving DecidableEq

/-- Words between which there is a choice. -/
def alternatives (words : List String) : String :=
  match words.map fun w => "`" ++ w ++ "`" with
  | [] => "nothing"
  | [a] => a
  | [a, b] => a ++ " or " ++ b
  | ws => "one of " ++ ", ".intercalate ws

/-- The message of a fault. -/
def Fault.message : Fault → String
  | .malformed => "not a JSON value"
  | .wrongShape found expected =>
    "invalid type: " ++ found.describe ++ ", expected " ++ expected.describe
  | .wrongLength size expected =>
    "invalid length " ++ toString size ++ ", expected " ++ expected.describe
  | .tooDeep => "nested too deep"
  | .outOfRange => "number out of range"
  | .loneSurrogate => "surrogate without its partner"
  | .notHeld => "unreadable value before its kind"
  | .missingKey key => "missing field `" ++ key ++ "`"
  | .repeatedKey key => "duplicate field `" ++ key ++ "`"
  | .unknownWord word choices =>
    "unknown variant `" ++ word ++ "`, expected " ++ alternatives choices
  | .unknownPosition position size =>
    "invalid value: integer `" ++ toString position ++ "`, expected variant index 0 <= i < "
      ++ toString size
  | .notSingle => "invalid value: map, expected map with a single key"
  | .booleanWord word =>
    "invalid boolean value: '" ++ word ++ "'. Expected true, false, 'true', or 'false'"

end ClassContract
