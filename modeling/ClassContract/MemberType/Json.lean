import ClassContract.MemberType.Basic
import ClassContract.Json.Decoder

/-!
# Member types as JSON

A type is written as a tagged value: the kind of a keyword type is its word, all other kinds have a
value. Number literals are always written as doubles, the infinite ones as null.
-/

namespace ClassContract

namespace Literal

/-- A literal as JSON. -/
def toJson : Literal → Json
  | .string s => .record [("kind", .text "string"), ("value", .text s)]
  | .number x => .record [("kind", .text "number"), ("value", .double x)]
  | .boolean b => .record [("kind", .text "boolean"), ("value", .bool b)]

/-- Read a literal. -/
def decoder : Decoder Literal :=
  .tagged "LiteralValue"
    [("string", .holding (Decoder.text.map .string)),
      ("number", .holding (Decoder.double.map .number)),
      ("boolean", .holding (Decoder.bool.map .boolean))]

end Literal

namespace MemberType

mutual

/-- A type as JSON. -/
def toJson : MemberType → Json
  | .keyword k => .record [("kind", .text k.word)]
  | .literal l => .record [("kind", .text "literal"), ("value", l.toJson)]
  | .named name => .record [("kind", .text "class"), ("value", .text name)]
  | .union ms => .record [("kind", .text "union"), ("value", .array (listToJson ms))]
  | .function ps r =>
    .record [("kind", .text "function"),
      ("value", .record [("params", .array (listToJson ps)), ("returnType", toJson r)])]

/-- The types of a list as JSON. -/
def listToJson : List MemberType → List Json
  | [] => []
  | t :: ts => toJson t :: listToJson ts

end

/-- Lists are written type by type. -/
theorem listToJson_eq_map (ts : List MemberType) : listToJson ts = ts.map toJson := by
  induction ts with
  | nil => rfl
  | cons t ts ih => rw [listToJson, ih, List.map_cons]

/-- Read the parameters and the result of a function, given a way to read types. -/
def signatureDecoder (type : Decoder MemberType) : Decoder MemberType :=
  (Decoder.record "FunctionType" ([], .keyword .void)
    [.need "params" type.list fun ps f => (ps, f.2),
      .need "returnType" type fun r f => (f.1, r)]).map fun f => .function f.1 f.2

/-- The kinds of types, given a way to read the types inside. -/
def variants (inner : Decoder MemberType) : List (String × Decoder.Variant MemberType) :=
  Keyword.all.map (fun k => (k.word, .plain (.keyword k))) ++
    [("literal", .holding (Literal.decoder.map .literal)),
      ("class", .holding (Decoder.text.map .named)),
      ("union", .holding (inner.list.map .union)),
      ("function", .holding (signatureDecoder inner))]

/-- Read a type in which types are nested less than `n` deep. -/
def nestedDecoder : Nat → Decoder MemberType
  | 0 => fun _ _ => .error .tooDeep
  | n + 1 => .tagged "ValueType" (variants (nestedDecoder n))

/-- Read a type. Every type opens an array or object of its own, so types are never nested deeper
than the levels that are left. -/
def decoder : Decoder MemberType := fun r v => nestedDecoder (r.levels + 1) r v

end MemberType

end ClassContract
