import ClassContract.Distinct
import ClassContract.Json.Numeral

/-!
# Member types

The type attached to a member: a keyword, a literal, a class or interface by name, a union or a
function. Unions read from a text are kept as they stand; `MemberType.unionOf` builds a normalised
one. `MemberType.widen` replaces literals by the keyword of their values, as for a member that can
be assigned again.

Equality of types, `MemberType.same`, compares number literals by value, so that the two zeros are
one literal; `==` on types means that equality.
-/

namespace ClassContract

/-- Types that are written as one word. -/
inductive Keyword
  | any
  | unknown
  | never
  | void
  | null
  | undefined
  | string
  | number
  | boolean
  deriving DecidableEq

namespace Keyword

/-- The word of a keyword type. -/
def word : Keyword → String
  | .any => "any"
  | .unknown => "unknown"
  | .never => "never"
  | .void => "void"
  | .null => "null"
  | .undefined => "undefined"
  | .string => "string"
  | .number => "number"
  | .boolean => "boolean"

/-- All keyword types. -/
def all : List Keyword :=
  [.any, .unknown, .never, .void, .null, .undefined, .string, .number, .boolean]

end Keyword

/-- A value that is a type of its own. -/
inductive Literal
  | string (s : String)
  | number (x : Double)
  | boolean (b : Bool)

namespace Literal

/-- The keyword type of the literal's values. -/
def keyword : Literal → Keyword
  | .string _ => .string
  | .number _ => .number
  | .boolean _ => .boolean

/-- Equality of literals, numbers by value. -/
def same : Literal → Literal → Bool
  | .string s, .string t => s == t
  | .number x, .number y => x.sameValue y
  | .boolean b, .boolean c => b == c
  | _, _ => false

instance : BEq Literal := ⟨same⟩

/-- A string literal stands in plain quotes, without any escape. -/
def text : Literal → String
  | .string s => "\"" ++ s ++ "\""
  | .number x => x.text
  | .boolean true => "true"
  | .boolean false => "false"

end Literal

/-- The type of a member. -/
inductive MemberType
  | keyword (k : Keyword)
  | literal (l : Literal)
  /-- A class or interface, by name. -/
  | named (name : String)
  | union (members : List MemberType)
  | function (params : List MemberType) (result : MemberType)

namespace MemberType

mutual

/-- Equality of types, number literals by value. -/
def same : MemberType → MemberType → Bool
  | .keyword j, .keyword k => j == k
  | .literal l, .literal m => l == m
  | .named x, .named y => x == y
  | .union ms, .union ns => sameList ms ns
  | .function ps r, .function qs s => sameList ps qs && same r s
  | _, _ => false

/-- Equality of lists of types. -/
def sameList : List MemberType → List MemberType → Bool
  | [], [] => true
  | a :: as, b :: bs => same a b && sameList as bs
  | _, _ => false

end

instance : BEq MemberType := ⟨same⟩

/-- What a type contributes to a union: the members of a union, nothing for `never`, itself
otherwise. -/
def unionParts : MemberType → List MemberType
  | .union ms => ms
  | .keyword .never => []
  | t => [t]

/-- The union of different members: `never` for none, and a single member is itself. -/
def ofParts : List MemberType → MemberType
  | [] => .keyword .never
  | [t] => t
  | ts => .union ts

/-- The normalised union: unions among the members are merged into it, `never` is left out, and
every member occurs once, at its first place. -/
def unionOf (ms : List MemberType) : MemberType := ofParts (distinct (ms.flatMap unionParts))

mutual

/-- Replace literals by their keyword types, also inside unions but not inside functions. -/
def widen : MemberType → MemberType
  | .literal l => .keyword l.keyword
  | .union ms => unionOf (widenList ms)
  | t => t

/-- Widen every type of a list. -/
def widenList : List MemberType → List MemberType
  | [] => []
  | t :: ts => widen t :: widenList ts

end

/-- Lists are widened type by type. -/
theorem widenList_eq_map (ts : List MemberType) : widenList ts = ts.map widen := by
  induction ts with
  | nil => rfl
  | cons t ts ih => rw [widenList, ih, List.map_cons]

/-- Whether the type is a literal. -/
def isLiteral : MemberType → Bool
  | .literal _ => true
  | _ => false

/-- Whether the type is a function. -/
def isFunction : MemberType → Bool
  | .function _ _ => true
  | _ => false

/-- Whether the type is the keyword `void`. -/
def isVoid : MemberType → Bool
  | .keyword .void => true
  | _ => false

/-- The parameters and the result of a function type. -/
def signature? : MemberType → Option (List MemberType × MemberType)
  | .function ps r => some (ps, r)
  | _ => none

end MemberType

end ClassContract
