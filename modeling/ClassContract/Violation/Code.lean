/-!
# Codes of violations

Every way to violate a contract has a symbolic code and the number under which other tools report
it. All of them are errors.
-/

namespace ClassContract

/-- How serious a report is. -/
inductive Category
  | warning
  | error
  | suggestion
  | message
  deriving DecidableEq

namespace Category

/-- The word of a category. -/
def word : Category → String
  | .warning => "warning"
  | .error => "error"
  | .suggestion => "suggestion"
  | .message => "message"

/-- All categories. -/
def all : List Category := [.warning, .error, .suggestion, .message]

end Category

/-- The ways to violate a contract. -/
inductive Code
  /-- A required member, or one half of it, has no implementation. -/
  | unimplemented
  /-- A member of one kind stands where another kind is required. -/
  | kindMismatch
  /-- The type of an implementation does not fit the required type. -/
  | typeMismatch
  /-- A getter and a setter of one name have different types. -/
  | accessorTypeMismatch
  /-- A member can be assigned where only reading is permitted. -/
  | readonlyViolation
  /-- There is more than one declaration of a name. -/
  | duplicate
  /-- A method or accessor without a body is not abstract. -/
  | missingBody
  /-- A concrete class declares an abstract member. -/
  | abstractInConcrete
  /-- Only one of a getter and a setter of one name is abstract. -/
  | accessorAbstractness
  deriving DecidableEq

namespace Code

/-- The symbolic code. -/
def text : Code → String
  | .unimplemented => "ERR_UNIMPLEMENTED_ABSTRACT_MEMBER"
  | .kindMismatch => "ERR_KIND_MISMATCH"
  | .typeMismatch => "ERR_TYPE_MISMATCH"
  | .accessorTypeMismatch => "ERR_ACCESSOR_TYPE_MISMATCH"
  | .readonlyViolation => "ERR_READONLY_VIOLATION"
  | .duplicate => "ERR_DUPLICATE_DECLARATION"
  | .missingBody => "ERR_MISSING_BODY"
  | .abstractInConcrete => "ERR_ABSTRACT_MEMBER_IN_CONCRETE_CLASS"
  | .accessorAbstractness => "ERR_ACCESSOR_ABSTRACTNESS_MISMATCH"

/-- The number of a code. -/
def number : Code → Nat
  | .unimplemented => 2515
  | .kindMismatch => 2425
  | .typeMismatch => 2416
  | .accessorTypeMismatch => 2380
  | .readonlyViolation => 2540
  | .duplicate => 2300
  | .missingBody => 2391
  | .abstractInConcrete => 1253
  | .accessorAbstractness => 2676

/-- The category of a code. -/
def category (_ : Code) : Category := .error

/-- All codes, in the order of their table. -/
def all : List Code :=
  [.unimplemented, .kindMismatch, .typeMismatch, .accessorTypeMismatch, .readonlyViolation,
    .duplicate, .missingBody, .abstractInConcrete, .accessorAbstractness]

/-- The code of a number. -/
def ofNumber? (n : Nat) : Option Code := all.find? (·.number == n)

end Code

end ClassContract
