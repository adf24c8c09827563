import ClassContract.Declaration.Basic
import ClassContract.MemberType.Text
import ClassContract.Violation.Code

/-!
# Violations

A violation says which member of which class breaks its contract, where the broken requirement was
declared, and what was expected and found, as data and not as a message.
-/

namespace ClassContract

/-- What was expected or found. -/
inductive Side
  | none
  | kind (k : MemberKind)
  | type (t : MemberType)
  | count (n : Nat)

/-- The text of a side; nothing is a dash. -/
def Side.text : Side → String
  | .none => "-"
  | .kind k => k.text
  | .type t => t.text
  | .count n => Nat.repr n

/-- A contract that a member breaks. -/
structure Violation where
  /-- The name of the member. -/
  member : String
  /-- How serious it is. -/
  category : Category
  /-- Which rule is broken. -/
  code : Code
  /-- The class that was checked. -/
  owner : String
  /-- The class or interface that declared the broken requirement. -/
  declaredIn : Option String
  /-- What was expected. -/
  expected : Side
  /-- What was found. -/
  actual : Side

/-- Whether a violation is an error. -/
def Violation.isError (v : Violation) : Bool := v.category = .error

end ClassContract
