import ClassContract.Failure
import ClassContract.Report.Hierarchy
import ClassContract.Report.Json

/-!
# Checking JSON texts

Classes come in as a JSON array, and the reports on them go out as one. A text that is not a list of
classes is a failure and not a violation.
-/

namespace ClassContract

/-- Read a list of classes. -/
def readClasses (input : String) : Except Failure (List ClassDecl) :=
  readDocument "failed to parse class declarations" (.list ClassDecl.decoder) input.toList

/-- Reports as a JSON array. -/
def reportsJson (rs : List Report) : Json := .array (rs.map Report.toJson)

/-- Check the independent classes of a text. -/
def checkAllText (input : String) (o : Options) : Except Failure String :=
  (readClasses input).map fun cs => (reportsJson (checkAll cs o)).render

/-- Check the hierarchy of a text. -/
def checkHierarchyText (input : String) (o : Options) : Except Failure String :=
  (readClasses input).map fun cs => (reportsJson (checkHierarchy cs o)).render

end ClassContract
