import ClassContract.Json.Decoder

/-!
# Options of a check

Two checks are made only on demand. Strictness is recorded as such and switches both of them on when
the options are completed.
-/

namespace ClassContract

/-- The options of a check. -/
structure Options where
  /-- Whether strictness was asked for. -/
  strict : Bool
  /-- Report abstract members of a concrete class. -/
  reportAbstractInConcrete : Bool
  /-- Report a getter and a setter of which only one is abstract. -/
  reportAccessorAbstractness : Bool
  /-- Accept a field that can be assigned where only a setter is required. -/
  fieldSatisfiesWriteOnly : Bool
  deriving DecidableEq

namespace Options

/-- The options that hold when nothing is said. -/
def initial : Options := ⟨false, false, false, true⟩

/-- Strictness switches the two checks on; it never switches anything off. -/
def completed (o : Options) : Options :=
  if o.strict then { o with reportAbstractInConcrete := true, reportAccessorAbstractness := true }
  else o

/-- The options of a strict check. -/
def strictest : Options := { initial with strict := true }.completed

/-- Options as JSON. -/
def toJson (o : Options) : Json :=
  .record
    [("strict", .bool o.strict),
      ("reportAbstractInConcreteClass", .bool o.reportAbstractInConcrete),
      ("reportAccessorAbstractness", .bool o.reportAccessorAbstractness),
      ("fieldSatisfiesWriteOnly", .bool o.fieldSatisfiesWriteOnly)]

/-- Read options as they stand. -/
def decoder : Decoder Options :=
  .record "CheckerOptions" initial
    [.may "strict" .bool fun v o => { o with strict := v },
      .may "reportAbstractInConcreteClass" .bool
        fun v o => { o with reportAbstractInConcrete := v },
      .may "reportAccessorAbstractness" .bool fun v o => { o with reportAccessorAbstractness := v },
      .may "fieldSatisfiesWriteOnly" .bool fun v o => { o with fieldSatisfiesWriteOnly := v }]

/-- A truth value as a word. -/
def flagText (b : Bool) : String := if b then "true" else "false"

/-- The text of options in events. -/
def text (o : Options) : String :=
  "CheckerOptions \x7b strict: " ++ flagText o.strict
    ++ ", report_abstract_in_concrete_class: " ++ flagText o.reportAbstractInConcrete
    ++ ", report_accessor_abstractness: " ++ flagText o.reportAccessorAbstractness
    ++ ", field_satisfies_write_only: " ++ flagText o.fieldSatisfiesWriteOnly ++ " \x7d"

end Options

end ClassContract
