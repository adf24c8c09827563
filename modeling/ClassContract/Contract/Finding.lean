import ClassContract.Relation.Basic
import ClassContract.Violation.Basic

/-!
# Findings

Checking a class yields findings in a fixed order. Violations and what is left to subclasses make up
the report on the class; the other findings only say how they were reached.
-/

namespace ClassContract

/-- Something that a check comes upon. -/
inductive Finding
  /-- The rules are applied to a name with this many own abstract and own concrete declarations. -/
  | examined (member : String) (ownAbstract ownConcrete : Nat) (required : Bool)
  /-- A comparison of types went too deep. -/
  | cutOff (c : CutOff)
  /-- A contract is broken. -/
  | violation (v : Violation)
  /-- A requirement is left to subclasses. -/
  | deferral (m : Member)

namespace Finding

/-- The violation of a finding. -/
def violation? : Finding → Option Violation
  | .violation v => some v
  | _ => none

/-- The requirement that a finding leaves to subclasses. -/
def deferral? : Finding → Option Member
  | .deferral m => some m
  | _ => none

/-- The violations among findings. -/
def violations (fs : List Finding) : List Violation := fs.filterMap violation?

/-- The requirements that are left to subclasses, each once. -/
def pending (fs : List Finding) : List Member := distinct (fs.filterMap deferral?)

/-- The cut-offs of a verdict as findings. -/
def ofCutOffs (v : Verdict) : List Finding := v.cutOffs.map .cutOff

end Finding

end ClassContract
