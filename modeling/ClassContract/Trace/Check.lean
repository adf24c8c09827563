import ClassContract.Report.Hierarchy
import ClassContract.Trace.Event

/-!
# The events of a check

The events of a check follow from what it computes: the scope, the findings and the reports.
-/

namespace ClassContract

/-- The events of comparing two types. -/
def Verdict.events (v : Verdict) : List Event := v.cutOffs.map .cutOff

namespace ClassDecl

/-- The event of building the scope of a class. -/
def scopeEvent (c : ClassDecl) : Event :=
  .scopeBuilt c.name c.ancestors.length c.members.length c.names.length

/-- The events of checking a class. -/
def checkEvents (c : ClassDecl) (o : Options) : List Event :=
  [.classOpened c.name, c.scopeEvent] ++ (c.findings o).map (.found c.name)
    ++ [.classChecked c.name (c.check o).violations.length (c.check o).pending.length]

end ClassDecl

/-- The events of checking independent classes. -/
def batchEvents (cs : List ClassDecl) (o : Options) : List Event :=
  .batchOpened cs.length :: cs.flatMap (·.checkEvents o)

namespace Checked

/-- The events of resolving the ancestors of a class. -/
def resolutionEvents (before : List Checked) (k : Checked) : List Event :=
  k.declared.ancestors.filterMap fun a =>
    (a.checked? before).map fun found =>
      .ancestorResolved a.name found.report.pending.length (a.resolvedMembers found).length

end Checked

/-- The events of checking classes one after the other, given those checked before. -/
def onwardsEvents (o : Options) (before : List Checked) : List Checked → List Event
  | [] => []
  | k :: ks =>
    k.resolutionEvents before ++ k.resolved.checkEvents o ++ onwardsEvents o (before ++ [k]) ks

/-- The events of checking a hierarchy. -/
def hierarchyEvents (cs : List ClassDecl) (o : Options) : List Event :=
  .hierarchyOpened cs.length :: onwardsEvents o [] (checkOnwards o [] cs)

end ClassContract
