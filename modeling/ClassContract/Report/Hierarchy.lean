import ClassContract.Report.Basic

/-!
# Checking many classes

Classes may be checked independently, or in an order in which every class comes after the abstract
classes it extends. In the second case an ancestor that names an abstract class checked before is
resolved: its members become what that class left to its subclasses, then its own concrete members,
then further concrete members that the caller listed.
-/

namespace ClassContract

/-- From this many classes on, independent checks may run side by side. -/
def largeBatch : Nat := 8

/-- Check classes independently of each other. -/
def checkAll (cs : List ClassDecl) (o : Options) : List Report := cs.map (·.check o)

/-- A class that has been checked, as it was declared. -/
structure Checked where
  /-- The class as the caller gave it. -/
  declared : ClassDecl
  /-- The class with its ancestors resolved. -/
  resolved : ClassDecl
  /-- The report on the resolved class. -/
  report : Report

namespace Ancestor

/-- The abstract class checked before that an ancestor names, the first if there are several. -/
def checked? (before : List Checked) (a : Ancestor) : Option Checked :=
  before.find? fun k => k.report.isAbstract && k.report.className == a.name

/-- The members of an ancestor that names a checked class. -/
def resolvedMembers (k : Checked) (a : Ancestor) : List Member :=
  addAllNew k.report.pending ((k.declared.members ++ a.members).filter (!·.isAbstract))

/-- An ancestor with the members that the check of the class it names has established. -/
def resolve (before : List Checked) (a : Ancestor) : Ancestor :=
  match a.checked? before with
  | some k => { a with members := a.resolvedMembers k }
  | none => a

end Ancestor

namespace ClassDecl

/-- A class with its ancestors resolved. -/
def resolve (before : List Checked) (c : ClassDecl) : ClassDecl :=
  { c with ancestors := c.ancestors.map (·.resolve before) }

/-- Check a class after others. -/
def checkAfter (before : List Checked) (c : ClassDecl) (o : Options) : Checked :=
  ⟨c, c.resolve before, (c.resolve before).check o⟩

end ClassDecl

/-- Check classes one after the other, given those checked before. -/
def checkOnwards (o : Options) (before : List Checked) : List ClassDecl → List Checked
  | [] => []
  | c :: cs =>
    let checked := c.checkAfter before o
    checked :: checkOnwards o (before ++ [checked]) cs

/-- Check classes of which each comes after the abstract classes it extends. -/
def checkHierarchy (cs : List ClassDecl) (o : Options) : List Report :=
  (checkOnwards o [] cs).map (·.report)

end ClassContract
