import ClassContract.Contract.Rules

/-!
# Checking a class

`ClassDecl.findings` applies the rules to every name in the scope of a class, in the order of the
scope. An abstract class also leaves its own abstract members to its subclasses. `ClassDecl.check`
sums the findings up in a report.
-/

namespace ClassContract

/-- The result of checking a class. -/
structure Report where
  /-- The name of the class. -/
  className : String
  /-- Whether the class is abstract. -/
  isAbstract : Bool
  /-- The violations in the order in which they were found. -/
  violations : List Violation
  /-- What an abstract class leaves to its subclasses. -/
  pending : List Member

namespace Report

/-- Whether nothing was reported. -/
def isClean (r : Report) : Bool := r.violations.isEmpty

/-- The codes of the violations in order. -/
def codes (r : Report) : List Code := r.violations.map (·.code)

/-- The violations of one member. -/
def violationsFor (r : Report) (name : String) : List Violation :=
  r.violations.filter (·.member == name)

/-- The class as an ancestor of its subclasses, with what it left to them. -/
def asAncestor (r : Report) : Ancestor := .ofClass r.className r.pending

end Report

namespace ClassDecl

/-- The findings of a sequence of groups. -/
def findingsOf (s : Subject) (gs : List Group) : List Finding := gs.flatMap (·.findings s)

/-- What an abstract class leaves to its subclasses because it declares it abstract itself. -/
def handedDown (c : ClassDecl) : List Finding :=
  if c.isAbstract then (c.members.filter (·.isAbstract)).map .deferral else []

/-- All findings of a check. -/
def findings (c : ClassDecl) (o : Options) : List Finding :=
  findingsOf (.ofClass c o) c.scope ++ c.handedDown

/-- Check a class. -/
def check (c : ClassDecl) (o : Options) : Report :=
  ⟨c.name, c.isAbstract, Finding.violations (c.findings o), Finding.pending (c.findings o)⟩

end ClassDecl

end ClassContract
