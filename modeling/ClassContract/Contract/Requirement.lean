import ClassContract.Declaration.Basic

/-!
# Requirements and provisions

The abstract declarations of a name amount to a requirement, the concrete declarations of a class to
a provision. The first declaration decides whether a method or a property is meant, and of each kind
the first declaration counts; further ones are reported as duplicates and have no other effect.
-/

namespace ClassContract

/-- The first member of a kind. -/
def firstOfKind (kind : MemberKind) (ms : List Member) : Option Member := ms.find? (·.kind == kind)

/-- What abstract declarations require of a property. -/
structure PropertyRequirement where
  /-- The first declaration, which reports refer to. -/
  primary : Member
  /-- The field among the declarations. -/
  field : Option Member
  /-- The getter among the declarations. -/
  getter : Option Member
  /-- The setter among the declarations. -/
  setter : Option Member

namespace PropertyRequirement

/-- The declaration that requires reading. -/
def readSource (p : PropertyRequirement) : Option Member := p.field.or p.getter

/-- The declaration that requires writing. -/
def writeSource (p : PropertyRequirement) : Option Member :=
  p.setter.or (p.field.filter (!·.isReadonly))

/-- Whether the property has to be readable. -/
def requiresRead (p : PropertyRequirement) : Bool := p.field.isSome || p.getter.isSome

/-- Whether the property has to be assignable. -/
def requiresWrite (p : PropertyRequirement) : Bool :=
  p.field.any (!·.isReadonly) || p.setter.isSome

/-- The type that readers rely on. -/
def readType (p : PropertyRequirement) : Option MemberType := p.readSource.map (·.type)

/-- The type that writers may store. -/
def writeType (p : PropertyRequirement) : Option MemberType := p.writeSource.map (·.type)

end PropertyRequirement

/-- What the abstract declarations of a name require. -/
inductive Requirement
  | method (m : Member)
  | property (p : PropertyRequirement)

namespace Requirement

/-- The requirement of abstract declarations in the order of the scope. -/
def ofMembers? : List Member → Option Requirement
  | [] => none
  | first :: rest =>
    if first.kind = .method then some (.method first)
    else
      let ms := first :: rest
      some (.property
        ⟨first, firstOfKind .field ms, firstOfKind .getAccessor ms, firstOfKind .setAccessor ms⟩)

/-- The declaration that reports refer to. -/
def primary : Requirement → Member
  | .method m => m
  | .property p => p.primary

/-- The declarations that the requirement consists of. -/
def members : Requirement → List Member
  | .method m => [m]
  | .property p => p.field.toList ++ p.getter.toList ++ p.setter.toList

/-- Whether a property has to be readable and nothing more. -/
def isReadOnly : Requirement → Bool
  | .method _ => false
  | .property p => p.requiresRead && !p.requiresWrite

end Requirement

/-- What the concrete declarations of a class provide for a name. -/
inductive Provision
  | field (m : Member)
  | method (m : Member)
  | accessors (getter setter : Option Member)

namespace Provision

/-- The provision of concrete declarations in the order of the class. -/
def ofMembers? : List Member → Option Provision
  | [] => none
  | first :: rest =>
    match first.kind with
    | .field => some (.field first)
    | .method => some (.method first)
    | .getAccessor | .setAccessor =>
      some (.accessors (firstOfKind .getAccessor (first :: rest))
        (firstOfKind .setAccessor (first :: rest)))

/-- The kind that reports name; a getter comes before a setter. -/
def kind : Provision → MemberKind
  | .field _ => .field
  | .method _ => .method
  | .accessors (some _) _ => .getAccessor
  | .accessors none _ => .setAccessor

/-- The declaration through which the member can be assigned. -/
def writer : Provision → Option Member
  | .field m => if m.isReadonly then none else some m
  | .method _ => none
  | .accessors _ setter => setter

end Provision

end ClassContract
