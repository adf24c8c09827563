import ClassContract.MemberType.Basic

/-!
# Declarations of members, ancestors and classes

A class has members of its own and a list of ancestors, nearest first, each with the members that it
declares. Whether a member only states a requirement or also meets it is its `isAbstract` flag.
-/

namespace ClassContract

/-- The kinds of members. -/
inductive MemberKind
  | field
  | method
  | getAccessor
  | setAccessor
  deriving DecidableEq

namespace MemberKind

/-- The kind in words. -/
def text : MemberKind → String
  | .field => "field"
  | .method => "method"
  | .getAccessor => "get accessor"
  | .setAccessor => "set accessor"

/-- Get and set accessors. -/
def isAccessor : MemberKind → Bool
  | .getAccessor | .setAccessor => true
  | .field | .method => false

/-- Kinds that describe a property: fields and accessors. -/
def isPropertyLike : MemberKind → Bool
  | .field | .getAccessor | .setAccessor => true
  | .method => false

/-- Kinds that need a body where they are not abstract. -/
def requiresBody : MemberKind → Bool
  | .method | .getAccessor | .setAccessor => true
  | .field => false

end MemberKind

/-- The declaration of a member. -/
structure Member where
  /-- The name under which the member is found. -/
  name : String
  /-- What is declared under that name. -/
  kind : MemberKind
  /-- Whether the declaration only requires an implementation. -/
  isAbstract : Bool
  /-- Whether the member may not be assigned. -/
  isReadonly : Bool
  /-- The declared type. -/
  type : MemberType
  /-- The class or interface that made the declaration. -/
  owner : String
  /-- Whether there is a body, or an initial value of a field. -/
  hasBody : Bool

namespace Member

/-- Equality of declarations, number literals by value. -/
def same (a b : Member) : Bool :=
  a.name == b.name && a.kind == b.kind && a.isAbstract == b.isAbstract
    && a.isReadonly == b.isReadonly && a.type == b.type && a.owner == b.owner
    && a.hasBody == b.hasBody

instance : BEq Member := ⟨same⟩

/-- A concrete declaration that may be assigned and has a body. -/
def concrete (kind : MemberKind) (owner name : String) (type : MemberType) : Member :=
  { name, kind, isAbstract := false, isReadonly := false, type, owner, hasBody := true }

/-- The declaration as a mere requirement, which has no body. -/
def asAbstract (m : Member) : Member := { m with isAbstract := true, hasBody := false }

/-- The declaration as a member that may not be assigned. -/
def asReadonly (m : Member) : Member := { m with isReadonly := true }

/-- The declaration without its body. -/
def withoutBody (m : Member) : Member := { m with hasBody := false }

end Member

/-- Whether an ancestor is a base class or an interface. -/
inductive AncestorKind
  | baseClass
  | interface
  deriving DecidableEq

/-- An ancestor and the members that it declares. -/
structure Ancestor where
  /-- The name of the class or interface. -/
  name : String
  /-- Whether it is a class or an interface. -/
  kind : AncestorKind
  /-- Its members in the order of declaration. -/
  members : List Member

namespace Ancestor

/-- A base class. -/
def ofClass (name : String) (members : List Member) : Ancestor := ⟨name, .baseClass, members⟩

/-- An interface, all of whose members are requirements. -/
def ofInterface (name : String) (members : List Member) : Ancestor :=
  ⟨name, .interface, members.map Member.asAbstract⟩

end Ancestor

/-- A class to be checked. -/
structure ClassDecl where
  /-- The name of the class. -/
  name : String
  /-- Whether the class may leave requirements to its subclasses. -/
  isAbstract : Bool
  /-- Its own members in the order of declaration. -/
  members : List Member
  /-- All its ancestors, nearest first. -/
  ancestors : List Ancestor

namespace ClassDecl

/-- A concrete class without members and ancestors. -/
def empty (name : String) : ClassDecl := ⟨name, false, [], []⟩

/-- The class as an abstract one. -/
def asAbstract (c : ClassDecl) : ClassDecl := { c with isAbstract := true }

/-- The class with one more member at the end. -/
def addMember (c : ClassDecl) (m : Member) : ClassDecl := { c with members := c.members ++ [m] }

/-- The class with one more ancestor at the far end. -/
def addAncestor (c : ClassDecl) (a : Ancestor) : ClassDecl :=
  { c with ancestors := c.ancestors ++ [a] }

end ClassDecl

end ClassContract
