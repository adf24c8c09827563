import ClassContract.Declaration.Basic

/-!
# The scope of a class

The scope of a class lists, for every name, the declarations that matter for that name: first what
the nearest ancestor that mentions the name passes on, then the members of the class itself. An
ancestor passes on its abstract members and those that forbid assignment. It speaks for all names
among its members, also where it passes nothing on, so that farther ancestors are not heard.
-/

namespace ClassContract

/-- Where an entry of a scope comes from. -/
inductive Origin
  /-- Declared by the class itself. -/
  | own
  /-- Passed on by the named ancestor. -/
  | inherited (ancestor : String)
  deriving DecidableEq

/-- A declaration in scope. -/
structure Entry where
  /-- The declaration. -/
  member : Member
  /-- Where it comes from. -/
  origin : Origin

namespace Entry

/-- Whether the class itself made the declaration. -/
def isOwn (e : Entry) : Bool := e.origin = .own

/-- Whether the declaration is abstract. -/
def isAbstract (e : Entry) : Bool := e.member.isAbstract

/-- An abstract declaration of the class itself. -/
def isOwnAbstract (e : Entry) : Bool := e.isOwn && e.isAbstract

/-- An implementation by the class itself. -/
def isOwnConcrete (e : Entry) : Bool := e.isOwn && !e.isAbstract

/-- An abstract declaration of an ancestor. -/
def isInheritedAbstract (e : Entry) : Bool := !e.isOwn && e.isAbstract

/-- A declaration of an ancestor that forbids assignment and requires nothing. -/
def isInheritedConstraint (e : Entry) : Bool := !e.isOwn && !e.isAbstract

/-- The ancestor that passed the declaration on. -/
def ancestor? (e : Entry) : Option String :=
  match e.origin with
  | .own => none
  | .inherited a => some a

end Entry

/-- All declarations in scope under one name. -/
structure Group where
  /-- The name. -/
  name : String
  /-- The declarations, inherited ones first. -/
  entries : List Entry

namespace Group

/-- Up to this many entries a group is of common size. -/
def commonSize : Nat := 4

/-- The members of the entries that pass a test. -/
def select (g : Group) (p : Entry → Bool) : List Member := (g.entries.filter p).map (·.member)

/-- The positions of the entries that pass a test. -/
def positions (g : Group) (p : Entry → Bool) : List Nat :=
  (List.range g.entries.length).filter fun i => (g.entries[i]?).any p

/-- Abstract declarations of the class itself. -/
def ownAbstract (g : Group) : List Member := g.select Entry.isOwnAbstract

/-- Implementations by the class itself. -/
def ownConcrete (g : Group) : List Member := g.select Entry.isOwnConcrete

/-- Abstract declarations of ancestors. -/
def inheritedAbstract (g : Group) : List Member := g.select Entry.isInheritedAbstract

/-- Declarations of ancestors that forbid assignment and require nothing. -/
def inheritedConstraints (g : Group) : List Member := g.select Entry.isInheritedConstraint

/-- Whether any declaration is abstract. -/
def hasAbstract (g : Group) : Bool := g.entries.any (·.isAbstract)

/-- Whether the class itself has an implementation. -/
def hasOwnConcrete (g : Group) : Bool := g.entries.any Entry.isOwnConcrete

end Group

namespace Ancestor

/-- A declaration that forbids assignment in subclasses: a readonly field, or a getter without a
setter of the same name beside it. -/
def forbidsWriting (a : Ancestor) (m : Member) : Bool :=
  match m.kind with
  | .field => m.isReadonly
  | .getAccessor => !a.members.any fun other => other.name == m.name && other.kind == .setAccessor
  | .method | .setAccessor => false

/-- What an ancestor passes on, names apart that a nearer ancestor speaks for. -/
def passedOn (a : Ancestor) (taken : List String) : List Member :=
  a.members.filter fun m => !taken.contains m.name && (m.isAbstract || a.forbidsWriting m)

end Ancestor

namespace ClassDecl

/-- The entries that ancestors contribute, given the names that nearer ones speak for. -/
def inheritedEntries (taken : List String) : List Ancestor → List Entry
  | [] => []
  | a :: farther =>
    (a.passedOn taken).map (⟨·, .inherited a.name⟩)
      ++ inheritedEntries (taken ++ a.members.map (·.name)) farther

/-- All entries in scope: those of the ancestors, nearest first, then those of the class. -/
def entries (c : ClassDecl) : List Entry :=
  inheritedEntries [] c.ancestors ++ c.members.map (⟨·, .own⟩)

/-- The names in scope, in the order of their first entries. -/
def names (c : ClassDecl) : List String := distinct (c.entries.map (·.member.name))

/-- The entries in scope under a name. -/
def groupOf (c : ClassDecl) (name : String) : Group :=
  ⟨name, c.entries.filter (·.member.name == name)⟩

/-- The groups of a class, one for each name in scope. -/
def scope (c : ClassDecl) : List Group := c.names.map c.groupOf

/-- The group of a name in scope. -/
def group? (c : ClassDecl) (name : String) : Option Group := c.scope.find? (·.name == name)

end ClassDecl

end ClassContract
