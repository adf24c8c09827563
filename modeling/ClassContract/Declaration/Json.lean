import ClassContract.Declaration.Basic
import ClassContract.MemberType.Json

/-!
# Declarations as JSON

Every record is written with all of its keys. When one is read, flags and lists may be left out.
-/

namespace ClassContract

namespace MemberKind

/-- The word that stands for a kind. -/
def word : MemberKind → String
  | .field => "field"
  | .method => "method"
  | .getAccessor => "getAccessor"
  | .setAccessor => "setAccessor"

/-- All kinds. -/
def all : List MemberKind := [.field, .method, .getAccessor, .setAccessor]

/-- A kind as JSON. -/
def toJson (k : MemberKind) : Json := .text k.word

/-- Read a kind. -/
def decoder : Decoder MemberKind := .choice (all.map fun k => (k.word, k))

end MemberKind

namespace Member

/-- A declaration as JSON. -/
def toJson (m : Member) : Json :=
  .record
    [("name", .text m.name), ("kind", m.kind.toJson), ("isAbstract", .bool m.isAbstract),
      ("isReadonly", .bool m.isReadonly), ("valueType", m.type.toJson),
      ("ownerClass", .text m.owner), ("hasBody", .bool m.hasBody)]

/-- Read a declaration. Without other words it is concrete, may be assigned and has a body. -/
def decoder : Decoder Member :=
  .record "Declaration" (concrete .field "" "" (.keyword .any))
    [.need "name" .text fun v m => { m with name := v },
      .need "kind" MemberKind.decoder fun v m => { m with kind := v },
      .may "isAbstract" .bool fun v m => { m with isAbstract := v },
      .may "isReadonly" .bool fun v m => { m with isReadonly := v },
      .need "valueType" MemberType.decoder fun v m => { m with type := v },
      .need "ownerClass" .text fun v m => { m with owner := v },
      .may "hasBody" .bool fun v m => { m with hasBody := v }]

end Member

namespace AncestorKind

/-- The word that stands for a kind of ancestor. -/
def word : AncestorKind → String
  | .baseClass => "class"
  | .interface => "interface"

/-- A kind of ancestor as JSON. -/
def toJson (k : AncestorKind) : Json := .text k.word

/-- Read a kind of ancestor. -/
def decoder : Decoder AncestorKind := .choice ([.baseClass, .interface].map fun k => (word k, k))

end AncestorKind

namespace Ancestor

/-- An ancestor as JSON. -/
def toJson (a : Ancestor) : Json :=
  .record
    [("name", .text a.name), ("kind", a.kind.toJson),
      ("members", .array (a.members.map Member.toJson))]

/-- Read an ancestor. Its members are taken as they stand, also those of an interface. -/
def decoder : Decoder Ancestor :=
  .record "Ancestor" (ofClass "" [])
    [.need "name" .text fun v a => { a with name := v },
      .may "kind" AncestorKind.decoder fun v a => { a with kind := v },
      .may "members" (.list Member.decoder) fun v a => { a with members := v }]

end Ancestor

namespace ClassDecl

/-- A class as JSON. -/
def toJson (c : ClassDecl) : Json :=
  .record
    [("name", .text c.name), ("isAbstract", .bool c.isAbstract),
      ("members", .array (c.members.map Member.toJson)),
      ("ancestors", .array (c.ancestors.map Ancestor.toJson))]

/-- Read a class. -/
def decoder : Decoder ClassDecl :=
  .record "ClassDeclaration" (empty "")
    [.need "name" .text fun v c => { c with name := v },
      .may "isAbstract" .bool fun v c => { c with isAbstract := v },
      .may "members" (.list Member.decoder) fun v c => { c with members := v },
      .may "ancestors" (.list Ancestor.decoder) fun v c => { c with ancestors := v }]

end ClassDecl

end ClassContract
