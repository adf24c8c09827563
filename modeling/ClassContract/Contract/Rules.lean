import ClassContract.Contract.Finding
import ClassContract.Contract.Requirement
import ClassContract.Options
import ClassContract.Scope.Basic

/-!
# The rules for one name

`Group.findings` applies all rules to the declarations of one name, in this order: a requirement
without any implementation, duplicates, kinds, assignment of readonly members, types, agreement of
getter and setter, bodies, and the two checks made on demand. An abstract class leaves to its
subclasses what a concrete class has to report as unimplemented. For a name reported as wholly
unimplemented only the rules about its own declarations follow, and members of a wrong kind are not
compared further.
-/

namespace ClassContract

/-- What a rule needs to know besides the declarations of the name. -/
structure Subject where
  /-- The name of the checked class. -/
  className : String
  /-- Whether the checked class is abstract. -/
  isAbstract : Bool
  /-- The options of the check. -/
  options : Options

namespace Subject

/-- The subject of a check of a class. -/
def ofClass (c : ClassDecl) (o : Options) : Subject := ⟨c.name, c.isAbstract, o⟩

/-- A broken contract of the member `name`. -/
def violation (s : Subject) (name : String) (code : Code) (declaredIn : Option String)
    (expected actual : Side) : Finding :=
  .violation ⟨name, code.category, code, s.className, declaredIn, expected, actual⟩

/-- The first declaration that collides with earlier ones. A getter and a setter go together; all
other declarations stand alone. -/
def firstCollision (earlier : List MemberKind) : List Member → Option Member
  | [] => none
  | m :: ms =>
    let collides := match m.kind with
      | .field | .method => !earlier.isEmpty
      | kind => earlier.any fun k => !k.isAccessor || k == kind
    if collides then some m else firstCollision (earlier ++ [m.kind]) ms

/-- Report the first collision among declarations. -/
def duplicates (s : Subject) (name : String) (ms : List Member) : List Finding :=
  match firstCollision [] ms with
  | some m => [s.violation name .duplicate none (.kind m.kind) (.count ms.length)]
  | none => []

/-- One half of a required property is missing: an abstract class leaves it to its subclasses, a
concrete class reports it. -/
def missingHalf (s : Subject) (name : String) (source : Member) (missing : MemberKind)
    (present : MemberKind) : List Finding :=
  if s.isAbstract then
    [.deferral
      { name := source.name, kind := missing, isAbstract := true, isReadonly := false,
        type := source.type, owner := source.owner, hasBody := false }]
  else
    [s.violation name .unimplemented (some source.owner) (.kind missing) (.kind present)]

/-- The missing half for the declaration that requires it, if there is one. -/
def missingHalf? (s : Subject) (name : String) (source : Option Member) (missing : MemberKind)
    (present : MemberKind) : List Finding :=
  match source with
  | some m => s.missingHalf name m missing present
  | none => []

/-- What the comparison of kinds says about the rules that follow. -/
inductive KindOutcome
  /-- All of them apply. -/
  | compatible
  /-- The getter is missing. -/
  | readHalfMissing
  /-- None of them applies. -/
  | mismatch
  deriving DecidableEq

/-- A member of another kind than required. -/
def kindMismatch (s : Subject) (name : String) (r : Requirement) (p : Provision) : List Finding :=
  [s.violation name .kindMismatch (some r.primary.owner) (.kind r.primary.kind) (.kind p.kind)]

/-- Compare the kind of a provision with the required kind. -/
def kinds (s : Subject) (name : String) (r : Requirement) (p : Provision) :
    KindOutcome × List Finding :=
  match r, p with
  | .method _, .method _ => (.compatible, [])
  | .property q, .field f =>
    if q.requiresWrite && f.isReadonly then
      (.compatible, s.missingHalf? name q.writeSource .setAccessor f.kind)
    else if !q.requiresRead && !s.options.fieldSatisfiesWriteOnly then
      (.mismatch, s.kindMismatch name r p)
    else (.compatible, [])
  | .property q, .accessors getter setter =>
    let readMissing := q.requiresRead && getter.isNone
    let writeMissing := q.requiresWrite && setter.isNone
    (if readMissing then .readHalfMissing else .compatible,
      (if readMissing then s.missingHalf? name q.readSource .getAccessor .setAccessor else [])
        ++ (if writeMissing then s.missingHalf? name q.writeSource .setAccessor .getAccessor
          else []))
  | _, _ => (.mismatch, s.kindMismatch name r p)

/-- The declaration that forbids assignment: a requirement of reading only comes before a constraint
of an ancestor. -/
def readOnlySource (r : Option Requirement) (constraint : Option Member) : Option Member :=
  ((r.filter (·.isReadOnly)).map (·.primary)).or constraint

/-- A provision that can be assigned where that is forbidden. -/
def readonly (s : Subject) (name : String) (r : Option Requirement) (constraint : Option Member)
    (p : Provision) : List Finding :=
  match readOnlySource r constraint, p.writer with
  | some source, some writer =>
    [s.violation name .readonlyViolation (some source.owner) (.kind source.kind)
      (.kind writer.kind)]
  | _, _ => []

/-- Two types that have to be related, and the verdict on whether they are. -/
structure Comparison where
  /-- The required type. -/
  expected : MemberType
  /-- The type that was found. -/
  actual : MemberType
  /-- Whether they are related as required. -/
  verdict : Verdict

/-- A reader of the actual type gets a value of the expected one. -/
def reads (expected actual : MemberType) : Comparison :=
  ⟨expected, actual, actual.assignabilityVerdict expected⟩

/-- A value of the expected type may be stored in the actual one. -/
def stores (expected actual : MemberType) : Comparison :=
  ⟨expected, actual, expected.assignabilityVerdict actual⟩

/-- Both types are the same after widening. -/
def agrees (expected actual : MemberType) : Comparison :=
  ⟨expected, actual, actual.widen.identityVerdict expected.widen⟩

/-- The comparisons that a provision of the required kind has to pass, in order. A readonly field is
only read and a getter too, a setter only stores, and any other field does both. -/
def comparisons : Requirement → Provision → List Comparison
  | .method required, .method m => [reads required.type m.type]
  | .property q, .field f =>
    if f.isReadonly then q.readType.toList.map (reads · f.type)
    else (q.readType.or q.writeType).toList.map (agrees · f.type)
  | .property q, .accessors getter setter =>
    ((q.readType.toList.zip getter.toList).map fun (t, m) => reads t m.type)
      ++ (q.writeType.toList.zip setter.toList).map fun (t, m) => stores t m.type
  | _, _ => []

/-- Report the first comparison that fails; what comes after it is not looked at. -/
def firstMismatch (report : MemberType → MemberType → Finding) : List Comparison → List Finding
  | [] => []
  | c :: cs =>
    Finding.ofCutOffs c.verdict
      ++ if c.verdict.holds then firstMismatch report cs else [report c.expected c.actual]

/-- The type of a provision does not fit the required one. -/
def types (s : Subject) (name : String) (r : Requirement) (p : Provision) : List Finding :=
  firstMismatch
    (fun expected actual =>
      s.violation name .typeMismatch (some r.primary.owner) (.type expected) (.type actual))
    (comparisons r p)

/-- The verdict on whether a getter and a setter of one name have the same type after widening. -/
def pairVerdict (ms : List Member) : Option (Member × Member × Verdict) :=
  match firstOfKind .getAccessor ms, firstOfKind .setAccessor ms with
  | some g, some t => some (g, t, g.type.widen.identityVerdict t.type.widen)
  | _, _ => none

/-- A getter and a setter that disagree; also whether they do. -/
def accessorPair (s : Subject) (name : String) (ms : List Member) : Bool × List Finding :=
  match pairVerdict ms with
  | some (g, t, v) =>
    (!v.holds, Finding.ofCutOffs v
      ++ if v.holds then []
        else [s.violation name .accessorTypeMismatch none (.type g.type) (.type t.type)])
  | none => (false, [])

/-- Implementations that lack a body. -/
def bodies (s : Subject) (name : String) (ownConcrete : List Member) : List Finding :=
  (ownConcrete.filter fun m => m.kind.requiresBody && !m.hasBody).map fun m =>
    s.violation name .missingBody none (.kind m.kind) .none

/-- Abstract members of a concrete class. -/
def abstractMembers (s : Subject) (name : String) (ownAbstract : List Member) : List Finding :=
  if s.options.reportAbstractInConcrete && !s.isAbstract then
    ownAbstract.map fun m => s.violation name .abstractInConcrete none (.kind m.kind) .none
  else []

/-- Whether a kind occurs among declarations. -/
def hasKind (ms : List Member) (kind : MemberKind) : Bool := ms.any (·.kind == kind)

/-- One accessor is only abstract and the other only concrete. -/
def splitAccessors (ownAbstract ownConcrete : List Member) (half other : MemberKind) : Bool :=
  hasKind ownAbstract half && !hasKind ownAbstract other
    && hasKind ownConcrete other && !hasKind ownConcrete half

/-- Accessors of one name of which only one is abstract. -/
def accessorAbstractness (s : Subject) (name : String) (ownAbstract ownConcrete : List Member) :
    List Finding :=
  let report := fun half other =>
    [s.violation name .accessorAbstractness none (.kind half) (.kind other)]
  if !s.options.reportAccessorAbstractness then []
  else if splitAccessors ownAbstract ownConcrete .getAccessor .setAccessor then
    report .getAccessor .setAccessor
  else if splitAccessors ownAbstract ownConcrete .setAccessor .getAccessor then
    report .setAccessor .getAccessor
  else []

/-- The two checks made on demand. -/
def onDemand (s : Subject) (name : String) (ownAbstract ownConcrete : List Member) : List Finding :=
  s.abstractMembers name ownAbstract ++ s.accessorAbstractness name ownAbstract ownConcrete

/-- A provision against the requirement and the constraint for its name. -/
def provision (s : Subject) (name : String) (r : Option Requirement) (constraint : Option Member)
    (p : Provision) : List Finding :=
  match r with
  | none => s.readonly name none constraint p
  | some r =>
    match s.kinds name r p with
    | (.compatible, found) =>
      found ++ s.readonly name (some r) constraint p ++ s.types name r p
    | (.readHalfMissing, found) =>
      found ++ (if s.isAbstract then s.readonly name (some r) constraint p else [])
        ++ s.types name r p
    | (.mismatch, found) => found

/-- The agreement of getters and setters, reported at most once. -/
def accessorPairs (s : Subject) (name : String) (ownAbstract ownConcrete : List Member) :
    List Finding :=
  match s.accessorPair name ownAbstract with
  | (true, found) => found
  | (false, found) => found ++ (s.accessorPair name ownConcrete).2

/-- The rules for a name that has an implementation or needs none. -/
def fullCheck (s : Subject) (name : String) (r : Option Requirement) (constraint : Option Member)
    (ownAbstract ownConcrete : List Member) : List Finding :=
  s.duplicates name ownAbstract ++ s.duplicates name ownConcrete
    ++ (match Provision.ofMembers? ownConcrete with
      | some p => s.provision name r constraint p
      | none => [])
    ++ s.accessorPairs name ownAbstract ownConcrete
    ++ s.bodies name ownConcrete
    ++ s.onDemand name ownAbstract ownConcrete

/-- The rules for a name that a concrete class leaves wholly unimplemented. -/
def unimplemented (s : Subject) (name : String) (r : Requirement) (ownAbstract : List Member) :
    List Finding :=
  [s.violation name .unimplemented (some r.primary.owner) (.kind r.primary.kind) .none]
    ++ s.duplicates name ownAbstract ++ (s.accessorPair name ownAbstract).2
    ++ s.onDemand name ownAbstract []

end Subject

namespace Group

/-- What is required under a name: abstract declarations of the class itself replace those of its
ancestors. -/
def requirement? (g : Group) : Option Requirement :=
  Requirement.ofMembers? (if g.ownAbstract.isEmpty then g.inheritedAbstract else g.ownAbstract)

/-- The findings of all rules for one name. -/
def findings (s : Subject) (g : Group) : List Finding :=
  let full :=
    s.fullCheck g.name g.requirement? g.inheritedConstraints.head? g.ownAbstract g.ownConcrete
  .examined g.name g.ownAbstract.length g.ownConcrete.length g.requirement?.isSome ::
    match g.requirement? with
    | none => full
    | some r =>
      if !g.ownConcrete.isEmpty then full
      else if s.isAbstract then r.members.map .deferral ++ full
      else s.unimplemented g.name r g.ownAbstract

end Group

end ClassContract
