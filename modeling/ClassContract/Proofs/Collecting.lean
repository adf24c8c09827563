import ClassContract.Proofs.Interchange
import ClassContract.Proofs.PerName
import ClassContract.Proofs.ScopeTable

/-!
# Collecting findings

A check may also be seen as a run in which every rule is handed what has been collected so far and
adds to it: a violation is appended, and a requirement that is left to subclasses is appended unless
an equal one is there. Rule by rule, from `checkDuplicates_eq` to `checkGroup_eq`, what a rule adds
is what it finds on its own: what is there already decides nothing else. So names may be checked one
after the other on one collection, in any order and repeatedly: the violations are those of the
names one by one, and what is left to subclasses is the same without later repetitions.
`checkNames_collects` says this, and that a report is what such a run over the scope collects.
-/

namespace ClassContract

open Finding

/-- What has been collected in the course of a check. -/
@[ext] structure Collected where
  /-- The violations, in the order in which they were found. -/
  violations : List Violation
  /-- What is left to subclasses. -/
  pending : List Member

namespace Collected

/-- The collection that a check begins with. -/
def empty : Collected := ⟨[], []⟩

/-- Add a finding. Findings that only tell how others were reached leave no trace. -/
def add (k : Collected) : Finding → Collected
  | .violation v => { k with violations := k.violations ++ [v] }
  | .deferral m => { k with pending := addNew k.pending m }
  | .examined .. | .cutOff _ => k

/-- Add findings in order. -/
def addAll (k : Collected) (fs : List Finding) : Collected := fs.foldl add k

/-- Findings can be added in two runs. -/
theorem addAll_append (k : Collected) (fs gs : List Finding) :
    k.addAll (fs ++ gs) = (k.addAll fs).addAll gs := List.foldl_append

/-- A finding adds its violation, if it is one, at the end. -/
theorem violations_add (k : Collected) (f : Finding) :
    (k.add f).violations = k.violations ++ Finding.violations [f] := by
  cases f with
  | violation v => rfl
  | deferral m => exact (List.append_nil _).symm
  | examined => exact (List.append_nil _).symm
  | cutOff c => exact (List.append_nil _).symm

/-- A finding adds what it leaves to subclasses, unless that is there. -/
theorem pending_add (k : Collected) (f : Finding) :
    (k.add f).pending = addAllNew k.pending (deferrals [f]) := by
  cases f <;> rfl

/-- What findings add does not depend on the collection, except that no requirement is repeated. -/
theorem addAll_eq (k : Collected) (fs : List Finding) :
    k.addAll fs = ⟨k.violations ++ Finding.violations fs, addAllNew k.pending (deferrals fs)⟩ := by
  induction fs generalizing k with
  | nil => exact Collected.ext (List.append_nil _).symm rfl
  | cons f fs ih =>
    have hstep : k.addAll (f :: fs) = (k.add f).addAll fs := rfl
    have hviolations : Finding.violations (f :: fs) =
        Finding.violations [f] ++ Finding.violations fs := violations_append [f] fs
    have hdeferrals : deferrals (f :: fs) = deferrals [f] ++ deferrals fs :=
      deferrals_append [f] fs
    rw [hstep, ih, violations_add, pending_add, hviolations, hdeferrals, List.append_assoc,
      addAllNew_append]

/-- Report a broken contract of the member `name`. -/
def report (k : Collected) (s : Subject) (name : String) (code : Code) (declaredIn : Option String)
    (expected actual : Side) : Collected :=
  { k with violations := k.violations ++
      [⟨name, code.category, code, s.className, declaredIn, expected, actual⟩] }

/-- Leave a requirement to subclasses, unless an equal one has been left to them already. -/
def defer (k : Collected) (m : Member) : Collected := { k with pending := addNew k.pending m }

/-- Leave one half of a property to subclasses, under the owner of the declaration that requires
it. -/
def deferHalf (k : Collected) (source : Member) (kind : MemberKind) (type : MemberType) : Collected :=
  k.defer
    { name := source.name, kind := kind, isAbstract := true, isReadonly := false, type := type,
      owner := source.owner, hasBody := false }

/-- Report the first collision among declarations. -/
def checkDuplicates (k : Collected) (s : Subject) (name : String) (ms : List Member) : Collected :=
  match Subject.firstCollision [] ms with
  | some m => k.report s name .duplicate none (.kind m.kind) (.count ms.length)
  | none => k

/-- One half of a required property is missing: an abstract class leaves it to its subclasses, a
concrete class reports it. -/
def missingHalf (k : Collected) (s : Subject) (name : String) (source : Member)
    (missing present : MemberKind) : Collected :=
  if s.isAbstract then k.deferHalf source missing source.type
  else k.report s name .unimplemented (some source.owner) (.kind missing) (.kind present)

/-- The missing half for the declaration that requires it, if there is one. -/
def missingHalf? (k : Collected) (s : Subject) (name : String) (source : Option Member)
    (missing present : MemberKind) : Collected :=
  match source with
  | some m => k.missingHalf s name m missing present
  | none => k

/-- Report a member of another kind than required. -/
def kindMismatch (k : Collected) (s : Subject) (name : String) (r : Requirement) (p : Provision) :
    Collected :=
  k.report s name .kindMismatch (some r.primary.owner) (.kind r.primary.kind) (.kind p.kind)

/-- Compare the kind of a provision with the required kind. -/
def checkKinds (k : Collected) (s : Subject) (name : String) (r : Requirement) (p : Provision) :
    Subject.KindOutcome × Collected :=
  match r, p with
  | .method _, .method _ => (.compatible, k)
  | .property q, .field f =>
    if q.requiresWrite && f.isReadonly then
      (.compatible, k.missingHalf? s name q.writeSource .setAccessor f.kind)
    else if !q.requiresRead && !s.options.fieldSatisfiesWriteOnly then
      (.mismatch, k.kindMismatch s name r p)
    else (.compatible, k)
  | .property q, .accessors getter setter =>
    let (outcome, read) :=
      if q.requiresRead && getter.isNone then
        (.readHalfMissing, k.missingHalf? s name q.readSource .getAccessor .setAccessor)
      else (.compatible, k)
    (outcome,
      if q.requiresWrite && setter.isNone then
        read.missingHalf? s name q.writeSource .setAccessor .getAccessor
      else read)
  | _, _ => (.mismatch, k.kindMismatch s name r p)

/-- Report a provision that can be assigned where that is forbidden. -/
def checkReadonly (k : Collected) (s : Subject) (name : String) (r : Option Requirement)
    (constraint : Option Member) (p : Provision) : Collected :=
  match Subject.readOnlySource r constraint, p.writer with
  | some source, some writer =>
    k.report s name .readonlyViolation (some source.owner) (.kind source.kind) (.kind writer.kind)
  | _, _ => k

/-- Report the first type of a provision that does not fit the required one. -/
def checkTypes (k : Collected) (s : Subject) (name : String) (r : Requirement) (p : Provision) :
    Collected :=
  match (Subject.comparisons r p).find? (!·.verdict.holds) with
  | some c =>
    k.report s name .typeMismatch (some r.primary.owner) (.type c.expected) (.type c.actual)
  | none => k

/-- Report a getter and a setter that disagree; also whether they do. -/
def checkAccessorPair (k : Collected) (s : Subject) (name : String) (ms : List Member) :
    Bool × Collected :=
  match Subject.pairVerdict ms with
  | some (g, t, v) =>
    if v.holds then (false, k)
    else (true, k.report s name .accessorTypeMismatch none (.type g.type) (.type t.type))
  | none => (false, k)

/-- Report implementations that lack a body. -/
def checkBodies (k : Collected) (s : Subject) (name : String) (ownConcrete : List Member) :
    Collected :=
  ownConcrete.foldl (fun k m =>
    if m.kind.requiresBody && !m.hasBody then k.report s name .missingBody none (.kind m.kind) .none
    else k) k

/-- Report abstract members of a concrete class. -/
def checkAbstractMembers (k : Collected) (s : Subject) (name : String) (ownAbstract : List Member) :
    Collected :=
  if s.options.reportAbstractInConcrete && !s.isAbstract then
    ownAbstract.foldl (fun k m => k.report s name .abstractInConcrete none (.kind m.kind) .none) k
  else k

/-- Report accessors of one name of which only one is abstract. -/
def checkAbstractness (k : Collected) (s : Subject) (name : String)
    (ownAbstract ownConcrete : List Member) : Collected :=
  if !s.options.reportAccessorAbstractness then k
  else if Subject.splitAccessors ownAbstract ownConcrete .getAccessor .setAccessor then
    k.report s name .accessorAbstractness none (.kind .getAccessor) (.kind .setAccessor)
  else if Subject.splitAccessors ownAbstract ownConcrete .setAccessor .getAccessor then
    k.report s name .accessorAbstractness none (.kind .setAccessor) (.kind .getAccessor)
  else k

/-- The two checks made on demand. -/
def checkOnDemand (k : Collected) (s : Subject) (name : String)
    (ownAbstract ownConcrete : List Member) : Collected :=
  (k.checkAbstractMembers s name ownAbstract).checkAbstractness s name ownAbstract ownConcrete

/-- Check a provision against the requirement and the constraint for its name. -/
def checkProvision (k : Collected) (s : Subject) (name : String) (r : Option Requirement)
    (constraint : Option Member) (p : Provision) : Collected :=
  match r with
  | none => k.checkReadonly s name none constraint p
  | some r =>
    match k.checkKinds s name r p with
    | (.compatible, k) => (k.checkReadonly s name (some r) constraint p).checkTypes s name r p
    | (.readHalfMissing, k) =>
      (if s.isAbstract then k.checkReadonly s name (some r) constraint p else k).checkTypes
        s name r p
    | (.mismatch, k) => k

/-- Check the agreement of getters and setters; it is reported at most once. -/
def checkAccessorPairs (k : Collected) (s : Subject) (name : String)
    (ownAbstract ownConcrete : List Member) : Collected :=
  match k.checkAccessorPair s name ownAbstract with
  | (true, k) => k
  | (false, k) => (k.checkAccessorPair s name ownConcrete).2

/-- Apply the rules to a name that has an implementation or needs none. -/
def checkFully (k : Collected) (s : Subject) (name : String) (r : Option Requirement)
    (constraint : Option Member) (ownAbstract ownConcrete : List Member) : Collected :=
  let k := (k.checkDuplicates s name ownAbstract).checkDuplicates s name ownConcrete
  let k := match Provision.ofMembers? ownConcrete with
    | some p => k.checkProvision s name r constraint p
    | none => k
  ((k.checkAccessorPairs s name ownAbstract ownConcrete).checkBodies s name ownConcrete).checkOnDemand
    s name ownAbstract ownConcrete

/-- Apply the rules to a name that a concrete class leaves wholly unimplemented. -/
def checkUnimplemented (k : Collected) (s : Subject) (name : String) (r : Requirement)
    (ownAbstract : List Member) : Collected :=
  let k := k.report s name .unimplemented (some r.primary.owner) (.kind r.primary.kind) .none
  ((k.checkDuplicates s name ownAbstract).checkAccessorPair s name ownAbstract).2.checkOnDemand
    s name ownAbstract []

/-- Apply the rules to a name, one after the other. -/
def checkGroup (s : Subject) (k : Collected) (g : Group) : Collected :=
  let full := fun k : Collected =>
    k.checkFully s g.name g.requirement? g.inheritedConstraints.head? g.ownAbstract g.ownConcrete
  match g.requirement? with
  | none => full k
  | some r =>
    if !g.ownConcrete.isEmpty then full k
    else if s.isAbstract then full (r.members.foldl defer k)
    else k.checkUnimplemented s g.name r g.ownAbstract

section Frame

variable (k : Collected) (s : Subject) (name : String)

/-- A report adds a violation. -/
theorem report_eq (code : Code) (declaredIn : Option String) (expected actual : Side) :
    k.report s name code declaredIn expected actual =
      k.addAll [s.violation name code declaredIn expected actual] := rfl

/-- Requirements are left to subclasses one after the other. -/
theorem foldl_defer_eq (ms : List Member) : ms.foldl defer k = k.addAll (ms.map .deferral) := by
  rw [addAll, List.foldl_map]
  rfl

/-- What only tells how a finding was reached adds nothing. -/
theorem addAll_ofCutOffs (v : Verdict) : k.addAll (ofCutOffs v) = k := by
  rw [ofCutOffs, addAll, List.foldl_map]
  exact List.foldl_fixed' (fun _ => rfl) _

/-- Nothing or one report. -/
theorem checkDuplicates_eq (ms : List Member) :
    k.checkDuplicates s name ms = k.addAll (s.duplicates name ms) := by
  unfold checkDuplicates Subject.duplicates
  cases Subject.firstCollision [] ms <;> rfl

/-- A missing half is left to subclasses or reported, whatever has been collected. -/
theorem missingHalf_eq (source : Member) (missing present : MemberKind) :
    k.missingHalf s name source missing present =
      k.addAll (s.missingHalf name source missing present) := by
  unfold missingHalf Subject.missingHalf
  split <;> rfl

/-- Nothing is missing where no declaration requires the half. -/
theorem missingHalf?_eq (source : Option Member) (missing present : MemberKind) :
    k.missingHalf? s name source missing present =
      k.addAll (s.missingHalf? name source missing present) := by
  cases source with
  | none => rfl
  | some m => exact k.missingHalf_eq s name m missing present

/-- Comparing kinds comes to the same outcome, whatever has been collected. -/
theorem checkKinds_eq (r : Requirement) (p : Provision) :
    k.checkKinds s name r p = ((s.kinds name r p).1, k.addAll (s.kinds name r p).2) := by
  cases r with
  | method m => cases p <;> rfl
  | property q =>
    cases p with
    | method m => rfl
    | field f =>
      unfold checkKinds Subject.kinds
      dsimp only
      split
      · rw [missingHalf?_eq]
      · split <;> rfl
    | accessors getter setter =>
      unfold checkKinds Subject.kinds
      dsimp only
      rw [addAll_append]
      cases q.requiresRead && getter.isNone <;> cases q.requiresWrite && setter.isNone <;>
        simp only [missingHalf?_eq, Bool.false_eq_true, if_false, if_true] <;> rfl

/-- A provision that can be assigned is reported once or not at all. -/
theorem checkReadonly_eq (r : Option Requirement) (constraint : Option Member) (p : Provision) :
    k.checkReadonly s name r constraint p = k.addAll (s.readonly name r constraint p) := by
  unfold checkReadonly Subject.readonly
  cases Subject.readOnlySource r constraint <;> cases p.writer <;> rfl

/-- The first comparison that fails is reported. -/
theorem addAll_firstMismatch (report : MemberType → MemberType → Finding)
    (cs : List Subject.Comparison) :
    k.addAll (Subject.firstMismatch report cs) =
      match cs.find? (!·.verdict.holds) with
      | some c => k.add (report c.expected c.actual)
      | none => k := by
  induction cs with
  | nil => rfl
  | cons c cs ih =>
    rw [Subject.firstMismatch, addAll_append, addAll_ofCutOffs, List.find?_cons]
    cases c.verdict.holds with
    | true => exact ih
    | false => rfl

/-- Of the types of a provision at most one is reported. -/
theorem checkTypes_eq (r : Requirement) (p : Provision) :
    k.checkTypes s name r p = k.addAll (s.types name r p) := by
  rw [Subject.types, addAll_firstMismatch]
  rfl

/-- Comparing a getter with a setter comes to the same outcome, whatever has been collected. -/
theorem checkAccessorPair_eq (ms : List Member) :
    k.checkAccessorPair s name ms =
      ((s.accessorPair name ms).1, k.addAll (s.accessorPair name ms).2) := by
  unfold checkAccessorPair Subject.accessorPair
  cases Subject.pairVerdict ms with
  | none => rfl
  | some pair =>
    obtain ⟨g, t, v⟩ := pair
    dsimp only
    rw [addAll_append, addAll_ofCutOffs]
    cases v.holds <;> rfl

/-- Getters and setters are reported at most once, whatever has been collected. -/
theorem checkAccessorPairs_eq (ownAbstract ownConcrete : List Member) :
    k.checkAccessorPairs s name ownAbstract ownConcrete =
      k.addAll (s.accessorPairs name ownAbstract ownConcrete) := by
  unfold checkAccessorPairs Subject.accessorPairs
  rw [checkAccessorPair_eq]
  cases s.accessorPair name ownAbstract with
  | mk disagree found =>
    cases disagree with
    | true => rfl
    | false =>
      dsimp only
      rw [checkAccessorPair_eq, addAll_append]

/-- Every implementation that lacks a body is reported. -/
theorem checkBodies_eq (ownConcrete : List Member) :
    k.checkBodies s name ownConcrete = k.addAll (s.bodies name ownConcrete) := by
  rw [checkBodies, Subject.bodies, addAll, List.foldl_map, List.foldl_filter]
  rfl

/-- Every abstract member of a concrete class is reported on demand. -/
theorem checkAbstractMembers_eq (ownAbstract : List Member) :
    k.checkAbstractMembers s name ownAbstract = k.addAll (s.abstractMembers name ownAbstract) := by
  unfold checkAbstractMembers Subject.abstractMembers
  split
  · rw [addAll, List.foldl_map]
    rfl
  · rfl

/-- Accessors of which one is abstract are reported on demand, once. -/
theorem checkAbstractness_eq (ownAbstract ownConcrete : List Member) :
    k.checkAbstractness s name ownAbstract ownConcrete =
      k.addAll (s.accessorAbstractness name ownAbstract ownConcrete) := by
  unfold checkAbstractness Subject.accessorAbstractness
  dsimp only
  split
  · rfl
  · split
    · rfl
    · split <;> rfl

/-- The checks made on demand follow one another. -/
theorem checkOnDemand_eq (ownAbstract ownConcrete : List Member) :
    k.checkOnDemand s name ownAbstract ownConcrete =
      k.addAll (s.onDemand name ownAbstract ownConcrete) := by
  rw [checkOnDemand, checkAbstractness_eq, checkAbstractMembers_eq, Subject.onDemand, addAll_append]

/-- The outcome of comparing kinds decides which rules follow, and it does not depend on what has
been collected. -/
theorem checkProvision_eq (r : Option Requirement) (constraint : Option Member) (p : Provision) :
    k.checkProvision s name r constraint p = k.addAll (s.provision name r constraint p) := by
  cases r with
  | none => exact k.checkReadonly_eq s name none constraint p
  | some r =>
    unfold checkProvision Subject.provision
    dsimp only
    rw [checkKinds_eq]
    cases s.kinds name r p with
    | mk outcome found =>
      cases outcome with
      | compatible =>
        dsimp only
        rw [checkReadonly_eq, checkTypes_eq, addAll_append, addAll_append]
      | readHalfMissing =>
        dsimp only
        rw [checkTypes_eq, addAll_append, addAll_append]
        split
        · rw [checkReadonly_eq]
        · rfl
      | mismatch => rfl

/-- The rules for a name that has an implementation or needs none follow one another. -/
theorem checkFully_eq (r : Option Requirement) (constraint : Option Member)
    (ownAbstract ownConcrete : List Member) :
    k.checkFully s name r constraint ownAbstract ownConcrete =
      k.addAll (s.fullCheck name r constraint ownAbstract ownConcrete) := by
  unfold checkFully Subject.fullCheck
  dsimp only
  rw [checkOnDemand_eq, checkBodies_eq, checkAccessorPairs_eq, checkDuplicates_eq,
    checkDuplicates_eq]
  simp only [addAll_append]
  cases Provision.ofMembers? ownConcrete with
  | none => rfl
  | some p =>
    dsimp only
    rw [checkProvision_eq]

/-- The rules for a name that is wholly unimplemented follow one another. -/
theorem checkUnimplemented_eq (r : Requirement) (ownAbstract : List Member) :
    k.checkUnimplemented s name r ownAbstract =
      k.addAll (s.unimplemented name r ownAbstract) := by
  unfold checkUnimplemented Subject.unimplemented
  dsimp only
  rw [checkOnDemand_eq, checkAccessorPair_eq, checkDuplicates_eq, report_eq]
  simp only [addAll_append]

/-- The rules for a name add its findings, whatever has been collected before. -/
theorem checkGroup_eq (g : Group) : k.checkGroup s g = k.addAll (g.findings s) := by
  have hexamined : ∀ n a c r fs, k.addAll (.examined n a c r :: fs) = k.addAll fs :=
    fun _ _ _ _ _ => rfl
  unfold checkGroup Group.findings
  dsimp only
  rw [hexamined]
  cases g.requirement? with
  | none => exact k.checkFully_eq ..
  | some r =>
    dsimp only
    split
    · exact k.checkFully_eq ..
    · split
      · rw [checkFully_eq, foldl_defer_eq, addAll_append]
      · exact k.checkUnimplemented_eq ..

end Frame

end Collected

namespace ClassDecl

/-- Check a name of a class. What is not in scope is passed over. -/
def checkName (c : ClassDecl) (o : Options) (k : Collected) (name : String) : Collected :=
  (c.group? name).elim k (k.checkGroup (.ofClass c o))

/-- Check names of a class one after the other. -/
def checkNames (c : ClassDecl) (o : Options) (k : Collected) (names : List String) : Collected :=
  names.foldl (c.checkName o) k

/-- What checking names collects from the beginning. -/
def collected (c : ClassDecl) (o : Options) (names : List String) : Collected :=
  c.checkNames o .empty names

/-- The findings about a name, if it is in scope. -/
def findingsFor (c : ClassDecl) (o : Options) (name : String) : List Finding :=
  (c.group? name).elim [] (·.findings (.ofClass c o))

/-- Checking a name adds its findings. -/
theorem checkName_eq (c : ClassDecl) (o : Options) (k : Collected) (name : String) :
    c.checkName o k name = k.addAll (c.findingsFor o name) := by
  unfold checkName findingsFor
  cases c.group? name with
  | none => rfl
  | some g => exact k.checkGroup_eq _ g

/-- Names add their findings one after the other. -/
theorem checkNames_eq (c : ClassDecl) (o : Options) (k : Collected) (names : List String) :
    c.checkNames o k names = k.addAll (names.flatMap (c.findingsFor o)) := by
  induction names generalizing k with
  | nil => rfl
  | cons name names ih =>
    have hstep : c.checkNames o k (name :: names) = c.checkNames o (c.checkName o k name) names :=
      rfl
    rw [hstep, ih, checkName_eq, List.flatMap_cons, Collected.addAll_append]

/-- From the beginning, names collect the violations and the pending requirements of their findings.
-/
theorem collected_eq (c : ClassDecl) (o : Options) (names : List String) :
    c.collected o names =
      ⟨violations (names.flatMap (c.findingsFor o)), pending (names.flatMap (c.findingsFor o))⟩ := by
  rw [collected, checkNames_eq, Collected.addAll_eq]
  rfl

/-- Checking names only appends, and what it appends depends on the collection only in so far as no
requirement is repeated. -/
theorem checkNames_onto (c : ClassDecl) (o : Options) (k : Collected) (names : List String) :
    c.checkNames o k names =
      ⟨k.violations ++ (c.collected o names).violations,
        k.pending ++ (c.collected o names).pending.filter (!k.pending.contains ·)⟩ := by
  rw [checkNames_eq, Collected.addAll_eq, collected_eq, addAllNew_eq_append_filter]
  rfl

/-- The violations of several names are those of each in turn. -/
theorem violations_collected (c : ClassDecl) (o : Options) (names : List String) :
    (c.collected o names).violations =
      names.flatMap fun name => (c.collected o [name]).violations := by
  simp only [collected_eq, List.flatMap_singleton]
  exact List.filterMap_flatMap

/-- What several names leave to subclasses is what each leaves to them, without repetitions. -/
theorem pending_collected (c : ClassDecl) (o : Options) (names : List String) :
    (c.collected o names).pending =
      distinct (names.flatMap fun name => (c.collected o [name]).pending) := by
  simp only [collected_eq, List.flatMap_singleton]
  have hdeferrals : deferrals (names.flatMap (c.findingsFor o)) =
      names.flatMap fun name => deferrals (c.findingsFor o name) := List.filterMap_flatMap
  calc pending (names.flatMap (c.findingsFor o))
      = distinct (names.flatMap fun name => deferrals (c.findingsFor o name)) := by
        rw [← hdeferrals]
        rfl
    _ = distinct (names.flatMap fun name => distinct (deferrals (c.findingsFor o name))) :=
        (addAllNew_flatMap_distinct _ [] names).symm

/-- What a name leaves to subclasses is there after it has been checked. -/
theorem contains_pending_collected {c : ClassDecl} {o : Options} {names : List String}
    {name : String} (hname : name ∈ names) {m : Member}
    (hm : m ∈ (c.collected o [name]).pending) :
    (c.collected o names).pending.contains m = true := by
  have hmem : m ∈ names.flatMap fun name => (c.collected o [name]).pending :=
    List.mem_flatMap.mpr ⟨name, hname, hm⟩
  rw [pending_collected, distinct, contains_addAllNew, List.contains_nil, Bool.false_or]
  exact List.contains_iff_exists_mem_beq.mpr ⟨m, hmem, BEq.rfl⟩

/-- Checking a name once more repeats its violations and nothing else. -/
theorem collected_again (c : ClassDecl) (o : Options) {names : List String} {name : String}
    (hname : name ∈ names) :
    c.collected o (names ++ [name]) =
      ⟨(c.collected o names).violations ++ (c.collected o [name]).violations,
        (c.collected o names).pending⟩ := by
  have hnothing : (c.collected o [name]).pending.filter
      (!(c.collected o names).pending.contains ·) = [] := by
    refine List.filter_eq_nil_iff.mpr fun m hm => ?_
    simp [contains_pending_collected hname hm]
  have happend : c.collected o (names ++ [name]) = c.checkNames o (c.collected o names) [name] :=
    List.foldl_append
  rw [happend, checkNames_onto, hnothing, List.append_nil]

/-- Looking names up one by one finds what the check of their table entries finds. -/
theorem flatMap_findingsFor (c : ClassDecl) (o : Options) (names : List String) :
    names.flatMap (c.findingsFor o) = findingsOf (.ofClass c o) (names.filterMap c.group?) := by
  induction names with
  | nil => rfl
  | cons name names ih =>
    rw [List.flatMap_cons, ih, findingsFor, List.filterMap_cons]
    cases c.group? name <;> rfl

/-- A run over names collects what the check of their entries in the table reports. -/
theorem collected_eq_findingsOf (c : ClassDecl) (o : Options) (names : List String) :
    c.collected o names =
      ⟨violations (findingsOf (.ofClass c o) (names.filterMap c.group?)),
        pending (findingsOf (.ofClass c o) (names.filterMap c.group?))⟩ := by
  rw [collected_eq, flatMap_findingsFor]

/-- Looking up all names of the table gives the table. -/
theorem filterMap_group?_names (c : ClassDecl) : c.names.filterMap c.group? = c.scope := by
  rw [scope, ← List.filterMap_eq_map]
  refine List.filterMap_congr fun name hname => ?_
  rw [group?_eq, if_neg (mem_names_iff.mp hname), tableEntries_eq]
  rfl

/-- A report sums up what is collected over the scope, name by name, and then from the abstract
members of the class itself. -/
theorem collected_names (c : ClassDecl) (o : Options) :
    (c.collected o c.names).addAll c.handedDown =
      ⟨(c.check o).violations, (c.check o).pending⟩ := by
  rw [collected, checkNames_eq, ← Collected.addAll_append, flatMap_findingsFor,
    filterMap_group?_names, Collected.addAll_eq]
  rfl

/-- Names of a class, in any order and also repeatedly, are checked independently of what has been
collected before: the violations are those of the names one by one, what is left to subclasses is
what the names leave to them one by one without later repetitions, and a collection is only added
to. So a name that is checked again repeats its violations and leaves nothing new to subclasses. What
is collected is what the check of the entries for these names reports, and the report on a class is
what is collected over the names in scope, and then from its own abstract members. -/
theorem checkNames_collects (c : ClassDecl) (o : Options) (names : List String) :
    (c.collected o names).violations =
        names.flatMap (fun name => (c.collected o [name]).violations)
      ∧ (c.collected o names).pending =
        (names.flatMap fun name => (c.collected o [name]).pending).eraseDups
      ∧ (∀ k, c.checkNames o k names =
        ⟨k.violations ++ (c.collected o names).violations,
          k.pending ++ (c.collected o names).pending.filter (!k.pending.contains ·)⟩)
      ∧ (∀ name ∈ names, c.collected o (names ++ [name]) =
        ⟨(c.collected o names).violations ++ (c.collected o [name]).violations,
          (c.collected o names).pending⟩)
      ∧ c.collected o names =
        ⟨violations (findingsOf (.ofClass c o) (names.filterMap c.group?)),
          pending (findingsOf (.ofClass c o) (names.filterMap c.group?))⟩
      ∧ (c.collected o c.names).addAll c.handedDown =
        ⟨(c.check o).violations, (c.check o).pending⟩ := by
  refine ⟨c.violations_collected o names, ?_, fun k => c.checkNames_onto o k names,
    fun name hname => c.collected_again o hname, c.collected_eq_findingsOf o names,
    c.collected_names o⟩
  rw [pending_collected, distinct_eq_eraseDups]

/-- An abstract class that leaves a method open, and the setter of a property whose getter it has
without a body. -/
def heater : ClassDecl :=
  ⟨"Heater", true, [.withoutBody (.concrete .getAccessor "Heater" "warmth" (.keyword .number))],
    [.ofInterface "Heating"
      [.concrete .field "Heating" "warmth" (.keyword .number),
        .concrete .method "Heating" "start" (.keyword .void)]]⟩

/-- The missing body of the getter is reported again, while the missing setter is left to subclasses
once. -/
theorem heater_warmth_again :
    "warmth" ∈ ["warmth", "start"]
      ∧ (heater.collected .initial ["warmth", "start", "warmth"]).violations.map (·.code) =
        [.missingBody, .missingBody]
      ∧ (heater.collected .initial ["warmth", "start", "warmth"]).pending.map (·.kind) =
        [.setAccessor, .method] := by
  have hname : "warmth" ∈ ["warmth", "start"] := List.mem_cons_self
  obtain ⟨_, _, _, hagain, _, _⟩ := heater.checkNames_collects .initial ["warmth", "start"]
  have hthree : heater.collected .initial ["warmth", "start", "warmth"] = _ := hagain _ hname
  rw [hthree]
  exact ⟨hname, by decide, by decide⟩

end ClassDecl

end ClassContract
