import ClassContract.Contract.Rules
import ClassContract.Proofs.Requirement

/-!
# What each rule can report

Every rule reports violations of the name it is applied to, each with a code of that rule. Only an
abstract class leaves anything to subclasses, namely abstract declarations of the name in place of
reports that it is unimplemented, and only a concrete class reports unimplemented or abstract
members. `allWithin_findings` says this of all rules together.
-/

namespace ClassContract

namespace Finding

/-- The requirements that findings leave to subclasses, with repetitions. -/
def deferrals (fs : List Finding) : List Member := fs.filterMap deferral?

@[simp] theorem violations_nil : violations [] = [] := rfl

/-- The violations of two lists of findings. -/
@[simp] theorem violations_append (fs gs : List Finding) :
    violations (fs ++ gs) = violations fs ++ violations gs := List.filterMap_append

/-- Cut-offs are no violations. -/
@[simp] theorem violations_ofCutOffs (v : Verdict) : violations (ofCutOffs v) = [] := by
  rw [violations, ofCutOffs, List.filterMap_map]
  exact List.filterMap_eq_nil_iff.mpr fun _ _ => rfl

/-- What is left to subclasses is no violation. -/
@[simp] theorem violations_map_deferral (ms : List Member) :
    violations (ms.map .deferral) = [] := by
  rw [violations, List.filterMap_map]
  exact List.filterMap_eq_nil_iff.mpr fun _ _ => rfl

@[simp] theorem deferrals_nil : deferrals [] = [] := rfl

/-- What two lists of findings leave to subclasses. -/
@[simp] theorem deferrals_append (fs gs : List Finding) :
    deferrals (fs ++ gs) = deferrals fs ++ deferrals gs := List.filterMap_append

/-- Everything that is left to subclasses is left to them. -/
@[simp] theorem deferrals_map_deferral (ms : List Member) : deferrals (ms.map .deferral) = ms := by
  rw [deferrals, List.filterMap_map]
  exact List.filterMap_some

/-- The violations are the findings that are one. -/
theorem mem_violations {fs : List Finding} {v : Violation} :
    v ∈ violations fs ↔ .violation v ∈ fs := by
  simp only [violations, List.mem_filterMap]
  constructor
  · rintro ⟨f, hf, hv⟩
    cases f <;> cases hv
    exact hf
  · exact fun h => ⟨_, h, rfl⟩

/-- What is left to subclasses are the findings that say so. -/
theorem mem_deferrals {fs : List Finding} {m : Member} :
    m ∈ deferrals fs ↔ .deferral m ∈ fs := by
  simp only [deferrals, List.mem_filterMap]
  constructor
  · rintro ⟨f, hf, hm⟩
    cases f <;> cases hm
    exact hf
  · exact fun h => ⟨_, h, rfl⟩

end Finding

namespace Code

/-- The violations that only a concrete class can commit. -/
def concreteOnly : Code → Bool
  | .unimplemented | .abstractInConcrete => true
  | _ => false

/-- The list of codes has all of them. -/
theorem mem_all (c : Code) : c ∈ all := by cases c <;> decide

end Code

namespace Finding

/-- A finding about the member `name`: a violation of it with one of the codes, or, in place of a
report that it is unimplemented, an abstract declaration of it that an abstract class leaves to its
subclasses. -/
def Within (s : Subject) (name : String) (codes : List Code) : Finding → Prop
  | .violation v =>
    v.member = name ∧ v.code ∈ codes ∧ (v.code.concreteOnly = true → s.isAbstract = false)
  | .deferral m =>
    m.name = name ∧ m.isAbstract = true ∧ .unimplemented ∈ codes ∧ s.isAbstract = true
  | .examined .. | .cutOff _ => True

/-- A sequence of findings about the member `name`. -/
structure AllWithin (s : Subject) (name : String) (codes : List Code) (fs : List Finding) :
    Prop where
  /-- Each of them is about that member. -/
  within : ∀ f ∈ fs, f.Within s name codes

namespace AllWithin

variable {s : Subject} {name : String} {codes codes' : List Code} {fs gs : List Finding}

/-- No finding is outside any bounds. -/
theorem nil : AllWithin s name codes [] := ⟨fun _ h => nomatch h⟩

/-- Rules within the same bounds may be applied one after the other. -/
theorem append (hf : AllWithin s name codes fs) (hg : AllWithin s name codes gs) :
    AllWithin s name codes (fs ++ gs) :=
  ⟨fun f h => (List.mem_append.mp h).elim (hf.within f) (hg.within f)⟩

/-- A rule within bounds may be applied to all elements of a list. -/
theorem flatMap {f : β → List Finding} {bs : List β}
    (h : ∀ b ∈ bs, AllWithin s name codes (f b)) : AllWithin s name codes (bs.flatMap f) := by
  refine ⟨fun x hx => ?_⟩
  obtain ⟨b, hb, hx⟩ := List.mem_flatMap.mp hx
  exact (h b hb).within x hx

/-- Findings within some codes are within more codes. -/
theorem mono (h : AllWithin s name codes fs) (hc : ∀ c ∈ codes, c ∈ codes') :
    AllWithin s name codes' fs := by
  refine ⟨fun f hf => ?_⟩
  have hw := h.within f hf
  cases f with
  | violation v => exact ⟨hw.1, hc _ hw.2.1, hw.2.2⟩
  | deferral m => exact ⟨hw.1, hw.2.1, hc _ hw.2.2.1, hw.2.2.2⟩
  | examined => trivial
  | cutOff => trivial

/-- Without regard to the codes. -/
theorem all (h : AllWithin s name codes fs) : AllWithin s name Code.all fs :=
  h.mono fun c _ => c.mem_all

/-- Cut-offs are within all bounds. -/
theorem ofCutOffs (v : Verdict) : AllWithin s name codes (ofCutOffs v) := by
  refine ⟨fun f hf => ?_⟩
  obtain ⟨c, _, rfl⟩ := List.mem_map.mp hf
  trivial

/-- A violation within bounds has the name and one of the codes, and a class that may have it. -/
theorem violation (h : AllWithin s name codes fs) {v : Violation} (hv : v ∈ violations fs) :
    v.member = name ∧ v.code ∈ codes ∧ (v.code.concreteOnly = true → s.isAbstract = false) :=
  h.within _ (mem_violations.mp hv)

/-- What is left to subclasses within bounds is an abstract member of the name in an abstract class.
-/
theorem deferral (h : AllWithin s name codes fs) {m : Member} (hm : m ∈ deferrals fs) :
    m.name = name ∧ m.isAbstract = true ∧ .unimplemented ∈ codes ∧ s.isAbstract = true :=
  h.within _ (mem_deferrals.mp hm)

/-- Rules that never report a member as unimplemented leave nothing to subclasses. -/
theorem deferrals_eq_nil (h : AllWithin s name codes fs) (hc : .unimplemented ∉ codes) :
    deferrals fs = [] :=
  List.eq_nil_iff_forall_not_mem.mpr fun _ hm => hc (h.deferral hm).2.2.1

/-- A concrete class leaves nothing to subclasses. -/
theorem deferrals_of_concrete (h : AllWithin s name codes fs) (hs : s.isAbstract = false) :
    deferrals fs = [] :=
  List.eq_nil_iff_forall_not_mem.mpr fun _ hm =>
    Bool.false_ne_true (hs.symm.trans (h.deferral hm).2.2.2)

end AllWithin

end Finding

open Finding

namespace Subject

/-- A half of a required property that a provision lacks. -/
structure Gap where
  /-- The declaration that requires the half. -/
  source : Member
  /-- The missing accessor. -/
  missing : MemberKind
  /-- What stands in its place. -/
  present : MemberKind

/-- The declaration that a gap leaves to subclasses. -/
def Gap.half (g : Gap) : Member :=
  { name := g.source.name, kind := g.missing, isAbstract := true, isReadonly := false,
    type := g.source.type, owner := g.source.owner, hasBody := false }

/-- The halves that a provision lacks. -/
def gaps : Requirement → Provision → List Gap
  | .property q, .field f =>
    if q.requiresWrite && f.isReadonly then q.writeSource.toList.map (⟨·, .setAccessor, f.kind⟩)
    else []
  | .property q, .accessors getter setter =>
    (if q.requiresRead && getter.isNone then
        q.readSource.toList.map (⟨·, .getAccessor, .setAccessor⟩)
      else [])
      ++ if q.requiresWrite && setter.isNone then
        q.writeSource.toList.map (⟨·, .setAccessor, .getAccessor⟩)
      else []
  | _, _ => []

/-- What the comparison of kinds says about the rules that follow, which does not depend on the
class. -/
def kindOutcome (o : Options) : Requirement → Provision → KindOutcome
  | .method _, .method _ => .compatible
  | .property q, .field f =>
    if q.requiresWrite && f.isReadonly then .compatible
    else if !q.requiresRead && !o.fieldSatisfiesWriteOnly then .mismatch
    else .compatible
  | .property q, .accessors getter _ =>
    if q.requiresRead && getter.isNone then .readHalfMissing else .compatible
  | _, _ => .mismatch

/-- A half that may be missing is a gap or none. -/
theorem missingHalf?_eq (s : Subject) (name : String) (source : Option Member)
    (missing present : MemberKind) :
    s.missingHalf? name source missing present =
      (source.toList.map (⟨·, missing, present⟩ : Member → Gap)).flatMap
        fun g => s.missingHalf name g.source g.missing g.present := by
  cases source <;> simp [missingHalf?]

/-- Either the kinds do not match, or the gaps of the provision are gone through. -/
theorem kinds_eq (s : Subject) (name : String) (r : Requirement) (p : Provision) :
    s.kinds name r p =
      (kindOutcome s.options r p,
        if kindOutcome s.options r p = .mismatch then s.kindMismatch name r p
        else (gaps r p).flatMap fun g => s.missingHalf name g.source g.missing g.present) := by
  cases r with
  | method m => cases p <;> rfl
  | property q =>
    cases p with
    | method _ => rfl
    | field f =>
      simp only [kinds, kindOutcome, gaps, missingHalf?_eq]
      split
      · rfl
      · split <;> rfl
    | accessors getter setter =>
      have hne : (if q.requiresRead && getter.isNone then KindOutcome.readHalfMissing
          else .compatible) ≠ .mismatch := by
        split <;> decide
      simp only [kinds, kindOutcome, gaps, missingHalf?_eq, if_neg hne, List.flatMap_append]
      congr 2
      · split <;> rfl
      · split <;> rfl

/-- The report of a gap by a concrete class. -/
def Gap.violation (s : Subject) (name : String) (g : Gap) : Violation :=
  ⟨name, Code.unimplemented.category, .unimplemented, s.className, some g.source.owner,
    .kind g.missing, .kind g.present⟩

/-- A concrete class reports every gap. -/
theorem violations_gaps (s : Subject) (name : String) (gs : List Gap) :
    violations (gs.flatMap fun g => s.missingHalf name g.source g.missing g.present) =
      if s.isAbstract then [] else gs.map (Gap.violation s name) := by
  induction gs with
  | nil => simp
  | cons g gs ih =>
    rw [List.flatMap_cons, violations_append, ih, missingHalf]
    split <;> rfl

/-- An abstract class leaves every gap to its subclasses. -/
theorem deferrals_gaps (s : Subject) (name : String) (gs : List Gap) :
    deferrals (gs.flatMap fun g => s.missingHalf name g.source g.missing g.present) =
      if s.isAbstract then gs.map Gap.half else [] := by
  induction gs with
  | nil => simp
  | cons g gs ih =>
    rw [List.flatMap_cons, deferrals_append, ih, missingHalf]
    split <;> rfl

/-- A missing getter is a gap. -/
theorem exists_gap_of_readHalfMissing {o : Options} {r : Requirement} {p : Provision}
    (h : kindOutcome o r p = .readHalfMissing) :
    ∃ g ∈ gaps r p, g.missing = .getAccessor ∧ g.present = .setAccessor := by
  cases r with
  | method m => cases p <;> cases h
  | property q =>
    cases p with
    | method _ => cases h
    | field f =>
      rw [kindOutcome] at h
      split at h
      · cases h
      · split at h <;> cases h
    | accessors getter setter =>
      rw [kindOutcome] at h
      split at h
      · next hr =>
        have hs := q.isSome_readSource.trans (Bool.and_eq_true_iff.mp hr).1
        obtain ⟨m, hm⟩ := Option.isSome_iff_exists.mp hs
        exact ⟨⟨m, .getAccessor, .setAccessor⟩, by simp [gaps, hr, hm], rfl, rfl⟩
      · cases h

/-- Only properties have gaps: a getter is missing beside a setter that stands alone, and a setter
beside something that cannot be assigned. -/
theorem mem_gaps_cases {r : Requirement} {p : Provision} {g : Gap} (h : g ∈ gaps r p) :
    ∃ q, r = .property q ∧
      (g.missing = .getAccessor ∧ q.readSource = some g.source
          ∧ (∃ setter, p = .accessors none setter)
        ∨ g.missing = .setAccessor ∧ q.writeSource = some g.source ∧ p.writer = none) := by
  cases r with
  | method m => cases p <;> cases h
  | property q =>
    refine ⟨q, rfl, ?_⟩
    cases p with
    | method _ => cases h
    | field f =>
      rw [gaps] at h
      split at h
      · next hg =>
        obtain ⟨m, hm, rfl⟩ := List.mem_map.mp h
        exact .inr ⟨rfl, Option.mem_toList.mp hm, if_pos (Bool.and_eq_true_iff.mp hg).2⟩
      · cases h
    | accessors getter setter =>
      rw [gaps] at h
      rcases List.mem_append.mp h with h | h
      · split at h
        · next hg =>
          obtain ⟨m, hm, rfl⟩ := List.mem_map.mp h
          have hnone := Option.isNone_iff_eq_none.mp (Bool.and_eq_true_iff.mp hg).2
          exact .inl ⟨rfl, Option.mem_toList.mp hm, setter, by rw [hnone]⟩
        · cases h
      · split at h
        · next hg =>
          obtain ⟨m, hm, rfl⟩ := List.mem_map.mp h
          have hnone := Option.isNone_iff_eq_none.mp (Bool.and_eq_true_iff.mp hg).2
          exact .inr ⟨rfl, Option.mem_toList.mp hm, hnone⟩
        · cases h

/-- A gap comes from one of the declarations that the requirement consists of. -/
theorem mem_members_of_mem_gaps {r : Requirement} {p : Provision} {g : Gap} (h : g ∈ gaps r p) :
    g.source ∈ r.members := by
  obtain ⟨q, rfl, ⟨_, hsource, _⟩ | ⟨_, hsource, _⟩⟩ := mem_gaps_cases h
  · exact Requirement.mem_members_of_readSource hsource
  · exact Requirement.mem_members_of_writeSource hsource

/-- A getter is missing where reading is required and there is a setter only. -/
theorem exists_getter_gap {q : PropertyRequirement} (hq : q.requiresRead = true)
    (setter : Option Member) :
    ∃ g ∈ gaps (.property q) (.accessors none setter), g.missing = .getAccessor := by
  obtain ⟨m, hm⟩ := Option.isSome_iff_exists.mp (q.isSome_readSource.trans hq)
  exact ⟨⟨m, .getAccessor, .setAccessor⟩, by simp [gaps, hq, hm], rfl⟩

/-- A setter is missing where assignment is required and the property cannot be assigned. -/
theorem exists_setter_gap {q : PropertyRequirement} {p : Provision} (hp : ∀ m, p ≠ .method m)
    (hq : q.requiresWrite = true) (hw : p.writer = none) :
    ∃ g ∈ gaps (.property q) p, g.missing = .setAccessor := by
  obtain ⟨m, hm⟩ := Option.isSome_iff_exists.mp (q.isSome_writeSource.trans hq)
  cases p with
  | method m => exact absurd rfl (hp m)
  | field f =>
    have hro : f.isReadonly = true := by simpa [Provision.writer] using hw
    exact ⟨⟨m, .setAccessor, f.kind⟩, by simp [gaps, hq, hm, hro], rfl⟩
  | accessors getter setter =>
    have hnone : setter = none := hw
    exact ⟨⟨m, .setAccessor, .getAccessor⟩, by simp [gaps, hq, hm, hnone], rfl⟩

/-- A provision by accessors has at least one of them. -/
theorem accessors_of_ofMembers? {ms : List Member} {getter setter : Option Member}
    (h : Provision.ofMembers? ms = some (.accessors getter setter)) :
    getter.isSome = true ∨ setter.isSome = true := by
  rcases Provision.cases_of_ofMembers? h with ⟨_, _, _, he⟩ | ⟨_, _, _, he⟩ | ⟨⟨m, hm, hk⟩, he⟩
  · cases he
  · cases he
  · cases he
    by_cases hget : m.kind = .getAccessor
    · exact .inl (isSome_firstOfKind_iff.mpr ⟨m, hm, hget⟩)
    · have hset : m.kind = .setAccessor := MemberKind.eq_setAccessor_of_isAccessor hk hget
      exact .inr (isSome_firstOfKind_iff.mpr ⟨m, hm, hset⟩)

/-- A provision lacks at most one half. -/
theorem length_gaps_le {ms : List Member} {p : Provision}
    (hp : Provision.ofMembers? ms = some p) (r : Requirement) : (gaps r p).length ≤ 1 := by
  have hhalf : ∀ (b : Bool) (source : Option Member) (f : Member → Gap),
      (if b then source.toList.map f else []).length ≤ 1 := fun b source f => by
    cases b <;> cases source <;> simp
  cases r with
  | method m => cases p <;> simp [gaps]
  | property q =>
    cases p with
    | method m => simp [gaps]
    | field f => exact hhalf _ _ _
    | accessors getter setter =>
      rw [gaps]
      rcases accessors_of_ofMembers? hp with hget | hset
      · have hnone : getter.isNone = false := by simpa using hget
        rw [hnone, Bool.and_false, if_neg Bool.false_ne_true, List.nil_append]
        exact hhalf _ _ _
      · have hnone : setter.isNone = false := by simpa using hset
        rw [hnone, Bool.and_false, if_neg Bool.false_ne_true, List.append_nil]
        exact hhalf _ _ _

/-- A single violation is within its own code. -/
theorem allWithin_violation (s : Subject) (name : String) {code : Code}
    (hc : code.concreteOnly = true → s.isAbstract = false) (declaredIn : Option String)
    (expected actual : Side) :
    AllWithin s name [code] [s.violation name code declaredIn expected actual] := by
  refine ⟨fun f hf => ?_⟩
  rw [List.mem_singleton.mp hf]
  exact ⟨rfl, List.mem_singleton_self _, hc⟩

/-- Collisions are reported as duplicates only. -/
theorem allWithin_duplicates (s : Subject) (name : String) (ms : List Member) :
    AllWithin s name [.duplicate] (s.duplicates name ms) := by
  unfold duplicates
  split
  · exact s.allWithin_violation name (by nofun) ..
  · exact .nil

/-- A missing half is reported as unimplemented or left to subclasses. -/
theorem allWithin_missingHalf (s : Subject) {name : String} {source : Member}
    (h : source.name = name) (missing present : MemberKind) :
    AllWithin s name [.unimplemented] (s.missingHalf name source missing present) := by
  unfold missingHalf
  split
  · next hs =>
    refine ⟨fun f hf => ?_⟩
    rw [List.mem_singleton.mp hf]
    exact ⟨h, rfl, List.mem_singleton_self _, hs⟩
  · next hs => exact s.allWithin_violation name (fun _ => Bool.eq_false_iff.mpr hs) ..

/-- A wrong kind is reported as such. -/
theorem allWithin_kindMismatch (s : Subject) (name : String) (r : Requirement) (p : Provision) :
    AllWithin s name [.kindMismatch] (s.kindMismatch name r p) :=
  s.allWithin_violation name (by nofun) ..

/-- Comparing kinds reports wrong kinds and missing halves. -/
theorem allWithin_kinds (s : Subject) {name : String} {r : Requirement}
    (h : ∀ m ∈ r.members, m.name = name) (p : Provision) :
    AllWithin s name [.kindMismatch, .unimplemented] (s.kinds name r p).2 := by
  rw [kinds_eq]
  dsimp only
  split
  · exact (s.allWithin_kindMismatch ..).mono (by simp)
  · refine (AllWithin.flatMap fun g hg => ?_ : AllWithin s name [.unimplemented] _).mono (by simp)
    exact s.allWithin_missingHalf (h _ (mem_members_of_mem_gaps hg)) ..

/-- Assignability is reported as a violation of readonly. -/
theorem allWithin_readonly (s : Subject) (name : String) (r : Option Requirement)
    (constraint : Option Member) (p : Provision) :
    AllWithin s name [.readonlyViolation] (s.readonly name r constraint p) := by
  unfold readonly
  split
  · exact s.allWithin_violation name (by nofun) ..
  · exact .nil

/-- What bounds a single report bounds the first mismatch. -/
theorem allWithin_firstMismatch {s : Subject} {name : String} {codes : List Code}
    {report : MemberType → MemberType → Finding}
    (h : ∀ expected actual, AllWithin s name codes [report expected actual])
    (cs : List Comparison) : AllWithin s name codes (firstMismatch report cs) := by
  induction cs with
  | nil => exact .nil
  | cons c cs ih =>
    rw [firstMismatch]
    apply AllWithin.append (.ofCutOffs _)
    split
    · exact ih
    · exact h _ _

/-- Types are reported as mismatches. -/
theorem allWithin_types (s : Subject) (name : String) (r : Requirement) (p : Provision) :
    AllWithin s name [.typeMismatch] (s.types name r p) :=
  allWithin_firstMismatch (fun _ _ => s.allWithin_violation name (by nofun) ..) _

/-- A getter and a setter are reported as a mismatch of accessors. -/
theorem allWithin_accessorPair (s : Subject) (name : String) (ms : List Member) :
    AllWithin s name [.accessorTypeMismatch] (s.accessorPair name ms).2 := by
  unfold accessorPair
  split
  · apply AllWithin.append (.ofCutOffs _)
    split
    · exact .nil
    · exact s.allWithin_violation name (by nofun) ..
  · exact .nil

/-- The concrete accessors are compared only if the abstract ones agree. -/
theorem accessorPairs_eq (s : Subject) (name : String) (ownAbstract ownConcrete : List Member) :
    s.accessorPairs name ownAbstract ownConcrete =
      (s.accessorPair name ownAbstract).2
        ++ if (s.accessorPair name ownAbstract).1 then []
          else (s.accessorPair name ownConcrete).2 := by
  unfold accessorPairs
  split
  · next heq => simp [heq]
  · next heq => simp [heq]

/-- Getters and setters are reported as mismatches of accessors. -/
theorem allWithin_accessorPairs (s : Subject) (name : String)
    (ownAbstract ownConcrete : List Member) :
    AllWithin s name [.accessorTypeMismatch] (s.accessorPairs name ownAbstract ownConcrete) := by
  rw [accessorPairs_eq]
  apply AllWithin.append (s.allWithin_accessorPair ..)
  split
  · exact .nil
  · exact s.allWithin_accessorPair ..

/-- Implementations are reported for a missing body only. -/
theorem allWithin_bodies (s : Subject) (name : String) (ownConcrete : List Member) :
    AllWithin s name [.missingBody] (s.bodies name ownConcrete) := by
  refine ⟨fun f hf => ?_⟩
  obtain ⟨m, _, rfl⟩ := List.mem_map.mp hf
  exact ⟨rfl, List.mem_singleton_self _, nofun⟩

/-- Abstract members of a concrete class are reported as such. -/
theorem allWithin_abstractMembers (s : Subject) (name : String) (ownAbstract : List Member) :
    AllWithin s name [.abstractInConcrete] (s.abstractMembers name ownAbstract) := by
  unfold abstractMembers
  split
  · next h =>
    have hs : s.isAbstract = false := by simpa using (Bool.and_eq_true_iff.mp h).2
    refine ⟨fun f hf => ?_⟩
    obtain ⟨m, _, rfl⟩ := List.mem_map.mp hf
    exact ⟨rfl, List.mem_singleton_self _, fun _ => hs⟩
  · exact .nil

/-- Accessors of which one is abstract are reported as such. -/
theorem allWithin_accessorAbstractness (s : Subject) (name : String)
    (ownAbstract ownConcrete : List Member) :
    AllWithin s name [.accessorAbstractness]
      (s.accessorAbstractness name ownAbstract ownConcrete) := by
  unfold accessorAbstractness
  dsimp only
  split
  · exact .nil
  · split
    · exact s.allWithin_violation name (by nofun) ..
    · split
      · exact s.allWithin_violation name (by nofun) ..
      · exact .nil

/-- The rules that follow the comparison of kinds. A concrete class that has reported a missing
getter does not hold the setter in its place against a demand of reading only. -/
def afterKinds (s : Subject) (name : String) (r : Requirement) (constraint : Option Member)
    (p : Provision) : List Finding :=
  match kindOutcome s.options r p with
  | .compatible => s.readonly name (some r) constraint p ++ s.types name r p
  | .readHalfMissing =>
    (if s.isAbstract then s.readonly name (some r) constraint p else []) ++ s.types name r p
  | .mismatch => []

/-- A required provision has its kind compared first, and then what the outcome leaves to compare.
-/
theorem provision_some (s : Subject) (name : String) (r : Requirement) (constraint : Option Member)
    (p : Provision) :
    s.provision name (some r) constraint p =
      (s.kinds name r p).2 ++ s.afterKinds name r constraint p := by
  have ho : (s.kinds name r p).1 = kindOutcome s.options r p := by rw [kinds_eq]
  rw [afterKinds, ← ho, provision]
  rcases s.kinds name r p with ⟨_ | _ | _, found⟩ <;> simp

/-- After the kinds, assignability and types are reported. -/
theorem allWithin_afterKinds (s : Subject) (name : String) (r : Requirement)
    (constraint : Option Member) (p : Provision) :
    AllWithin s name [.readonlyViolation, .typeMismatch] (s.afterKinds name r constraint p) := by
  have hro : AllWithin s name [.readonlyViolation, .typeMismatch]
      (s.readonly name (some r) constraint p) :=
    (s.allWithin_readonly name (some r) constraint p).mono (by simp)
  have ht : AllWithin s name [.readonlyViolation, .typeMismatch] (s.types name r p) :=
    (s.allWithin_types name r p).mono (by simp)
  unfold afterKinds
  split
  · exact hro.append ht
  · refine AllWithin.append ?_ ht
    split
    · exact hro
    · exact .nil
  · exact .nil

/-- The codes of the rules that hold an implementation against what is required of it. -/
def provisionCodes : List Code :=
  [.unimplemented, .kindMismatch, .readonlyViolation, .typeMismatch]

/-- The rules for a provision report under these codes only. -/
theorem allWithin_provision (s : Subject) {name : String} {r : Option Requirement}
    (h : ∀ q, r = some q → ∀ m ∈ q.members, m.name = name) (constraint : Option Member)
    (p : Provision) : AllWithin s name provisionCodes (s.provision name r constraint p) := by
  cases r with
  | none => exact (s.allWithin_readonly name none constraint p).mono (by decide)
  | some q =>
    rw [provision_some]
    exact ((s.allWithin_kinds (h q rfl) p).mono (by decide)).append
      ((s.allWithin_afterKinds name q constraint p).mono (by decide))

/-- The rules for a name in order. -/
theorem fullCheck_eq (s : Subject) (name : String) (r : Option Requirement)
    (constraint : Option Member) (ownAbstract ownConcrete : List Member) :
    s.fullCheck name r constraint ownAbstract ownConcrete =
      s.duplicates name ownAbstract ++ s.duplicates name ownConcrete
        ++ (Provision.ofMembers? ownConcrete).elim [] (s.provision name r constraint)
        ++ s.accessorPairs name ownAbstract ownConcrete ++ s.bodies name ownConcrete
        ++ (s.abstractMembers name ownAbstract
          ++ s.accessorAbstractness name ownAbstract ownConcrete) := by
  unfold fullCheck onDemand
  cases Provision.ofMembers? ownConcrete <;> rfl

/-- The codes of the rules that look at the declarations of the class alone. -/
def standingCodes : List Code :=
  [.duplicate, .accessorTypeMismatch, .missingBody, .abstractInConcrete, .accessorAbstractness]

/-- The rules for a name report these codes and those of the rules for a provision. -/
theorem allWithin_fullCheck (s : Subject) {name : String} {r : Option Requirement}
    {constraint : Option Member} {ownConcrete : List Member} {codes : List Code}
    (hc : ∀ c ∈ standingCodes, c ∈ codes)
    (hp : ∀ p, Provision.ofMembers? ownConcrete = some p →
      AllWithin s name codes (s.provision name r constraint p)) (ownAbstract : List Member) :
    AllWithin s name codes (s.fullCheck name r constraint ownAbstract ownConcrete) := by
  have hone : ∀ {c fs}, c ∈ standingCodes → AllWithin s name [c] fs → AllWithin s name codes fs :=
    fun h hfs => hfs.mono fun _ hm => List.mem_singleton.mp hm ▸ hc _ h
  rw [fullCheck_eq]
  refine ((((AllWithin.append ?_ ?_).append ?_).append ?_).append ?_).append (.append ?_ ?_)
  · exact hone (by decide) (s.allWithin_duplicates ..)
  · exact hone (by decide) (s.allWithin_duplicates ..)
  · cases hm : Provision.ofMembers? ownConcrete with
    | none => exact .nil
    | some p => exact hp p hm
  · exact hone (by decide) (s.allWithin_accessorPairs ..)
  · exact hone (by decide) (s.allWithin_bodies ..)
  · exact hone (by decide) (s.allWithin_abstractMembers ..)
  · exact hone (by decide) (s.allWithin_accessorAbstractness ..)

/-- Without an implementation only the rules about abstract declarations have something to say. -/
theorem fullCheck_nil (s : Subject) (name : String) (r : Option Requirement)
    (constraint : Option Member) (ownAbstract : List Member) :
    s.fullCheck name r constraint ownAbstract [] =
      s.duplicates name ownAbstract ++ (s.accessorPair name ownAbstract).2
        ++ s.onDemand name ownAbstract [] := by
  have hd : s.duplicates name [] = [] := rfl
  have hb : s.bodies name [] = [] := rfl
  have hp : s.accessorPairs name ownAbstract [] = (s.accessorPair name ownAbstract).2 := by
    rw [accessorPairs_eq]
    split
    · rw [List.append_nil]
    · rw [show (s.accessorPair name []).2 = [] from rfl, List.append_nil]
  rw [fullCheck, hd, hb, hp]
  simp [Provision.ofMembers?]

/-- Where the class declares nothing there is nothing to report. -/
theorem fullCheck_nil_nil (s : Subject) (name : String) (r : Option Requirement)
    (constraint : Option Member) : s.fullCheck name r constraint [] [] = [] := by
  rw [fullCheck_nil]
  simp [duplicates, firstCollision, accessorPair, pairVerdict, firstOfKind, onDemand,
    abstractMembers, accessorAbstractness, splitAccessors, hasKind]

/-- After the report of an unimplemented member the rules go on as for any other name. -/
theorem unimplemented_eq (s : Subject) (name : String) (r : Requirement)
    (constraint : Option Member) (ownAbstract : List Member) :
    s.unimplemented name r ownAbstract =
      s.violation name .unimplemented (some r.primary.owner) (.kind r.primary.kind) .none
        :: s.fullCheck name (some r) constraint ownAbstract [] := by
  rw [fullCheck_nil]
  simp [unimplemented]

end Subject

/-- The abstract declarations that count: those of the class itself, if there are any, and otherwise
those of its ancestors. -/
def demand (own inherited : List Member) : List Member := if own.isEmpty then inherited else own

namespace Group

/-- What is demanded under the name of a group. -/
def demanded (g : Group) : List Member := demand g.ownAbstract g.inheritedAbstract

/-- Selected members come from entries that pass the test. -/
theorem mem_entries_of_mem_select {g : Group} {p : Entry → Bool} {m : Member}
    (h : m ∈ g.select p) : ∃ e ∈ g.entries, p e = true ∧ e.member = m := by
  obtain ⟨e, he, rfl⟩ := List.mem_map.mp h
  exact ⟨e, (List.mem_filter.mp he).1, (List.mem_filter.mp he).2, rfl⟩

/-- What is demanded under a name are abstract declarations in its group. -/
theorem mem_entries_of_mem_demanded {g : Group} {m : Member} (h : m ∈ g.demanded) :
    m.isAbstract = true ∧ ∃ e ∈ g.entries, e.member = m := by
  unfold demanded demand at h
  split at h
  · obtain ⟨e, he, hp, rfl⟩ := mem_entries_of_mem_select h
    simp only [Entry.isInheritedAbstract, Bool.and_eq_true] at hp
    exact ⟨hp.2, e, he, rfl⟩
  · obtain ⟨e, he, hp, rfl⟩ := mem_entries_of_mem_select h
    simp only [Entry.isOwnAbstract, Bool.and_eq_true] at hp
    exact ⟨hp.2, e, he, rfl⟩

/-- Nothing is demanded where nothing is required. -/
theorem demanded_eq_nil_iff {g : Group} : g.demanded = [] ↔ g.requirement? = none :=
  Requirement.ofMembers?_eq_none_iff.symm

/-- Where nothing is demanded, the class declares nothing abstract. -/
theorem ownAbstract_eq_nil_of_demanded {g : Group} (h : g.demanded = []) : g.ownAbstract = [] := by
  unfold demanded demand at h
  split at h
  · next he => simpa using he
  · exact h

/-- The declarations of a requirement are demanded. -/
theorem mem_demanded_of_mem_members {g : Group} {r : Requirement} (h : g.requirement? = some r)
    {m : Member} (hm : m ∈ r.members) : m ∈ g.demanded := Requirement.mem_of_mem_members h hm

/-- The rules that look at the declarations of a group one against the other. -/
def fullCheck (s : Subject) (g : Group) : List Finding :=
  s.fullCheck g.name g.requirement? g.inheritedConstraints.head? g.ownAbstract g.ownConcrete

/-- What is said of a demand that nothing implements: an abstract class leaves it to its subclasses,
a concrete class reports it. -/
def unmet (s : Subject) (g : Group) : List Finding :=
  match g.requirement? with
  | none => []
  | some r =>
    if !g.ownConcrete.isEmpty then []
    else if s.isAbstract then r.members.map .deferral
    else [s.violation g.name .unimplemented (some r.primary.owner) (.kind r.primary.kind) .none]

/-- A demand that nothing implements comes first, and all other rules follow. -/
theorem findings_eq (s : Subject) (g : Group) :
    g.findings s =
      [.examined g.name g.ownAbstract.length g.ownConcrete.length g.requirement?.isSome]
        ++ g.unmet s ++ g.fullCheck s := by
  unfold findings unmet fullCheck
  dsimp only
  cases hr : g.requirement? with
  | none => rfl
  | some r =>
    dsimp only
    split
    · rfl
    · next hc =>
      have hc : g.ownConcrete = [] := by simpa using hc
      split
      · rfl
      · rw [s.unimplemented_eq g.name r g.inheritedConstraints.head?, hc]
        rfl

/-- A demand that nothing implements is one of abstract declarations under the name. -/
theorem allWithin_unmet (s : Subject) {g : Group}
    (hd : ∀ m ∈ g.demanded, m.name = g.name ∧ m.isAbstract = true) :
    AllWithin s g.name [.unimplemented] (g.unmet s) := by
  unfold unmet
  split
  · exact .nil
  · next r hr =>
    split
    · exact .nil
    · split
      · next hs =>
        refine ⟨fun f hf => ?_⟩
        obtain ⟨m, hm, rfl⟩ := List.mem_map.mp hf
        obtain ⟨hn, ha⟩ := hd m (mem_demanded_of_mem_members hr hm)
        exact ⟨hn, ha, List.mem_singleton_self _, hs⟩
      · next hs =>
        exact s.allWithin_violation g.name (fun _ => Bool.eq_false_iff.mpr hs) ..

/-- All rules together report on the name of the group alone. -/
theorem allWithin_findings (s : Subject) {g : Group}
    (hg : ∀ e ∈ g.entries, e.member.name = g.name) :
    AllWithin s g.name Code.all (g.findings s) := by
  have hd : ∀ m ∈ g.demanded, m.name = g.name ∧ m.isAbstract = true := by
    intro m hm
    obtain ⟨ha, e, he, rfl⟩ := mem_entries_of_mem_demanded hm
    exact ⟨hg e he, ha⟩
  rw [findings_eq]
  refine (AllWithin.append ⟨fun f hf => ?_⟩ ?_).append ?_
  · rw [List.mem_singleton.mp hf]
    trivial
  · exact (allWithin_unmet s hd).all
  · refine s.allWithin_fullCheck (fun c _ => c.mem_all) (fun p _ => ?_) _
    exact (s.allWithin_provision
      (fun q hq m hm => (hd m (mem_demanded_of_mem_members hq hm)).1) ..).all

end Group

end ClassContract
