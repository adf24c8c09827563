import ClassContract.Proofs.PerName
import ClassContract.Proofs.Silence

/-!
# The contract of a name

What a concrete class owes under one name, said of the declarations and without reference to the
rules that check it. The lists `oa` and `oc` are the abstract declarations and the implementations of
the class itself, `ia` the abstract declarations of its ancestors and `ic` those declarations of
ancestors that forbid assignment; `q` is what is demanded, that is `oa` if there is any and otherwise
`ia`. The main statement, `violationsFor_eq_nil_iff_contract`, says that a check of a concrete class
reports nothing under a name exactly when this contract holds.
-/

namespace ClassContract

open Finding

namespace Demand

/-- Reading is demanded by a field or a getter. -/
def Reads (q : List Member) : Prop := ∃ m ∈ q, m.kind = .field ∨ m.kind = .getAccessor

/-- Writing is demanded by a setter, or by the first field unless it is readonly. -/
def Writes (q : List Member) : Prop :=
  (∃ f, firstOfKind .field q = some f ∧ f.isReadonly = false) ∨ ∃ m ∈ q, m.kind = .setAccessor

/-- Readers rely on the type of the first field, or else of the first getter. -/
def readType (q : List Member) : Option MemberType :=
  ((firstOfKind .field q).or (firstOfKind .getAccessor q)).map (·.type)

/-- Writers rely on the type of the first setter, or else of the first field unless it is
readonly. -/
def writeType (q : List Member) : Option MemberType :=
  ((firstOfKind .setAccessor q).or ((firstOfKind .field q).filter (!·.isReadonly))).map (·.type)

/-- A method meets the demand of a method when its type is assignable to the demanded one. -/
def MethodMeets (required m : Member) : Prop :=
  m.kind = .method ∧ m.type.isAssignable required.type = true

/-- A readonly field is only read. -/
def ReadonlyFieldMeets (q : List Member) (f : Member) : Prop :=
  ¬ Writes q ∧ ∀ t ∈ readType q, f.type.isAssignable t = true

/-- Any other field is read and written, and keeps the type up to widening; whether it may stand
for a setter alone is an option. -/
def FieldMeets (o : Options) (q : List Member) (f : Member) : Prop :=
  (Reads q ∨ o.fieldSatisfiesWriteOnly = true)
    ∧ ∀ t ∈ (readType q).or (writeType q), f.type.widen.isIdentical t.widen = true

/-- Accessors cover reading and writing as far as they are demanded. A getter gives what readers
rely on, and a setter takes what writers may store. -/
structure AccessorsMeet (q oc : List Member) : Prop where
  /-- There is a getter where reading is demanded. -/
  getter : Reads q → ∃ m ∈ oc, m.kind = .getAccessor
  /-- There is a setter where writing is demanded. -/
  setter : Writes q → ∃ m ∈ oc, m.kind = .setAccessor
  /-- Readers may rely on the getter. -/
  read : ∀ m ∈ oc, m.kind = .getAccessor → ∀ t ∈ readType q, m.type.isAssignable t = true
  /-- Writers may store through the setter. -/
  write : ∀ m ∈ oc, m.kind = .setAccessor → ∀ t ∈ writeType q, t.isAssignable m.type = true

/-- Implementations `oc`, the first of which is `first`, meet the demand of a property. -/
def PropertyMeets (o : Options) (q oc : List Member) (first : Member) : Prop :=
  match first.kind with
  | .method => False
  | .field => if first.isReadonly then ReadonlyFieldMeets q first else FieldMeets o q first
  | .getAccessor | .setAccessor => AccessorsMeet q oc

/-- Implementations meet a demand; its first declaration decides what is demanded. -/
def Meets (o : Options) (q oc : List Member) : Prop :=
  ∀ required first, q.head? = some required → oc.head? = some first →
    if required.kind = .method then MethodMeets required first else PropertyMeets o q oc first

end Demand

/-- A member through which a value can be assigned: a setter, or a field that is not readonly. -/
def Member.Assigns (m : Member) : Prop :=
  m.kind = .setAccessor ∨ m.kind = .field ∧ m.isReadonly = false

/-- Getters and setters among declarations have the same types after widening. -/
def AccessorsAgree (ms : List Member) : Prop :=
  ∀ g ∈ ms, ∀ t ∈ ms, g.kind = .getAccessor → t.kind = .setAccessor →
    g.type.widen.isIdentical t.type.widen = true

/-- One accessor is abstract only, and the other has an implementation only. -/
def SplitAccessors (oa oc : List Member) (half other : MemberKind) : Prop :=
  (∃ m ∈ oa, m.kind = half) ∧ (∀ m ∈ oa, m.kind ≠ other)
    ∧ (∃ m ∈ oc, m.kind = other) ∧ ∀ m ∈ oc, m.kind ≠ half

/-- The contract of a concrete class under one name. -/
structure Contract (o : Options) (oa oc ia ic : List Member) : Prop where
  /-- Whatever is demanded has an implementation. -/
  implemented : demand oa ia = [] ∨ oc ≠ []
  /-- The abstract declarations of the class may stand side by side. -/
  abstractCollisionless : Collisionless oa
  /-- The implementations of the class may stand side by side. -/
  concreteCollisionless : Collisionless oc
  /-- The implementations are what is demanded. -/
  meets : Demand.Meets o (demand oa ia) oc
  /-- Nothing can be assigned where only reading is demanded or an ancestor forbids assignment. -/
  unassignable : (Demand.Reads (demand oa ia) ∧ ¬ Demand.Writes (demand oa ia)) ∨ ic ≠ [] →
    ∀ m ∈ oc, ¬ m.Assigns
  /-- Abstract getters and setters of the class agree. -/
  abstractAgree : AccessorsAgree oa
  /-- Implemented getters and setters of the class agree. -/
  concreteAgree : AccessorsAgree oc
  /-- Implemented methods and accessors have bodies. -/
  bodies : ∀ m ∈ oc, m.kind ≠ .field → m.hasBody = true
  /-- If so desired, the class declares nothing abstract. -/
  noAbstract : o.reportAbstractInConcrete = true → oa = []
  /-- If so desired, getter and setter are either both abstract or both implemented. -/
  noSplit : o.reportAccessorAbstractness = true →
    ¬ SplitAccessors oa oc .getAccessor .setAccessor
      ∧ ¬ SplitAccessors oa oc .setAccessor .getAccessor

namespace Collisionless

variable {ms : List Member}

/-- No kind occurs twice. -/
theorem nodup_kinds (h : Collisionless ms) : (ms.map (·.kind)).Nodup := by
  rcases h with h | h
  · match ms, h with
    | [], _ => simp
    | [m], _ => simp
  · exact h.nodup_iff.mpr (by decide)

/-- Without collisions, the first member of a kind is the only one. -/
theorem firstOfKind_eq_some_iff (h : Collisionless ms) {kind : MemberKind} {m : Member} :
    firstOfKind kind ms = some m ↔ m ∈ ms ∧ m.kind = kind := by
  constructor
  · exact fun hm => ⟨mem_of_firstOfKind hm, kind_of_firstOfKind hm⟩
  · rintro ⟨hm, rfl⟩
    have hn := h.nodup_kinds
    clear h
    induction ms with
    | nil => cases hm
    | cons a ms ih =>
      obtain ⟨ha, hn⟩ := List.nodup_cons.mp hn
      rcases List.mem_cons.mp hm with rfl | hm
      · simp [firstOfKind]
      · have hne : a.kind ≠ m.kind := fun he => ha (List.mem_map.mpr ⟨m, hm, he.symm⟩)
        rw [firstOfKind, List.find?_cons, beq_eq_false_iff_ne.mpr hne]
        exact ih hm hn

/-- Without collisions, the first getter and the first setter agree if all do. -/
theorem pairAgrees_iff (h : Collisionless ms) : Subject.PairAgrees ms ↔ AccessorsAgree ms := by
  constructor
  · intro ha g hg t ht hgk htk
    exact ha g t (h.firstOfKind_eq_some_iff.mpr ⟨hg, hgk⟩) (h.firstOfKind_eq_some_iff.mpr ⟨ht, htk⟩)
  · intro ha g t hg ht
    exact ha g (mem_of_firstOfKind hg) t (mem_of_firstOfKind ht) (kind_of_firstOfKind hg)
      (kind_of_firstOfKind ht)

/-- A first declaration that is no accessor is the only one. -/
theorem eq_singleton {first : Member} {rest : List Member} (h : Collisionless (first :: rest))
    (hk : first.kind.isAccessor = false) : rest = [] := by
  rcases h with h | h
  · exact List.eq_nil_of_length_eq_zero (by simpa using h)
  · have hm : first.kind ∈ [MemberKind.getAccessor, .setAccessor] := h.mem_iff.mp (by simp)
    simp only [List.mem_cons, List.not_mem_nil, or_false] at hm
    rcases hm with hm | hm <;> simp [hm, MemberKind.isAccessor] at hk

/-- Beside an accessor there are only accessors. -/
theorem isAccessor_of_mem (h : Collisionless ms) {m : Member} (hm : m ∈ ms)
    (hk : m.kind.isAccessor = true) : ∀ n ∈ ms, n.kind.isAccessor = true := by
  intro n hn
  rcases h with h | h
  · match ms, h with
    | [a], _ =>
      rw [List.mem_singleton.mp hm] at hk
      exact List.mem_singleton.mp hn ▸ hk
  · have hn := h.mem_iff.mp (List.mem_map_of_mem hn)
    simp only [List.mem_cons, List.not_mem_nil, or_false] at hn
    rcases hn with hn | hn <;> rw [hn] <;> rfl

end Collisionless

namespace Demand

/-- The requirement of a property asks for reading if one of its declarations does. -/
theorem requiresRead_iff (first : Member) (q : List Member) :
    (PropertyRequirement.ofMembers first q).requiresRead = true ↔ Reads q := by
  rw [PropertyRequirement.requiresRead, Bool.or_eq_true]
  simp only [PropertyRequirement.ofMembers, isSome_firstOfKind_iff, Reads]
  constructor
  · rintro (⟨m, hm, hk⟩ | ⟨m, hm, hk⟩)
    · exact ⟨m, hm, .inl hk⟩
    · exact ⟨m, hm, .inr hk⟩
  · rintro ⟨m, hm, hk | hk⟩
    · exact .inl ⟨m, hm, hk⟩
    · exact .inr ⟨m, hm, hk⟩

/-- The requirement of a property asks for writing if one of its declarations does. -/
theorem requiresWrite_iff (first : Member) (q : List Member) :
    (PropertyRequirement.ofMembers first q).requiresWrite = true ↔ Writes q := by
  rw [PropertyRequirement.requiresWrite, Bool.or_eq_true]
  simp only [PropertyRequirement.ofMembers, isSome_firstOfKind_iff, Writes]
  apply or_congr_left
  cases firstOfKind .field q <;> simp

/-- Whatever begins with a field or an accessor demands reading or writing. -/
theorem reads_or_writes {first : Member} (rest : List Member) (hk : first.kind ≠ .method) :
    Reads (first :: rest) ∨ Writes (first :: rest) := by
  cases hf : first.kind with
  | method => exact absurd hf hk
  | field => exact .inl ⟨first, List.mem_cons_self, .inl hf⟩
  | getAccessor => exact .inl ⟨first, List.mem_cons_self, .inr hf⟩
  | setAccessor => exact .inr (.inr ⟨first, List.mem_cons_self, hf⟩)

/-- Whether only reading is demanded or an ancestor forbids assignment. -/
theorem isSome_readOnlySource_iff (first : Member) (q ic : List Member) :
    (Subject.readOnlySource (some (.property (.ofMembers first q))) ic.head?).isSome = true ↔
      (Reads q ∧ ¬ Writes q) ∨ ic ≠ [] := by
  rw [← requiresRead_iff first q, ← requiresWrite_iff first q, Subject.readOnlySource]
  cases ic with
  | nil =>
    cases hr : (PropertyRequirement.ofMembers first q).requiresRead <;>
      cases hw : (PropertyRequirement.ofMembers first q).requiresWrite <;>
      simp [Requirement.isReadOnly, Option.filter, hr, hw]
  | cons a ic => simp

end Demand

section Provisions

open Subject

variable {o : Options} {first : Member} {rest : List Member} {p : Provision}

/-- The shapes of a provision by declarations that may stand side by side. -/
theorem provision_cases (h : Collisionless (first :: rest))
    (hp : Provision.ofMembers? (first :: rest) = some p) :
    (first.kind = .field ∧ rest = [] ∧ p = .field first)
      ∨ (first.kind = .method ∧ rest = [] ∧ p = .method first)
      ∨ (first.kind.isAccessor = true ∧ p = .accessors (firstOfKind .getAccessor (first :: rest))
        (firstOfKind .setAccessor (first :: rest))) := by
  rw [Provision.ofMembers?] at hp
  cases hk : first.kind with
  | field =>
    have hr := h.eq_singleton (by rw [hk]; rfl)
    simp only [hk, Option.some.injEq] at hp
    exact .inl ⟨rfl, hr, hp.symm⟩
  | method =>
    have hr := h.eq_singleton (by rw [hk]; rfl)
    simp only [hk, Option.some.injEq] at hp
    exact .inr (.inl ⟨rfl, hr, hp.symm⟩)
  | getAccessor =>
    simp only [hk, Option.some.injEq] at hp
    exact .inr (.inr ⟨rfl, hp.symm⟩)
  | setAccessor =>
    simp only [hk, Option.some.injEq] at hp
    exact .inr (.inr ⟨rfl, hp.symm⟩)

/-- A provision can be assigned where one of the implementations can. -/
theorem writer_eq_none_iff (h : Collisionless (first :: rest))
    (hp : Provision.ofMembers? (first :: rest) = some p) :
    p.writer = none ↔ ∀ m ∈ first :: rest, ¬ m.Assigns := by
  rcases provision_cases h hp with ⟨hk, rfl, rfl⟩ | ⟨hk, rfl, rfl⟩ | ⟨hk, rfl⟩
  · cases hf : first.isReadonly <;> simp [Provision.writer, Member.Assigns, hk, hf]
  · simp [Provision.writer, Member.Assigns, hk]
  · rw [Provision.writer, Option.eq_none_iff_forall_ne_some]
    constructor
    · rintro hw m hm (hs | ⟨hf, _⟩)
      · exact hw m (h.firstOfKind_eq_some_iff.mpr ⟨hm, hs⟩)
      · have hm := h.isAccessor_of_mem List.mem_cons_self hk m hm
        rw [hf] at hm
        cases hm
    · intro hw m hm
      exact hw m (mem_of_firstOfKind hm) (.inl (kind_of_firstOfKind hm))

/-- A provision fits a required method when it is a method of a fitting type. -/
theorem methodMeets_iff (h : Collisionless (first :: rest))
    (hp : Provision.ofMembers? (first :: rest) = some p) (required : Member) :
    KindFits o (.method required) p
        ∧ (∀ c ∈ comparisons (.method required) p, c.verdict.holds = true) ↔
      Demand.MethodMeets required first := by
  unfold Demand.MethodMeets
  rcases provision_cases h hp with ⟨hk, rfl, rfl⟩ | ⟨hk, rfl, rfl⟩ | ⟨hk, rfl⟩
  · simp [KindFits, hk]
  · simp [KindFits, comparisons, reads, MemberType.isAssignable, hk]
  · have hne : first.kind ≠ .method := by
      rintro he
      simp [he, MemberKind.isAccessor] at hk
    simp [KindFits, hne]

/-- A readonly field fits a property that need not be assigned. -/
theorem readonlyFieldMeets_iff {required : Member} {q : List Member}
    (hq : Demand.Reads q ∨ Demand.Writes q) {f : Member} (hf : f.isReadonly = true) :
    KindFits o (.property (.ofMembers required q)) (.field f)
        ∧ (∀ c ∈ comparisons (.property (.ofMembers required q)) (.field f),
          c.verdict.holds = true) ↔
      Demand.ReadonlyFieldMeets q f := by
  rw [KindFits, Demand.requiresRead_iff, Demand.requiresWrite_iff, comparisons, if_pos hf,
    Demand.ReadonlyFieldMeets]
  have hc : (∀ c ∈ (PropertyRequirement.ofMembers required q).readType.toList.map (reads · f.type),
      c.verdict.holds = true) ↔ ∀ t ∈ Demand.readType q, f.type.isAssignable t = true := by
    rw [List.forall_mem_map]
    simp only [Option.mem_toList]
    rfl
  rw [hc, hf]
  constructor
  · rintro ⟨⟨hw, _⟩, ht⟩
    exact ⟨fun h => by simpa using hw h, ht⟩
  · rintro ⟨hw, ht⟩
    exact ⟨⟨fun h => absurd h hw, .inl (hq.resolve_right hw)⟩, ht⟩

/-- A field that can be assigned fits a property of the same type up to widening. -/
theorem fieldMeets_iff {required : Member} {q : List Member} {f : Member}
    (hf : f.isReadonly = false) :
    KindFits o (.property (.ofMembers required q)) (.field f)
        ∧ (∀ c ∈ comparisons (.property (.ofMembers required q)) (.field f),
          c.verdict.holds = true) ↔
      Demand.FieldMeets o q f := by
  have hne : ¬ f.isReadonly = true := by simp [hf]
  rw [KindFits, Demand.requiresRead_iff, comparisons, if_neg hne, Demand.FieldMeets]
  have hc : (∀ c ∈ ((PropertyRequirement.ofMembers required q).readType.or
        (PropertyRequirement.ofMembers required q).writeType).toList.map (agrees · f.type),
      c.verdict.holds = true) ↔
        ∀ t ∈ (Demand.readType q).or (Demand.writeType q),
          f.type.widen.isIdentical t.widen = true := by
    rw [List.forall_mem_map]
    simp only [Option.mem_toList]
    rfl
  rw [hc]
  constructor
  · rintro ⟨⟨_, hr⟩, ht⟩
    exact ⟨hr, ht⟩
  · rintro ⟨hr, ht⟩
    exact ⟨⟨fun _ => hf, hr⟩, ht⟩

/-- What holds of the pair of two optional values. -/
theorem forall_mem_zip_toList {a? : Option α} {b? : Option β} {P : α × β → Prop} :
    (∀ x ∈ a?.toList.zip b?.toList, P x) ↔ ∀ b ∈ b?, ∀ a ∈ a?, P (a, b) := by
  cases a? <;> cases b? <;> simp

/-- Accessors fit a property when they cover it and their types fit. -/
theorem accessorsMeet_iff {required : Member} {q oc : List Member} (h : Collisionless oc) :
    KindFits o (.property (.ofMembers required q))
        (.accessors (firstOfKind .getAccessor oc) (firstOfKind .setAccessor oc))
        ∧ (∀ c ∈ comparisons (.property (.ofMembers required q))
            (.accessors (firstOfKind .getAccessor oc) (firstOfKind .setAccessor oc)),
          c.verdict.holds = true) ↔
      Demand.AccessorsMeet q oc := by
  have hread : (∀ g ∈ firstOfKind .getAccessor oc, ∀ t ∈ Demand.readType q,
      (reads t g.type).verdict.holds = true) ↔ ∀ m ∈ oc, m.kind = .getAccessor →
        ∀ t ∈ Demand.readType q, m.type.isAssignable t = true := by
    simp only [Option.mem_def, h.firstOfKind_eq_some_iff, and_imp]
    rfl
  have hwrite : (∀ s ∈ firstOfKind .setAccessor oc, ∀ t ∈ Demand.writeType q,
      (stores t s.type).verdict.holds = true) ↔ ∀ m ∈ oc, m.kind = .setAccessor →
        ∀ t ∈ Demand.writeType q, t.isAssignable m.type = true := by
    simp only [Option.mem_def, h.firstOfKind_eq_some_iff, and_imp]
    rfl
  rw [KindFits, Demand.requiresRead_iff, Demand.requiresWrite_iff, isSome_firstOfKind_iff,
    isSome_firstOfKind_iff, comparisons, List.forall_mem_append, List.forall_mem_map,
    List.forall_mem_map, forall_mem_zip_toList, forall_mem_zip_toList]
  constructor
  · rintro ⟨⟨hg, hs⟩, hr, hw⟩
    exact ⟨hg, hs, hread.mp hr, hwrite.mp hw⟩
  · rintro ⟨hg, hs, hr, hw⟩
    exact ⟨⟨hg, hs⟩, hread.mpr hr, hwrite.mpr hw⟩

/-- A provision fits a required property as its first declaration says. -/
theorem propertyMeets_iff (h : Collisionless (first :: rest))
    (hp : Provision.ofMembers? (first :: rest) = some p) (required : Member) {q : List Member}
    (hq : Demand.Reads q ∨ Demand.Writes q) :
    KindFits o (.property (.ofMembers required q)) p
        ∧ (∀ c ∈ comparisons (.property (.ofMembers required q)) p, c.verdict.holds = true) ↔
      Demand.PropertyMeets o q (first :: rest) first := by
  unfold Demand.PropertyMeets
  rcases provision_cases h hp with ⟨hk, rfl, rfl⟩ | ⟨hk, rfl, rfl⟩ | ⟨hk, rfl⟩
  · rw [hk]
    dsimp only
    split
    · next hf => exact readonlyFieldMeets_iff hq hf
    · next hf => exact fieldMeets_iff (by simpa using hf)
  · simp [KindFits, hk]
  · rw [accessorsMeet_iff h]
    cases hf : first.kind with
    | field => simp [hf, MemberKind.isAccessor] at hk
    | method => simp [hf, MemberKind.isAccessor] at hk
    | getAccessor => rfl
    | setAccessor => rfl

/-- A concrete class reports nothing about its implementations when they meet the demand and cannot
be assigned where that is forbidden. -/
theorem violations_provision_iff_meets {s : Subject} (hs : s.isAbstract = false) (name : String)
    (h : Collisionless (first :: rest)) (hp : Provision.ofMembers? (first :: rest) = some p)
    (q ic : List Member) :
    violations (s.provision name (Requirement.ofMembers? q) ic.head? p) = [] ↔
      Demand.Meets s.options q (first :: rest)
        ∧ ((Demand.Reads q ∧ ¬ Demand.Writes q) ∨ ic ≠ [] → ∀ m ∈ first :: rest, ¬ m.Assigns) := by
  rw [← writer_eq_none_iff h hp]
  cases q with
  | nil =>
    have hm : Demand.Meets s.options [] (first :: rest) := fun _ _ h _ => nomatch h
    have hr : ¬ Demand.Reads [] := fun ⟨_, h, _⟩ => nomatch h
    show violations (s.readonly name none ic.head? p) = [] ↔ _
    rw [violations_readonly_eq_nil_iff]
    cases ic <;> simp [readOnlySource, hm, hr]
  | cons required q =>
    have hmeets : Demand.Meets s.options (required :: q) (first :: rest) ↔
        if required.kind = .method then Demand.MethodMeets required first
        else Demand.PropertyMeets s.options (required :: q) (first :: rest) first := by
      simp [Demand.Meets]
    rw [hmeets, Requirement.ofMembers?_cons]
    split
    · rw [violations_provision_eq_nil_iff s hs, ← methodMeets_iff (o := s.options) h hp required]
      have hw : KindFits s.options (.method required) p → p.writer = none := by
        cases p with
        | method => exact fun _ => rfl
        | field => exact False.elim
        | accessors => exact False.elim
      constructor
      · rintro ⟨hk, _, ht⟩
        exact ⟨⟨hk, ht⟩, fun _ => hw hk⟩
      · rintro ⟨⟨hk, ht⟩, _⟩
        exact ⟨hk, fun _ => hw hk, ht⟩
    · next hk =>
      rw [violations_provision_eq_nil_iff s hs, Demand.isSome_readOnlySource_iff,
        ← propertyMeets_iff (o := s.options) h hp required (Demand.reads_or_writes q hk)]
      constructor
      · rintro ⟨hk, hw, ht⟩
        exact ⟨⟨hk, ht⟩, hw⟩
      · rintro ⟨⟨hk, ht⟩, hw⟩
        exact ⟨hk, hw, ht⟩

end Provisions

namespace Subject

/-- A kind occurs if a member has it. -/
theorem hasKind_iff {ms : List Member} {kind : MemberKind} :
    hasKind ms kind = true ↔ ∃ m ∈ ms, m.kind = kind := by
  simp [hasKind]

/-- The test for split accessors decides the relation. -/
theorem splitAccessors_eq_false_iff (oa oc : List Member) (half other : MemberKind) :
    splitAccessors oa oc half other = false ↔ ¬ SplitAccessors oa oc half other := by
  have hnot : ∀ ms kind, hasKind ms kind = false ↔ ∀ m ∈ ms, m.kind ≠ kind := by
    intro ms kind
    rw [← Bool.not_eq_true, hasKind_iff]
    simp
  rw [← Bool.not_eq_true, splitAccessors, SplitAccessors, ← hasKind_iff, ← hasKind_iff, ← hnot,
    ← hnot]
  simp [and_assoc]

/-- The rules for a name with an implementation, or without need of one, report nothing when its
declarations satisfy every clause of the contract but the first. -/
theorem violations_fullCheck_eq_nil_iff {s : Subject} (hs : s.isAbstract = false) (name : String)
    (q ic oa oc : List Member) :
    violations (s.fullCheck name (Requirement.ofMembers? q) ic.head? oa oc) = [] ↔
      Collisionless oa ∧ Collisionless oc ∧ Demand.Meets s.options q oc
        ∧ ((Demand.Reads q ∧ ¬ Demand.Writes q) ∨ ic ≠ [] → ∀ m ∈ oc, ¬ m.Assigns)
        ∧ AccessorsAgree oa ∧ AccessorsAgree oc
        ∧ (∀ m ∈ oc, m.kind ≠ .field → m.hasBody = true)
        ∧ (s.options.reportAbstractInConcrete = true → oa = [])
        ∧ (s.options.reportAccessorAbstractness = true →
          ¬ SplitAccessors oa oc .getAccessor .setAccessor
            ∧ ¬ SplitAccessors oa oc .setAccessor .getAccessor) := by
  have hbody : ∀ kind : MemberKind, kind.requiresBody = true ↔ kind ≠ .field := by
    intro kind
    cases kind <;> simp [MemberKind.requiresBody]
  have hprov : Collisionless oc →
      (violations ((Provision.ofMembers? oc).elim []
        (s.provision name (Requirement.ofMembers? q) ic.head?)) = [] ↔ Demand.Meets s.options q oc
          ∧ ((Demand.Reads q ∧ ¬ Demand.Writes q) ∨ ic ≠ [] → ∀ m ∈ oc, ¬ m.Assigns)) := by
    intro h
    cases hp : Provision.ofMembers? oc with
    | some p =>
      cases oc with
      | nil => cases hp
      | cons first rest => exact violations_provision_iff_meets hs name h hp q ic
    | none =>
      rw [Provision.ofMembers?_eq_none_iff] at hp
      simp [hp, Demand.Meets]
  simp only [fullCheck_eq, violations_append, List.append_eq_nil_iff,
    violations_duplicates_eq_nil_iff, violations_accessorPairs_eq_nil_iff,
    violations_bodies_eq_nil_iff, violations_abstractMembers_eq_nil_iff s hs,
    violations_accessorAbstractness_eq_nil_iff, splitAccessors_eq_false_iff, hbody]
  constructor
  · rintro ⟨⟨⟨⟨⟨hoa, hoc⟩, hp⟩, ha, hc⟩, hb⟩, habs, hsplit⟩
    obtain ⟨hm, hu⟩ := (hprov hoc).mp hp
    exact ⟨hoa, hoc, hm, hu, hoa.pairAgrees_iff.mp ha, hoc.pairAgrees_iff.mp hc, hb, habs, hsplit⟩
  · rintro ⟨hoa, hoc, hm, hu, ha, hc, hb, habs, hsplit⟩
    exact ⟨⟨⟨⟨⟨hoa, hoc⟩, (hprov hoc).mpr ⟨hm, hu⟩⟩, hoa.pairAgrees_iff.mpr ha,
      hoc.pairAgrees_iff.mpr hc⟩, hb⟩, habs, hsplit⟩

end Subject

namespace Group

/-- A concrete class reports nothing about a group exactly when its contract holds. -/
theorem violations_findings_eq_nil_iff {s : Subject} (hs : s.isAbstract = false) (g : Group) :
    violations (g.findings s) = [] ↔
      Contract s.options g.ownAbstract g.ownConcrete g.inheritedAbstract
        g.inheritedConstraints := by
  have hu := violations_unmet_eq_nil_iff hs g
  have hfull := Subject.violations_fullCheck_eq_nil_iff hs g.name g.demanded
    g.inheritedConstraints g.ownAbstract g.ownConcrete
  rw [findings_eq, violations_append, violations_append, List.append_eq_nil_iff,
    List.append_eq_nil_iff]
  constructor
  · rintro ⟨⟨_, himp⟩, h⟩
    obtain ⟨hoa, hoc, hm, hw, ha, hc, hb, habs, hsplit⟩ := hfull.mp h
    exact ⟨hu.mp himp, hoa, hoc, hm, hw, ha, hc, hb, habs, hsplit⟩
  · rintro ⟨himp, hoa, hoc, hm, hw, ha, hc, hb, habs, hsplit⟩
    exact ⟨⟨rfl, hu.mpr himp⟩, hfull.mpr ⟨hoa, hoc, hm, hw, ha, hc, hb, habs, hsplit⟩⟩

end Group

namespace ClassDecl

/-- Declarations of a class that are not reported as duplicates may stand side by side. -/
theorem collisionless_of_no_duplicate {c : ClassDecl} {o : Options} {name : String}
    (h : ∀ v ∈ (c.check o).violationsFor name, v.code ≠ .duplicate) :
    Collisionless (c.ownAbstract name) ∧ Collisionless (c.ownConcrete name) := by
  let s := Subject.ofClass c o
  let g := c.groupOf name
  have hone : ∀ {ms}, (∀ f ∈ s.duplicates g.name ms, f ∈ g.findings s) → Collisionless ms := by
    intro ms hms
    rw [← s.violations_duplicates_eq_nil_iff g.name, List.eq_nil_iff_forall_not_mem]
    intro v hv
    have hreported : v ∈ (c.check o).violationsFor name := by
      rw [violationsFor_check]
      exact mem_violations.mpr (hms _ (mem_violations.mp hv))
    have hcode := ((s.allWithin_duplicates g.name ms).violation hv).2.1
    exact h v hreported (List.mem_singleton.mp hcode)
  rw [← ownAbstract_groupOf, ← ownConcrete_groupOf]
  rw [Group.findings_eq, Group.fullCheck, Subject.fullCheck_eq] at hone
  exact ⟨hone fun f hf => by simp [g, s, hf], hone fun f hf => by simp [g, s, hf]⟩

/-- A check of a concrete class reports nothing under a name exactly when the declarations in scope
under that name satisfy the contract. -/
theorem violationsFor_eq_nil_iff_contract (c : ClassDecl) (hc : c.isAbstract = false) (o : Options)
    (name : String) :
    (c.check o).violationsFor name = [] ↔
      Contract o (c.ownAbstract name) (c.ownConcrete name) (c.groupOf name).inheritedAbstract
        (c.groupOf name).inheritedConstraints := by
  have h := Group.violations_findings_eq_nil_iff (s := .ofClass c o) hc (c.groupOf name)
  rwa [← violationsFor_check, ownAbstract_groupOf, ownConcrete_groupOf] at h

/-- A class whose getter and setter implement those that its ancestor demands. -/
def badge : ClassDecl :=
  ⟨"Badge", false,
    [.concrete .getAccessor "Badge" "label" (.literal (.string "visitor")),
      .concrete .setAccessor "Badge" "label" (.keyword .string)],
    [.ofInterface "Labelled"
      [.concrete .getAccessor "Labelled" "label" (.keyword .string),
        .concrete .setAccessor "Labelled" "label" (.literal (.string "staff"))]]⟩

/-- The label of the badge has a silent report and fulfils its contract. -/
theorem badge_label_fulfils_contract :
    badge.isAbstract = false ∧ (badge.check .strictest).violationsFor "label" = []
      ∧ Contract .strictest (badge.ownAbstract "label") (badge.ownConcrete "label")
        (badge.groupOf "label").inheritedAbstract (badge.groupOf "label").inheritedConstraints := by
  have h : (badge.check .strictest).violationsFor "label" = [] := by decide
  exact ⟨rfl, h, (badge.violationsFor_eq_nil_iff_contract rfl .strictest "label").mp h⟩

end ClassDecl

end ClassContract
