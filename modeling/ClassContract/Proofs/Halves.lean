import ClassContract.Proofs.Findings

/-!
# Required halves

A requirement that declarations amount to is `Formed` by them: a slot holds the first declaration of
its kind, one of the slots is what reports refer to, and a half of the property is required exactly
where a declaration and a type for it are known. So wherever a provision lacks a required half there
is a declaration to refer to, and the half is reported by a concrete class and left to its
subclasses by an abstract one: `ofMembers?_formed`.
-/

namespace ClassContract

/-- A declaration is the first of its kind in a list. -/
def LeadsKind (ms : List Member) (m : Member) : Prop :=
  ∃ before after, ms = before ++ m :: after ∧ ∀ b ∈ before, b.kind ≠ m.kind

/-- The first member of a kind has the kind and no other of it before it. -/
theorem firstOfKind_eq_some_iff {kind : MemberKind} {ms : List Member} {m : Member} :
    firstOfKind kind ms = some m ↔ m.kind = kind ∧ LeadsKind ms m := by
  rw [firstOfKind, List.find?_eq_some_iff_append]
  constructor
  · rintro ⟨hm, before, after, rfl, hbefore⟩
    obtain rfl : m.kind = kind := beq_iff_eq.mp hm
    exact ⟨rfl, before, after, rfl, fun b hb => by simpa using hbefore b hb⟩
  · rintro ⟨rfl, before, after, rfl, hbefore⟩
    exact ⟨beq_self_eq_true _, before, after, rfl, fun b hb => by simpa using hbefore b hb⟩

namespace PropertyRequirement

/-- What a requirement holds of a kind; it holds no methods. -/
def slot (p : PropertyRequirement) : MemberKind → Option Member
  | .field => p.field
  | .getAccessor => p.getter
  | .setAccessor => p.setter
  | .method => none

/-- Whether the half of a property that an accessor makes up is required. -/
def requires (p : PropertyRequirement) : MemberKind → Bool
  | .getAccessor => p.requiresRead
  | .setAccessor => p.requiresWrite
  | .field | .method => false

/-- The declaration that requires a half. -/
def source (p : PropertyRequirement) : MemberKind → Option Member
  | .getAccessor => p.readSource
  | .setAccessor => p.writeSource
  | .field | .method => none

/-- The type that a half has to have. -/
def halfType (p : PropertyRequirement) : MemberKind → Option MemberType
  | .getAccessor => p.readType
  | .setAccessor => p.writeType
  | .field | .method => none

/-- What declarations that do not begin with a method require. -/
structure Formed (ms : List Member) (p : PropertyRequirement) : Prop where
  /-- A slot holds the first declaration of its kind, and is empty only where there is none. -/
  slot_iff : ∀ kind m, p.slot kind = some m ↔ kind ≠ .method ∧ m.kind = kind ∧ LeadsKind ms m
  /-- Reports refer to the first declaration. -/
  first : ms.head? = some p.primary
  /-- It is in one of the slots. -/
  primary : ∃ kind, p.slot kind = some p.primary
  /-- At least one half is required. -/
  required : ∃ half, p.requires half = true
  /-- There is a declaration for exactly the halves that are required. -/
  source : ∀ half, (p.source half).isSome = p.requires half
  /-- There is a type for exactly the halves that are required. -/
  halfType : ∀ half, (p.halfType half).isSome = p.requires half

/-- A half has a source exactly if it is required. -/
theorem isSome_source (p : PropertyRequirement) (half : MemberKind) :
    (p.source half).isSome = p.requires half := by
  cases half with
  | getAccessor => exact p.isSome_readSource
  | setAccessor => exact p.isSome_writeSource
  | field | method => rfl

/-- The type of a half is that of the declaration that requires it. -/
theorem halfType_eq (p : PropertyRequirement) (half : MemberKind) :
    p.halfType half = (p.source half).map (·.type) := by
  cases half <;> rfl

/-- The slots hold the first declaration of each kind. -/
theorem slot_ofMembers (first : Member) (ms : List Member) {kind : MemberKind}
    (h : kind ≠ .method) : (ofMembers first ms).slot kind = firstOfKind kind ms := by
  cases kind with
  | method => exact absurd rfl h
  | field | getAccessor | setAccessor => rfl

/-- A field requires reading at least, whether or not it is readonly. -/
theorem exists_requires_of_slot {p : PropertyRequirement} {kind : MemberKind} {m : Member}
    (h : p.slot kind = some m) : ∃ half, p.requires half = true := by
  cases kind with
  | field =>
    have hfield : p.field = some m := h
    exact ⟨.getAccessor, by simp [requires, requiresRead, hfield]⟩
  | getAccessor =>
    have hgetter : p.getter = some m := h
    exact ⟨.getAccessor, by simp [requires, requiresRead, hgetter]⟩
  | setAccessor =>
    have hsetter : p.setter = some m := h
    exact ⟨.setAccessor, by simp [requires, requiresWrite, hsetter]⟩
  | method => cases h

/-- The requirement of a property is formed as its declarations say. -/
theorem formed_ofMembers {first : Member} (rest : List Member) (h : first.kind ≠ .method) :
    (ofMembers first (first :: rest)).Formed (first :: rest) := by
  have hslots : ∀ kind m, (ofMembers first (first :: rest)).slot kind = some m ↔
      kind ≠ .method ∧ m.kind = kind ∧ LeadsKind (first :: rest) m := by
    intro kind m
    by_cases hk : kind = .method
    · subst hk
      simp [slot]
    · rw [slot_ofMembers first _ hk, firstOfKind_eq_some_iff]
      simp [hk]
  have hprimary : (ofMembers first (first :: rest)).slot first.kind = some first :=
    (hslots _ _).mpr ⟨h, rfl, [], rest, rfl, by simp⟩
  exact
    { slot_iff := hslots
      first := rfl
      primary := ⟨first.kind, hprimary⟩
      required := exists_requires_of_slot hprimary
      source := isSome_source _
      halfType := fun half => by rw [halfType_eq, Option.isSome_map, isSome_source] }

end PropertyRequirement

namespace Requirement

/-- What declarations require: a method that comes first, or a property. -/
inductive Formed (ms : List Member) : Requirement → Prop
  | method {m : Member} (first : ms.head? = some m) (kind : m.kind = .method) :
      Formed ms (.method m)
  | property {p : PropertyRequirement} (formed : p.Formed ms) : Formed ms (.property p)

/-- Every requirement is formed as its declarations say. -/
theorem formed_of_ofMembers? {ms : List Member} {r : Requirement} (h : ofMembers? ms = some r) :
    r.Formed ms := by
  cases ms with
  | nil => cases h
  | cons first rest =>
    rw [ofMembers?_cons] at h
    split at h
    · next hk =>
      cases h
      exact .method rfl hk
    · next hk =>
      cases h
      exact .property (PropertyRequirement.formed_ofMembers rest hk)

end Requirement

/-- Whether a provision is a property without the half that an accessor makes up. -/
def Provision.lacks : Provision → MemberKind → Bool
  | .field f, .setAccessor => f.isReadonly
  | .accessors getter _, .getAccessor => getter.isNone
  | .accessors _ setter, .setAccessor => setter.isNone
  | _, _ => false

namespace Subject

/-- A required half that a provision lacks is a gap. -/
theorem mem_gaps_of_lacks {own : List Member} {p : Provision}
    (hown : Provision.ofMembers? own = some p) {q : PropertyRequirement} {half : MemberKind}
    {m : Member} (hq : q.requires half = true) (hp : p.lacks half = true)
    (hm : q.source half = some m) : ⟨m, half, p.kind⟩ ∈ gaps (.property q) p := by
  cases p with
  | method _ => cases hp
  | field f =>
    cases half with
    | setAccessor =>
      obtain ⟨f', _, hk, hf⟩ : ∃ f' ∈ own, f'.kind = .field ∧ Provision.field f = .field f' := by
        rcases Provision.cases_of_ofMembers? hown with h | ⟨_, _, _, h⟩ | ⟨_, h⟩
        · exact h
        · cases h
        · cases h
      cases hf
      have hwrite : q.requiresWrite = true := hq
      have hreadonly : f.isReadonly = true := hp
      have hsource : q.writeSource = some m := hm
      simp [gaps, hwrite, hreadonly, hsource, hk, Provision.kind]
    | field | method | getAccessor => cases hp
  | accessors getter setter =>
    have hpair := accessors_of_ofMembers? hown
    cases half with
    | getAccessor =>
      obtain rfl : getter = none := Option.isNone_iff_eq_none.mp hp
      have hread : q.requiresRead = true := hq
      have hsource : q.readSource = some m := hm
      simp [gaps, hread, hsource, Provision.kind]
    | setAccessor =>
      obtain rfl : setter = none := Option.isNone_iff_eq_none.mp hp
      obtain ⟨g, rfl⟩ : ∃ g, getter = some g := Option.isSome_iff_exists.mp (by simpa using hpair)
      have hwrite : q.requiresWrite = true := hq
      have hsource : q.writeSource = some m := hm
      simp [gaps, hwrite, hsource, Provision.kind]
    | field | method => cases hp

/-- A provision that lacks a required half is not of a wrong kind. -/
theorem kindOutcome_ne_mismatch {q : PropertyRequirement} {p : Provision} {half : MemberKind}
    (hq : q.requires half = true) (hp : p.lacks half = true) (o : Options) :
    kindOutcome o (.property q) p ≠ .mismatch := by
  cases p with
  | method _ => cases hp
  | field f =>
    cases half with
    | setAccessor =>
      have hwrite : q.requiresWrite = true := hq
      have hreadonly : f.isReadonly = true := hp
      simp [kindOutcome, hwrite, hreadonly]
    | field | method | getAccessor => cases hp
  | accessors getter setter =>
    rw [kindOutcome]
    split <;> decide

/-- The comparison of kinds passes over no gap of a property. -/
theorem mem_kinds_of_mem_gaps {s : Subject} {name : String} {r : Requirement} {p : Provision}
    {g : Gap} (ho : kindOutcome s.options r p ≠ .mismatch) (hg : g ∈ gaps r p) {f : Finding}
    (hf : f ∈ s.missingHalf name g.source g.missing g.present) : f ∈ (s.kinds name r p).2 := by
  rw [kinds_eq, if_neg ho]
  exact List.mem_flatMap.mpr ⟨g, hg, hf⟩

end Subject

/-- Every required half that a provision lacks comes up in the comparison of kinds, with the
declaration and the type that it has to have: a concrete class reports it, and an abstract class
leaves it to its subclasses. -/
def PropertyRequirement.PassesOverNoHalf (q : PropertyRequirement) : Prop :=
  ∀ (s : Subject) (name : String) (own : List Member) (p : Provision) (half : MemberKind),
    Provision.ofMembers? own = some p → q.requires half = true → p.lacks half = true →
    ∃ m t, q.source half = some m ∧ q.halfType half = some t
      ∧ (s.isAbstract = false →
        s.violation name .unimplemented (some m.owner) (.kind half) (.kind p.kind)
          ∈ (s.kinds name (.property q) p).2)
      ∧ (s.isAbstract = true →
        .deferral ⟨m.name, half, true, false, t, m.owner, false⟩
          ∈ (s.kinds name (.property q) p).2)

/-- No required half is passed over. -/
theorem PropertyRequirement.passesOverNoHalf (q : PropertyRequirement) : q.PassesOverNoHalf := by
  intro s name own p half hown hq hp
  obtain ⟨m, hm⟩ := Option.isSome_iff_exists.mp ((q.isSome_source half).trans hq)
  have hgap := Subject.mem_gaps_of_lacks hown hq hp hm
  have hkinds := Subject.kindOutcome_ne_mismatch hq hp s.options
  refine ⟨m, m.type, hm, by rw [q.halfType_eq, hm]; rfl, fun hs => ?_, fun hs => ?_⟩
  · exact Subject.mem_kinds_of_mem_gaps hkinds hgap (by simp [Subject.missingHalf, hs])
  · exact Subject.mem_kinds_of_mem_gaps hkinds hgap (by simp [Subject.missingHalf, hs])

/-- What the comparison of kinds says of an implementation is said of the name. -/
theorem Group.kinds_subset_findings (s : Subject) {g : Group} {r : Requirement} {p : Provision}
    (hr : g.requirement? = some r) (hp : Provision.ofMembers? g.ownConcrete = some p) :
    (s.kinds g.name r p).2 ⊆ g.findings s := by
  intro f hf
  rw [findings_eq, fullCheck, Subject.fullCheck_eq, hp, hr, Option.elim_some,
    Subject.provision_some]
  simp [hf]

/-- Declarations amount to a requirement that is formed by them and consists of at least one of
them. If it is a property, no required half of it is passed over, and what is said of the halves is
among the findings for the name. -/
theorem Requirement.ofMembers?_formed {ms : List Member} (h : ms ≠ []) :
    ∃ r, ofMembers? ms = some r ∧ r.Formed ms ∧ r.members ≠ []
      ∧ (∀ q, r = .property q → q.PassesOverNoHalf)
      ∧ ∀ (s : Subject) (g : Group) (p : Provision), g.requirement? = some r →
        Provision.ofMembers? g.ownConcrete = some p → (s.kinds g.name r p).2 ⊆ g.findings s := by
  obtain ⟨r, hr⟩ := Option.ne_none_iff_exists'.mp (mt ofMembers?_eq_none_iff.mp h)
  exact ⟨r, hr, formed_of_ofMembers? hr, members_ne_nil hr, fun q _ => q.passesOverNoHalf,
    fun s _ _ => Group.kinds_subset_findings s⟩

/-- A readonly field, of which reading is required, and beside it a setter, which requires
assignment all the same. -/
def valveOpening : List Member :=
  [.asAbstract (.asReadonly (.concrete .field "Valve" "opening" (.keyword .number))),
    .asAbstract (.concrete .setAccessor "Valve" "opening" (.keyword .any))]

/-- The opening of the valve requires both halves, and a tap with a getter alone lacks the setter.
-/
theorem valveOpening_formed :
    valveOpening ≠ [] ∧ ∃ q, Requirement.ofMembers? valveOpening = some (.property q)
      ∧ q.Formed valveOpening ∧ q.requires .getAccessor = true ∧ q.requires .setAccessor = true
      ∧ ∀ getter : Member, getter.kind = .getAccessor →
        Subject.violation ⟨"Tap", false, .initial⟩ "opening" .unimplemented (some "Valve")
            (.kind .setAccessor) (.kind .getAccessor)
          ∈ (Subject.kinds ⟨"Tap", false, .initial⟩ "opening" (.property q)
            (.accessors (some getter) none)).2 := by
  have hne : valveOpening ≠ [] := List.cons_ne_nil _ _
  obtain ⟨r, hr, hformed, _, hhalves, _⟩ := Requirement.ofMembers?_formed hne
  cases hformed with
  | method first kind =>
    cases first
    cases kind
  | @property q hq =>
    obtain rfl : PropertyRequirement.ofMembers _ valveOpening = q :=
      Requirement.property.inj (Option.some.inj hr)
    refine ⟨hne, _, hr, hq, rfl, rfl, fun getter hk => ?_⟩
    have hown : Provision.ofMembers? [getter] = some (.accessors (some getter) none) := by
      simp [Provision.ofMembers?, firstOfKind, hk]
    obtain ⟨m, t, hm, _, hreport, _⟩ :=
      hhalves _ rfl ⟨"Tap", false, .initial⟩ "opening" [getter] _ .setAccessor hown rfl rfl
    cases hm
    exact hreport rfl

end ClassContract
