import ClassContract.Contract.Requirement
import ClassContract.Proofs.Distinct

/-!
# What requirements and provisions are made of

A requirement consists of some of the declarations it was built from, and every list of declarations
but the empty one amounts to a requirement with at least one declaration. The declarations it
consists of amount to the same requirement again, except that reports may refer to another one of
them: `ofMembers?_members`.
-/

namespace ClassContract

/-- Equal declarations agree in everything but the spelling of their types. -/
theorem Member.fields_eq_of_beq {a b : Member} (h : a == b) :
    a.name = b.name ∧ a.kind = b.kind ∧ a.isAbstract = b.isAbstract
      ∧ a.isReadonly = b.isReadonly ∧ a.hasBody = b.hasBody := by
  have h : a.same b = true := h
  simp only [same, Bool.and_eq_true, beq_iff_eq] at h
  obtain ⟨⟨⟨⟨⟨⟨hname, hkind⟩, habstract⟩, hreadonly⟩, _⟩, _⟩, hbody⟩ := h
  exact ⟨hname, hkind, habstract, hreadonly, hbody⟩

/-- Declarations of different kinds are different. -/
theorem Member.beq_eq_false_of_kind {a b : Member} (h : a.kind ≠ b.kind) : (a == b) = false :=
  Bool.eq_false_iff.mpr fun he => h (fields_eq_of_beq he).2.1

/-- An accessor that is no getter is a setter. -/
theorem MemberKind.eq_setAccessor_of_isAccessor {kind : MemberKind}
    (h : kind.isAccessor = true) (hne : kind ≠ .getAccessor) : kind = .setAccessor := by
  cases kind with
  | field => cases h
  | method => cases h
  | getAccessor => exact absurd rfl hne
  | setAccessor => rfl

/-- The first member of a kind is one of the members. -/
theorem mem_of_firstOfKind {kind : MemberKind} {ms : List Member} {m : Member}
    (h : firstOfKind kind ms = some m) : m ∈ ms := List.mem_of_find?_eq_some h

/-- The first member of a kind is of that kind. -/
theorem kind_of_firstOfKind {kind : MemberKind} {ms : List Member} {m : Member}
    (h : firstOfKind kind ms = some m) : m.kind = kind := by
  simpa using List.find?_some h

/-- There is a first member of a kind if there is one of that kind. -/
theorem isSome_firstOfKind_iff {kind : MemberKind} {ms : List Member} :
    (firstOfKind kind ms).isSome = true ↔ ∃ m ∈ ms, m.kind = kind := by
  simp [firstOfKind]

/-- There is no first member of a kind if there is none of that kind. -/
theorem firstOfKind_eq_none_iff {kind : MemberKind} {ms : List Member} :
    firstOfKind kind ms = none ↔ ∀ m ∈ ms, m.kind ≠ kind := by
  simp [firstOfKind]

/-- Declarations begin with the first of a kind. -/
theorem firstOfKind_cons_self (m : Member) (ms : List Member) :
    firstOfKind m.kind (m :: ms) = some m := List.find?_cons_of_pos (beq_self_eq_true _)

/-- The first of a kind is a first occurrence. -/
theorem firstOfKind_distinct (kind : MemberKind) (ms : List Member) :
    firstOfKind kind (distinct ms) = firstOfKind kind ms := by
  have hkind : ∀ a b : Member, a == b → (a.kind == kind) = (b.kind == kind) :=
    fun a b h => by rw [(Member.fields_eq_of_beq h).2.1]
  rw [firstOfKind, firstOfKind, ← List.head?_filter, ← List.head?_filter, filter_distinct hkind,
    head?_distinct]

namespace PropertyRequirement

/-- The requirement of declarations that do not begin with a method. -/
def ofMembers (first : Member) (ms : List Member) : PropertyRequirement :=
  ⟨first, firstOfKind .field ms, firstOfKind .getAccessor ms, firstOfKind .setAccessor ms⟩

/-- Something is to be read just if reading is required. -/
theorem isSome_readSource (p : PropertyRequirement) : p.readSource.isSome = p.requiresRead := by
  cases hf : p.field <;> cases hg : p.getter <;> simp [readSource, requiresRead, hf, hg]

/-- Something is to be written just if writing is required. -/
theorem isSome_writeSource (p : PropertyRequirement) : p.writeSource.isSome = p.requiresWrite := by
  cases hs : p.setter with
  | some s => simp [writeSource, requiresWrite, hs]
  | none =>
    cases hf : p.field with
    | none => simp [writeSource, requiresWrite, hs, hf]
    | some f => cases hr : f.isReadonly <;> simp [writeSource, requiresWrite, hs, hf, hr]

end PropertyRequirement

namespace Requirement

/-- Only no members amount to no requirement. -/
theorem ofMembers?_eq_none_iff {ms : List Member} : ofMembers? ms = none ↔ ms = [] := by
  cases ms with
  | nil => simp [ofMembers?]
  | cons first rest =>
    rw [ofMembers?]
    split <;> simp

/-- The first declaration decides what is required. -/
theorem ofMembers?_cons (first : Member) (rest : List Member) :
    ofMembers? (first :: rest) =
      if first.kind = .method then some (.method first)
      else some (.property (.ofMembers first (first :: rest))) := rfl

/-- Reports refer to the first declaration. -/
theorem head?_of_ofMembers? {ms : List Member} {r : Requirement} (h : ofMembers? ms = some r) :
    ms.head? = some r.primary := by
  cases ms with
  | nil => cases h
  | cons first rest =>
    rw [ofMembers?_cons] at h
    split at h
    · cases h
      rfl
    · cases h
      rfl

/-- The member that a requirement is named after is one of its members. -/
theorem primary_mem {ms : List Member} {r : Requirement} (h : ofMembers? ms = some r) :
    r.primary ∈ ms := List.mem_of_head? (head?_of_ofMembers? h)

/-- A requirement of a method comes from a method. -/
theorem kind_of_ofMembers?_method {ms : List Member} {m : Member}
    (h : ofMembers? ms = some (.method m)) : m.kind = .method := by
  cases ms with
  | nil => cases h
  | cons first rest =>
    rw [ofMembers?_cons] at h
    split at h
    · next hk =>
      cases h
      exact hk
    · cases h

/-- A requirement of a property is made of its members and comes from no method. -/
theorem ofMembers?_property {ms : List Member} {p : PropertyRequirement}
    (h : ofMembers? ms = some (.property p)) :
    p.primary.kind ≠ .method ∧ p = .ofMembers p.primary ms := by
  cases ms with
  | nil => cases h
  | cons first rest =>
    rw [ofMembers?_cons] at h
    split at h
    · cases h
    · next hk =>
      cases h
      exact ⟨hk, rfl⟩

/-- A requirement consists of declarations it was built from. -/
theorem mem_of_mem_members {ms : List Member} {r : Requirement} (h : ofMembers? ms = some r)
    {m : Member} (hm : m ∈ r.members) : m ∈ ms := by
  cases ms with
  | nil => cases h
  | cons first rest =>
    rw [ofMembers?_cons] at h
    split at h
    · cases h
      exact List.mem_singleton.mp hm ▸ List.mem_cons_self
    · cases h
      simp only [members, PropertyRequirement.ofMembers, List.mem_append, Option.mem_toList] at hm
      rcases hm with (hm | hm) | hm
      all_goals exact mem_of_firstOfKind hm

/-- A requirement consists of at least one declaration. -/
theorem members_ne_nil {ms : List Member} {r : Requirement} (h : ofMembers? ms = some r) :
    r.members ≠ [] := by
  cases ms with
  | nil => cases h
  | cons first rest =>
    rw [ofMembers?_cons] at h
    split at h
    · cases h
      exact List.cons_ne_nil _ _
    · next hk =>
      cases h
      have hs := firstOfKind_cons_self first rest
      cases hf : first.kind with
      | method => exact absurd hf hk
      | field => simp [members, PropertyRequirement.ofMembers, hf ▸ hs]
      | getAccessor => simp [members, PropertyRequirement.ofMembers, hf ▸ hs]
      | setAccessor => simp [members, PropertyRequirement.ofMembers, hf ▸ hs]

/-- What is to be read is a member of the requirement. -/
theorem mem_members_of_readSource {p : PropertyRequirement} {m : Member}
    (h : p.readSource = some m) : m ∈ (property p).members := by
  rcases Option.or_eq_some_iff.mp h with h | ⟨_, h⟩ <;> simp [members, h]

/-- What is to be written is a member of the requirement. -/
theorem mem_members_of_writeSource {p : PropertyRequirement} {m : Member}
    (h : p.writeSource = some m) : m ∈ (property p).members := by
  rcases Option.or_eq_some_iff.mp h with h | ⟨_, h⟩
  · simp [members, h]
  · simp [members, (Option.filter_eq_some_iff.mp h).1]

/-- The declarations of a list that count: those that their requirement consists of. -/
def counted (ms : List Member) : List Member := (ofMembers? ms).elim [] (·.members)

/-- The members that count are those of the requirement. -/
theorem counted_of_ofMembers? {ms : List Member} {r : Requirement} (h : ofMembers? ms = some r) :
    counted ms = r.members := by
  rw [counted, h]
  rfl

/-- The members that count are among the members. -/
theorem mem_of_mem_counted {ms : List Member} {m : Member} (h : m ∈ counted ms) : m ∈ ms := by
  unfold counted at h
  cases hr : ofMembers? ms with
  | none => rw [hr] at h; cases h
  | some r => rw [hr] at h; exact mem_of_mem_members hr h

/-- The declarations that count are the first of their kinds. -/
theorem firstOfKind_of_mem_counted {ms : List Member} {m : Member} (h : m ∈ counted ms) :
    firstOfKind m.kind ms = some m := by
  cases ms with
  | nil => cases h
  | cons first rest =>
    rw [counted, ofMembers?_cons] at h
    split at h
    · obtain rfl : m = first := List.mem_singleton.mp h
      exact firstOfKind_cons_self m rest
    · simp only [Option.elim_some, members, PropertyRequirement.ofMembers, List.mem_append,
        Option.mem_toList] at h
      rcases h with (h | h) | h
      all_goals rw [kind_of_firstOfKind h, h]

/-- Some member counts unless there is none. -/
theorem counted_eq_nil_iff {ms : List Member} : counted ms = [] ↔ ms = [] := by
  cases hr : ofMembers? ms with
  | none =>
    rw [ofMembers?_eq_none_iff.mp hr]
    exact iff_of_true rfl rfl
  | some r =>
    rw [counted_of_ofMembers? hr]
    refine iff_of_false (members_ne_nil hr) fun hms => ?_
    rw [ofMembers?_eq_none_iff.mpr hms] at hr
    cases hr

/-- Two requirements that consist of the same declarations. Only the declaration that reports refer
to may be another one. -/
inductive SameParts : Requirement → Requirement → Prop
  | method (m : Member) : SameParts (.method m) (.method m)
  | property (p : PropertyRequirement) (first : Member) :
    SameParts (.property p) (.property { p with primary := first })

/-- A requirement has the same parts as itself. -/
theorem SameParts.refl (r : Requirement) : SameParts r r := by
  cases r with
  | method m => exact .method m
  | property p => exact .property p p.primary

/-- Requirements of the same parts have the same members. -/
theorem SameParts.members_eq {r r' : Requirement} (h : SameParts r r') : r'.members = r.members := by
  cases h <;> rfl

/-- Of a field, a getter and a setter each is the first of its kind. -/
theorem firstOfKind_slots {f g t : Option Member} (hf : ∀ m ∈ f, m.kind = .field)
    (hg : ∀ m ∈ g, m.kind = .getAccessor) (ht : ∀ m ∈ t, m.kind = .setAccessor) :
    firstOfKind .field (f.toList ++ g.toList ++ t.toList) = f
      ∧ firstOfKind .getAccessor (f.toList ++ g.toList ++ t.toList) = g
      ∧ firstOfKind .setAccessor (f.toList ++ g.toList ++ t.toList) = t := by
  cases f <;> cases g <;> cases t <;> simp_all [firstOfKind]

/-- The declarations of a property have the same first declaration of every kind. -/
theorem firstOfKind_members {ms : List Member} {p : PropertyRequirement}
    (h : ofMembers? ms = some (.property p)) {kind : MemberKind} (hkind : kind ≠ .method) :
    firstOfKind kind (property p).members = firstOfKind kind ms := by
  have hslot : ∀ kind, ∀ m ∈ firstOfKind kind ms, m.kind = kind :=
    fun _ _ hm => kind_of_firstOfKind hm
  obtain ⟨hf, hg, ht⟩ :=
    firstOfKind_slots (hslot .field) (hslot .getAccessor) (hslot .setAccessor)
  have hp := (ofMembers?_property h).2
  rw [hp, members, PropertyRequirement.ofMembers]
  cases kind with
  | field => exact hf
  | getAccessor => exact hg
  | setAccessor => exact ht
  | method => exact absurd rfl hkind

/-- The declarations of a property have no methods among them. -/
theorem kind_ne_method_of_mem_members {ms : List Member} {p : PropertyRequirement}
    (h : ofMembers? ms = some (.property p)) {m : Member} (hm : m ∈ (property p).members) :
    m.kind ≠ .method := by
  have hp := (ofMembers?_property h).2
  rw [hp] at hm
  simp only [members, PropertyRequirement.ofMembers, List.mem_append, Option.mem_toList] at hm
  rcases hm with (hm | hm) | hm <;> simp [kind_of_firstOfKind hm]

/-- The declarations of a requirement amount to the same requirement. -/
theorem ofMembers?_members {ms : List Member} {r : Requirement} (h : ofMembers? ms = some r) :
    ∃ r', ofMembers? r.members = some r' ∧ SameParts r r' := by
  cases r with
  | method m =>
    have hm : m.kind = .method := kind_of_ofMembers?_method h
    exact ⟨.method m, if_pos hm, .method m⟩
  | property p =>
    obtain ⟨a, l, hl⟩ := List.exists_cons_of_ne_nil (members_ne_nil h)
    have ha : a.kind ≠ .method := kind_ne_method_of_mem_members h (hl ▸ List.mem_cons_self)
    have hslots :
        PropertyRequirement.ofMembers a (property p).members = { p with primary := a } := by
      rw [PropertyRequirement.ofMembers, firstOfKind_members h (by decide),
        firstOfKind_members h (by decide), firstOfKind_members h (by decide)]
      conv => rhs; rw [(ofMembers?_property h).2]
      rfl
    refine ⟨_, ?_, .property p a⟩
    rw [hl, ofMembers?_cons, if_neg ha, ← hl, hslots]

/-- All declarations of a requirement count. -/
theorem counted_counted (ms : List Member) : counted (counted ms) = counted ms := by
  cases hr : ofMembers? ms with
  | none =>
    rw [ofMembers?_eq_none_iff.mp hr]
    rfl
  | some r =>
    obtain ⟨r', hr', hs⟩ := ofMembers?_members hr
    rw [counted_of_ofMembers? hr, counted_of_ofMembers? hr', hs.members_eq]

/-- The declarations that count are different. -/
theorem distinct_counted (ms : List Member) : distinct (counted ms) = counted ms := by
  apply distinct_eq_self
  cases ms with
  | nil => exact .nil
  | cons first rest =>
    rw [counted, ofMembers?_cons]
    split
    · exact List.pairwise_singleton _ _
    · show List.Pairwise _ (members (.property (.ofMembers first (first :: rest))))
      have hkind : ∀ {j k : MemberKind} {a b : Member}, j ≠ k →
          firstOfKind j (first :: rest) = some a → firstOfKind k (first :: rest) = some b →
          (b == a) = false := by
        intro j k a b hjk ha hb
        apply Member.beq_eq_false_of_kind
        rw [kind_of_firstOfKind ha, kind_of_firstOfKind hb]
        exact hjk.symm
      simp only [members, PropertyRequirement.ofMembers, List.pairwise_append, List.mem_append,
        Option.mem_toList]
      refine ⟨⟨?_, ?_, ?_⟩, ?_, ?_⟩
      · cases firstOfKind .field (first :: rest) <;> simp
      · cases firstOfKind .getAccessor (first :: rest) <;> simp
      · exact fun a ha b hb => hkind (by decide) ha hb
      · cases firstOfKind .setAccessor (first :: rest) <;> simp
      · rintro a (ha | ha) b hb
        · exact hkind (by decide) ha hb
        · exact hkind (by decide) ha hb

end Requirement

/-- Only no members amount to no provision. -/
theorem Provision.ofMembers?_eq_none_iff {ms : List Member} :
    Provision.ofMembers? ms = none ↔ ms = [] := by
  cases ms with
  | nil => simp [ofMembers?]
  | cons first rest =>
    rw [ofMembers?]
    split <;> simp

/-- The first implementation decides the shape of a provision. -/
theorem Provision.cases_of_ofMembers? {ms : List Member} {p : Provision}
    (h : Provision.ofMembers? ms = some p) :
    (∃ m ∈ ms, m.kind = .field ∧ p = .field m)
      ∨ (∃ m ∈ ms, m.kind = .method ∧ p = .method m)
      ∨ (∃ m ∈ ms, m.kind.isAccessor = true)
        ∧ p = .accessors (firstOfKind .getAccessor ms) (firstOfKind .setAccessor ms) := by
  cases ms with
  | nil => cases h
  | cons first rest =>
    have hfirst : first ∈ first :: rest := List.mem_cons_self
    rw [ofMembers?] at h
    cases hk : first.kind with
    | field =>
      simp only [hk, Option.some.injEq] at h
      exact .inl ⟨first, hfirst, hk, h.symm⟩
    | method =>
      simp only [hk, Option.some.injEq] at h
      exact .inr (.inl ⟨first, hfirst, hk, h.symm⟩)
    | getAccessor =>
      simp only [hk, Option.some.injEq] at h
      exact .inr (.inr ⟨⟨first, hfirst, by rw [hk]; rfl⟩, h.symm⟩)
    | setAccessor =>
      simp only [hk, Option.some.injEq] at h
      exact .inr (.inr ⟨⟨first, hfirst, by rw [hk]; rfl⟩, h.symm⟩)

/-- Every list of implementations but the empty one amounts to a provision. -/
theorem Provision.exists_ofMembers? {ms : List Member} (h : ms ≠ []) :
    ∃ p, Provision.ofMembers? ms = some p :=
  Option.ne_none_iff_exists'.mp (mt ofMembers?_eq_none_iff.mp h)

/-- A provision is made of some member. -/
theorem Provision.ne_nil_of_ofMembers? {ms : List Member} {p : Provision}
    (h : Provision.ofMembers? ms = some p) : ms ≠ [] := by
  rintro rfl
  cases h

end ClassContract
