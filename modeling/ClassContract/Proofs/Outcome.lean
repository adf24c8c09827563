import ClassContract.Proofs.Contract

/-!
# Checks with the same outcome

Two checks of a name have the same outcome when they report the same codes in the same order and
leave the same declarations open: `SameOutcome`. Reports may refer to different declarations. The
rules do not look at the order of declarations that may stand side by side, nor at which of several
constraints of an ancestor forbids assignment, nor at the declaration of a requirement that reports
refer to. `SameDemand` relates groups that differ in no more than this, and `SameDemand.findings` says
that their checks have the same outcome.
-/

namespace ClassContract

namespace Finding

/-- Findings that report the same codes in the same order and leave the same declarations open. -/
structure SameOutcome (fs gs : List Finding) : Prop where
  /-- The codes agree. -/
  codes : (violations fs).map (·.code) = (violations gs).map (·.code)
  /-- What is left to subclasses agrees. -/
  deferrals : deferrals fs = deferrals gs

namespace SameOutcome

variable {fs fs' gs gs' : List Finding}

/-- Findings have the outcome of themselves. -/
theorem refl (fs : List Finding) : SameOutcome fs fs := ⟨rfl, rfl⟩

/-- Rules with the same outcome may be applied one after the other. -/
theorem append (h : SameOutcome fs gs) (h' : SameOutcome fs' gs') :
    SameOutcome (fs ++ fs') (gs ++ gs') where
  codes := by simp [h.codes, h'.codes]
  deferrals := by simp [h.deferrals, h'.deferrals]

end SameOutcome

end Finding

open Finding

namespace Collisionless

variable {ms ms' : List Member}

/-- Collisions do not depend on the order. -/
theorem of_perm (h : Collisionless ms) (hp : ms.Perm ms') : Collisionless ms' := by
  rcases h with h | h
  · exact .inl (hp.length_eq ▸ h)
  · exact .inr ((hp.map _).symm.trans h)

/-- Only accessors can stand in another order. -/
theorem eq_or_isAccessor (h : Collisionless ms) (hp : ms.Perm ms') :
    ms' = ms ∨ ms ≠ [] ∧ ∀ m ∈ ms, m.kind.isAccessor = true := by
  cases ms with
  | nil => exact .inl hp.nil_eq.symm
  | cons first rest =>
    by_cases hk : first.kind.isAccessor = true
    · exact .inr ⟨List.cons_ne_nil _ _, h.isAccessor_of_mem List.mem_cons_self hk⟩
    · obtain rfl := h.eq_singleton (Bool.eq_false_iff.mpr hk)
      exact .inl (List.perm_singleton.mp hp.symm)

end Collisionless

namespace Requirement

/-- A requirement has the parts of itself. -/
theorem rel_sameParts_refl (q : Option Requirement) : Option.Rel SameParts q q := by
  cases q with
  | none => exact .none
  | some r => exact .some (.refl r)

end Requirement

/-- The same declarations, in another order only where they may stand side by side. -/
inductive SameDeclarations (ms : List Member) : List Member → Prop
  | same : SameDeclarations ms ms
  | reordered {ms' : List Member} (h : Collisionless ms) (hp : ms.Perm ms') :
    SameDeclarations ms ms'

namespace SameDeclarations

variable {ms ms' : List Member}

/-- The same declarations are so in some order. -/
theorem perm (h : SameDeclarations ms ms') : ms.Perm ms' := by
  cases h with
  | same => exact .refl _
  | reordered _ hp => exact hp

/-- The same declarations are none only if there are none. -/
theorem eq_nil_iff (h : SameDeclarations ms ms') : ms' = [] ↔ ms = [] := by
  rw [← List.length_eq_zero_iff, ← h.perm.length_eq, List.length_eq_zero_iff]

/-- The same declarations have the same first member of every kind. -/
theorem firstOfKind_eq (h : SameDeclarations ms ms') (kind : MemberKind) :
    firstOfKind kind ms' = firstOfKind kind ms := by
  cases h with
  | same => rfl
  | reordered h hp =>
    ext m
    rw [h.firstOfKind_eq_some_iff, (h.of_perm hp).firstOfKind_eq_some_iff, hp.mem_iff]

/-- Either nothing changes, or both orders begin with an accessor. -/
theorem eq_or_cons (h : SameDeclarations ms ms') :
    ms' = ms ∨ ∃ first rest first' rest', ms = first :: rest ∧ ms' = first' :: rest' ∧
      first.kind.isAccessor = true ∧ first'.kind.isAccessor = true := by
  cases h with
  | same => exact .inl rfl
  | reordered h hp =>
    rcases h.eq_or_isAccessor hp with heq | ⟨hne, hk⟩
    · exact .inl heq
    · have hne' : ms' ≠ [] := mt (reordered h hp).eq_nil_iff.mp hne
      obtain ⟨first, rest, rfl⟩ := List.exists_cons_of_ne_nil hne
      obtain ⟨first', rest', rfl⟩ := List.exists_cons_of_ne_nil hne'
      have hmem : first' ∈ first :: rest := hp.mem_iff.mpr List.mem_cons_self
      exact .inr ⟨first, rest, first', rest', rfl, rfl, hk first List.mem_cons_self,
        hk first' hmem⟩

/-- The same declarations amount to the same requirement, up to the one that reports refer to. -/
theorem requirement (h : SameDeclarations ms ms') :
    Option.Rel Requirement.SameParts (Requirement.ofMembers? ms) (Requirement.ofMembers? ms') := by
  rcases h.eq_or_cons with rfl | ⟨first, rest, first', rest', rfl, rfl, hk, hk'⟩
  · exact Requirement.rel_sameParts_refl _
  · have hmethod : ∀ m : Member, m.kind.isAccessor = true → m.kind ≠ .method := by
      intro m hm he
      rw [he] at hm
      cases hm
    have hslots : PropertyRequirement.ofMembers first' (first' :: rest') =
        { PropertyRequirement.ofMembers first (first :: rest) with primary := first' } := by
      simp only [PropertyRequirement.ofMembers, h.firstOfKind_eq]
    rw [Requirement.ofMembers?_cons, Requirement.ofMembers?_cons, if_neg (hmethod _ hk),
      if_neg (hmethod _ hk'), hslots]
    exact .some (.property _ first')

/-- The same declarations amount to the same provision. -/
theorem provision (h : SameDeclarations ms ms') :
    Provision.ofMembers? ms' = Provision.ofMembers? ms := by
  rcases h.eq_or_cons with rfl | ⟨first, rest, first', rest', rfl, rfl, hk, hk'⟩
  · rfl
  · have haccessors : ∀ (m : Member) (l : List Member), m.kind.isAccessor = true →
        Provision.ofMembers? (m :: l) = some (.accessors (firstOfKind .getAccessor (m :: l))
          (firstOfKind .setAccessor (m :: l))) := by
      intro m l hm
      rw [Provision.ofMembers?]
      cases hkind : m.kind with
      | field => simp [hkind, MemberKind.isAccessor] at hm
      | method => simp [hkind, MemberKind.isAccessor] at hm
      | getAccessor => rfl
      | setAccessor => rfl
    rw [haccessors _ _ hk, haccessors _ _ hk', h.firstOfKind_eq, h.firstOfKind_eq]

end SameDeclarations

namespace Subject

section Provisions

variable {r r' : Requirement}

/-- Requirements of the same parts have the same gaps. -/
theorem gaps_of_sameParts (h : r.SameParts r') (p : Provision) : gaps r' p = gaps r p := by
  cases h <;> cases p <;> rfl

/-- Requirements of the same parts come to the same outcome of kinds. -/
theorem kindOutcome_of_sameParts (h : r.SameParts r') (o : Options) (p : Provision) :
    kindOutcome o r' p = kindOutcome o r p := by
  cases h <;> cases p <;> rfl

/-- Requirements of the same parts are compared in the same types. -/
theorem comparisons_of_sameParts (h : r.SameParts r') (p : Provision) :
    comparisons r' p = comparisons r p := by
  cases h <;> cases p <;> rfl

/-- Requirements of the same parts forbid assignment alike. -/
theorem isReadOnly_of_sameParts (h : r.SameParts r') : r'.isReadOnly = r.isReadOnly := by
  cases h <;> rfl

/-- Kinds are reported alike under requirements of the same parts. -/
theorem sameOutcome_kinds (h : r.SameParts r') (s : Subject) (name : String) (p : Provision) :
    SameOutcome (s.kinds name r p).2 (s.kinds name r' p).2 := by
  rw [kinds_eq, kinds_eq, kindOutcome_of_sameParts h, gaps_of_sameParts h]
  dsimp only
  split
  · exact ⟨rfl, rfl⟩
  · exact .refl _

/-- Assignment is forbidden by a requirement of reading only or by a constraint. -/
theorem isSome_readOnlySource (q : Option Requirement) (constraint : Option Member) :
    (readOnlySource q constraint).isSome = (q.any (·.isReadOnly) || constraint.isSome) := by
  rw [readOnlySource, Option.isSome_or, Option.isSome_map, Option.isSome_filter]

/-- Assignability is reported alike under requirements of the same parts, if both have a constraint
or neither has. -/
theorem sameOutcome_readonly {q q' : Option Requirement}
    (h : Option.Rel Requirement.SameParts q q') {constraint constraint' : Option Member}
    (hc : constraint'.isSome = constraint.isSome) (s : Subject) (name : String) (p : Provision) :
    SameOutcome (s.readonly name q constraint p) (s.readonly name q' constraint' p) := by
  have hany : q'.any (·.isReadOnly) = q.any (·.isReadOnly) := by
    cases h with
    | none => rfl
    | some h => exact isReadOnly_of_sameParts h
  have hsource : (readOnlySource q' constraint').isSome = (readOnlySource q constraint).isSome := by
    rw [isSome_readOnlySource, isSome_readOnlySource, hany, hc]
  unfold readonly
  cases hq : readOnlySource q constraint with
  | none =>
    have hq' : readOnlySource q' constraint' = none := by simpa [hq] using hsource
    rw [hq']
    exact .refl _
  | some source =>
    obtain ⟨source', hq'⟩ : ∃ m, readOnlySource q' constraint' = some m :=
      Option.isSome_iff_exists.mp (by rw [hsource, hq]; rfl)
    rw [hq']
    cases p.writer with
    | none => exact .refl _
    | some w => exact ⟨rfl, rfl⟩

/-- The first mismatch is the same, however it is reported. -/
theorem sameOutcome_firstMismatch {report report' : MemberType → MemberType → Finding}
    (h : ∀ expected actual, SameOutcome [report expected actual] [report' expected actual])
    (cs : List Comparison) : SameOutcome (firstMismatch report cs) (firstMismatch report' cs) := by
  induction cs with
  | nil => exact .refl _
  | cons c cs ih =>
    rw [firstMismatch, firstMismatch]
    apply SameOutcome.append (.refl _)
    split
    · exact ih
    · exact h _ _

/-- Types are reported alike under requirements of the same parts. -/
theorem sameOutcome_types (h : r.SameParts r') (s : Subject) (name : String) (p : Provision) :
    SameOutcome (s.types name r p) (s.types name r' p) := by
  rw [types, types, comparisons_of_sameParts h]
  refine sameOutcome_firstMismatch (fun _ _ => ?_) _
  exact ⟨rfl, rfl⟩

/-- What follows the comparison of kinds is reported alike. -/
theorem sameOutcome_afterKinds (h : r.SameParts r') {constraint constraint' : Option Member}
    (hc : constraint'.isSome = constraint.isSome) (s : Subject) (name : String) (p : Provision) :
    SameOutcome (s.afterKinds name r constraint p) (s.afterKinds name r' constraint' p) := by
  have hro := sameOutcome_readonly (.some h) hc s name p
  have ht := sameOutcome_types h s name p
  rw [afterKinds, afterKinds, kindOutcome_of_sameParts h]
  split
  · exact hro.append ht
  · refine SameOutcome.append ?_ ht
    split
    · exact hro
    · exact .refl _
  · exact .refl _

/-- A provision is reported alike under requirements of the same parts. -/
theorem sameOutcome_provision {q q' : Option Requirement}
    (h : Option.Rel Requirement.SameParts q q') {constraint constraint' : Option Member}
    (hc : constraint'.isSome = constraint.isSome) (s : Subject) (name : String) (p : Provision) :
    SameOutcome (s.provision name q constraint p) (s.provision name q' constraint' p) := by
  cases h with
  | none => exact sameOutcome_readonly .none hc s name p
  | some h =>
    rw [provision_some, provision_some]
    exact (sameOutcome_kinds h s name p).append (sameOutcome_afterKinds h hc s name p)

end Provisions

section Declarations

variable {ms ms' oa oa' oc oc' : List Member}

/-- Without collisions there are no duplicates to report. -/
theorem duplicates_eq_nil (h : Collisionless ms) (s : Subject) (name : String) :
    s.duplicates name ms = [] := by
  rw [duplicates, (firstCollision_eq_none_iff ms).mpr h]

/-- Duplicates are reported alike in the same declarations. -/
theorem sameOutcome_duplicates (h : SameDeclarations ms ms') (s : Subject) (name : String) :
    SameOutcome (s.duplicates name ms) (s.duplicates name ms') := by
  cases h with
  | same => exact .refl _
  | reordered h hp =>
    rw [duplicates_eq_nil h, duplicates_eq_nil (h.of_perm hp)]
    exact .refl _

/-- The same declarations have the same getter and setter. -/
theorem accessorPair_of_sameDeclarations (h : SameDeclarations ms ms') (s : Subject)
    (name : String) : s.accessorPair name ms' = s.accessorPair name ms := by
  rw [accessorPair, accessorPair, pairVerdict, pairVerdict, h.firstOfKind_eq, h.firstOfKind_eq]

/-- Getters and setters are compared alike in the same declarations. -/
theorem accessorPairs_of_sameDeclarations (hoa : SameDeclarations oa oa')
    (hoc : SameDeclarations oc oc') (s : Subject) (name : String) :
    s.accessorPairs name oa' oc' = s.accessorPairs name oa oc := by
  rw [accessorPairs, accessorPairs, accessorPair_of_sameDeclarations hoa,
    accessorPair_of_sameDeclarations hoc]

/-- Where every declaration is reported under one code, their order does not matter. -/
theorem sameOutcome_map_violation (hp : ms.Perm ms') (s : Subject) (name : String) (code : Code) :
    SameOutcome (ms.map fun m => s.violation name code none (.kind m.kind) .none)
      (ms'.map fun m => s.violation name code none (.kind m.kind) .none) := by
  have houtcome : ∀ l : List Member,
      (violations (l.map fun m => s.violation name code none (.kind m.kind) .none)).map (·.code) =
          List.replicate l.length code ∧
        deferrals (l.map fun m => s.violation name code none (.kind m.kind) .none) = [] := by
    intro l
    induction l with
    | nil => exact ⟨rfl, rfl⟩
    | cons m l ih => exact ⟨congrArg (code :: ·) ih.1, ih.2⟩
  exact ⟨by rw [(houtcome ms).1, (houtcome ms').1, hp.length_eq],
    (houtcome ms).2.trans (houtcome ms').2.symm⟩

/-- Missing bodies are reported alike in any order. -/
theorem sameOutcome_bodies (hp : ms.Perm ms') (s : Subject) (name : String) :
    SameOutcome (s.bodies name ms) (s.bodies name ms') :=
  sameOutcome_map_violation (hp.filter _) s name .missingBody

/-- Abstract members of a concrete class are reported alike in any order. -/
theorem sameOutcome_abstractMembers (hp : ms.Perm ms') (s : Subject) (name : String) :
    SameOutcome (s.abstractMembers name ms) (s.abstractMembers name ms') := by
  unfold abstractMembers
  split
  · exact sameOutcome_map_violation hp s name .abstractInConcrete
  · exact .refl _

/-- Which accessors are abstract does not depend on the order. -/
theorem accessorAbstractness_of_perm (hoa : oa.Perm oa') (hoc : oc.Perm oc') (s : Subject)
    (name : String) : s.accessorAbstractness name oa' oc' = s.accessorAbstractness name oa oc := by
  have hsplit : ∀ half other, splitAccessors oa' oc' half other = splitAccessors oa oc half other := by
    intro half other
    simp only [splitAccessors, hasKind, hoa.any_eq, hoc.any_eq]
  simp only [accessorAbstractness, hsplit]

/-- All rules for a name that has an implementation or needs none have the same outcome. -/
theorem sameOutcome_fullCheck {q q' : Option Requirement}
    (h : Option.Rel Requirement.SameParts q q') {constraint constraint' : Option Member}
    (hc : constraint'.isSome = constraint.isSome) (hoa : SameDeclarations oa oa')
    (hoc : SameDeclarations oc oc') (s : Subject) (name : String) :
    SameOutcome (s.fullCheck name q constraint oa oc)
      (s.fullCheck name q' constraint' oa' oc') := by
  have hprovision : SameOutcome
      ((Provision.ofMembers? oc).elim [] (s.provision name q constraint))
      ((Provision.ofMembers? oc').elim [] (s.provision name q' constraint')) := by
    rw [hoc.provision]
    cases Provision.ofMembers? oc with
    | none => exact .refl _
    | some p => exact sameOutcome_provision h hc s name p
  rw [fullCheck_eq, fullCheck_eq, accessorPairs_of_sameDeclarations hoa hoc,
    accessorAbstractness_of_perm hoa.perm hoc.perm]
  exact (((((sameOutcome_duplicates hoa s name).append (sameOutcome_duplicates hoc s name)).append
    hprovision).append (.refl _)).append (sameOutcome_bodies hoc.perm s name)).append
      ((sameOutcome_abstractMembers hoa.perm s name).append (.refl _))

end Declarations

end Subject

namespace Group

/-- Groups that differ in the order of declarations that may stand side by side, and in what reports
refer to. -/
structure SameDemand (g g' : Group) : Prop where
  /-- They are about the same name. -/
  name : g'.name = g.name
  /-- The class declares the same. -/
  ownAbstract : SameDeclarations g.ownAbstract g'.ownAbstract
  /-- The class implements the same. -/
  ownConcrete : SameDeclarations g.ownConcrete g'.ownConcrete
  /-- The same is required. -/
  requirement : Option.Rel Requirement.SameParts g.requirement? g'.requirement?
  /-- An ancestor forbids assignment in both or in none. -/
  constraints : g'.inheritedConstraints = [] ↔ g.inheritedConstraints = []

/-- A demand that nothing implements is reported or left to subclasses alike. -/
theorem SameDemand.unmet {g g' : Group} (h : g.SameDemand g') (s : Subject) :
    SameOutcome (g.unmet s) (g'.unmet s) := by
  have hoc : g'.ownConcrete.isEmpty = g.ownConcrete.isEmpty := by
    rw [Bool.eq_iff_iff, List.isEmpty_iff, List.isEmpty_iff, h.ownConcrete.eq_nil_iff]
  unfold Group.unmet
  rw [hoc, h.name]
  have hreq := h.requirement
  generalize g.requirement? = q at hreq ⊢
  generalize g'.requirement? = q' at hreq ⊢
  cases hreq with
  | none => exact .refl _
  | some hr =>
    dsimp only
    split
    · exact .refl _
    · split
      · rw [hr.members_eq]
        exact .refl _
      · exact ⟨rfl, rfl⟩

/-- All rules together have the same outcome. -/
theorem SameDemand.findings {g g' : Group} (h : g.SameDemand g') (s : Subject) :
    SameOutcome (g.findings s) (g'.findings s) := by
  have hc : g'.inheritedConstraints.head?.isSome = g.inheritedConstraints.head?.isSome := by
    rw [Bool.eq_iff_iff, List.isSome_head?, List.isSome_head?, ne_eq, h.constraints]
  have hfull := Subject.sameOutcome_fullCheck h.requirement hc h.ownAbstract h.ownConcrete s g.name
  rw [findings_eq, findings_eq, fullCheck, fullCheck, h.name]
  refine (SameOutcome.append ?_ (h.unmet s)).append hfull
  exact ⟨rfl, rfl⟩

end Group

/-- Checks of a name by two classes have the same outcome when the classes agree in everything but
what their groups may differ in. -/
theorem ClassDecl.sameOutcome_of_sameDemand {c d : ClassDecl} {name : String}
    (h : (c.groupOf name).SameDemand (d.groupOf name)) (hn : d.name = c.name)
    (ha : d.isAbstract = c.isAbstract) (o : Options) :
    SameOutcome ((c.groupOf name).findings (.ofClass c o))
      ((d.groupOf name).findings (.ofClass d o)) := by
  have hs : Subject.ofClass d o = Subject.ofClass c o := by
    rw [Subject.ofClass, Subject.ofClass, hn, ha]
  rw [hs]
  exact h.findings (.ofClass c o)

end ClassContract
