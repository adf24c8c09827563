import ClassContract.Proofs.Assignability
import ClassContract.Proofs.Contract
import ClassContract.Proofs.Obligation
import ClassContract.Proofs.Pending

/-!
# Contracts that a subclass can meet

An abstract class that has nothing to report leaves a contract to its subclasses: what it leaves open
is demanded of them, and those of its implementations that forbid assignment bind them. A demand alone
can always be met, by a method or by accessors that take and give everything (`contract_answer`).
What cannot be met is a demand of assignment next to an implementation that forbids it. A getter
forbids nothing next to the setter that is left open, so that the one conflict is that of a readonly
field: `Thwarts`. The main statement, `exists_silent_heir_iff`, says that a subclass without anything
to report exists exactly where the class thwarts no name.
-/

namespace ClassContract

open Finding

/-- The requirement of declarations asks for assignment where they do. -/
theorem Demand.requiresWrite_iff_of_ofMembers? {q : List Member} {p : PropertyRequirement}
    (h : Requirement.ofMembers? q = some (.property p)) : p.requiresWrite = true ↔ Writes q := by
  rw [(Requirement.ofMembers?_property h).2]
  exact requiresWrite_iff p.primary q

/-- What is written is demanded by something. -/
theorem Demand.ne_nil_of_writes {q : List Member} (h : Writes q) : q ≠ [] := by
  rcases h with ⟨f, hf, _⟩ | ⟨m, hm, _⟩
  · exact List.ne_nil_of_mem (mem_of_firstOfKind hf)
  · exact List.ne_nil_of_mem hm

/-- An accessor forbids assignment only where there is no setter. -/
theorem Member.kind_ne_setAccessor_of_forbids {ms : List Member} {m : Member}
    (hk : m.kind.isAccessor = true) (h : m.forbidsWritingAmong ms = true) :
    ∀ n ∈ ms, n.kind ≠ .setAccessor := by
  unfold forbidsWritingAmong at h
  cases hm : m.kind with
  | field => simp [hm, MemberKind.isAccessor] at hk
  | method => simp [hm] at h
  | setAccessor => simp [hm] at h
  | getAccessor => simpa [hm] using h

namespace ClassDecl

section Silent

variable {c : ClassDecl} {o : Options} {name : String}

/-- The full check of a name that is silent finds no violation. -/
theorem violations_fullCheck_of_silent (h : (c.check o).violationsFor name = []) :
    violations ((c.groupOf name).fullCheck (.ofClass c o)) = [] := by
  rw [violationsFor_check, Group.findings_eq, violations_append] at h
  exact (List.append_eq_nil_iff.mp h).2

/-- A name that is silent has no collisions. -/
theorem collisionless_of_silent (h : (c.check o).violationsFor name = []) :
    Collisionless (c.ownAbstract name) ∧ Collisionless (c.ownConcrete name) := by
  refine collisionless_of_no_duplicate (o := o) fun v hv => ?_
  rw [h] at hv
  cases hv

/-- What is demanded amounts to a requirement. -/
theorem exists_requirement_of_demanded (h : (c.groupOf name).demanded ≠ []) :
    ∃ r, (c.groupOf name).requirement? = some r :=
  Option.ne_none_iff_exists'.mp (mt Group.demanded_eq_nil_iff.mpr h)

/-- A class that has nothing to report under a name is required to provide something under it and does
so. -/
structure Implements (c : ClassDecl) (o : Options) (name : String) (r : Requirement)
    (p : Provision) : Prop where
  /-- There is nothing to report. -/
  silent : (c.check o).violationsFor name = []
  /-- What is required. -/
  required : (c.groupOf name).requirement? = some r
  /-- What is provided. -/
  provided : Provision.ofMembers? (c.ownConcrete name) = some p

namespace Implements

variable {r : Requirement} {p : Provision}

/-- The provision is of the required kind. -/
theorem kindOutcome_ne_mismatch (h : c.Implements o name r p) :
    Subject.kindOutcome o r p ≠ .mismatch := by
  intro hk
  have hk : Subject.kindOutcome (Subject.ofClass c o).options r p = .mismatch := hk
  have hfull := violations_fullCheck_of_silent h.silent
  simp only [Group.fullCheck, Subject.fullCheck_eq, violations_append, List.append_eq_nil_iff,
    ownConcrete_groupOf, h.provided, h.required, Option.elim_some, Subject.provision_some] at hfull
  have hkinds := hfull.1.1.1.2.1
  rw [Subject.kinds_eq, if_pos hk] at hkinds
  cases hkinds

/-- An abstract class leaves the halves of the property open that are missing, and what it declares
abstract itself. -/
theorem pendingFor_eq (h : c.Implements o name r p) (hc : c.isAbstract = true) :
    (c.check o).pendingFor name =
      distinct ((Subject.gaps r p).map Subject.Gap.half ++ c.ownAbstract name) := by
  have hp : Provision.ofMembers? (c.groupOf name).ownConcrete = some p :=
    (congrArg _ (c.ownConcrete_groupOf name)).trans h.provided
  rw [pendingFor_check, Group.deferrals_findings_of_implemented _ hp, h.required,
    Subject.deferrals_provision (s := .ofClass c o) hc _ h.kindOutcome_ne_mismatch, if_pos hc]

/-- An abstract class leaves every half open that its implementation lacks. -/
theorem exists_mem_pendingFor (h : c.Implements o name r p) (hc : c.isAbstract = true)
    {g : Subject.Gap} (hg : g ∈ Subject.gaps r p) :
    ∃ m ∈ (c.check o).pendingFor name, m.kind = g.missing := by
  rw [h.pendingFor_eq hc]
  obtain ⟨m, hm, rfl | he⟩ :=
    exists_mem_addAllNew (List.mem_append_left (c.ownAbstract name) (List.mem_map_of_mem hg)) []
  · exact ⟨_, hm, rfl⟩
  · exact ⟨m, hm, (Member.fields_eq_of_beq he).2.1.symm⟩

/-- A setter is missing where assignment is demanded and the provision cannot be assigned. -/
theorem exists_setter_gap (h : c.Implements o name r p) (hmethod : ∀ m, p ≠ .method m)
    (hw : Demand.Writes (c.groupOf name).demanded) (hwriter : p.writer = none) :
    ∃ g ∈ Subject.gaps r p, g.missing = .setAccessor := by
  have hk := h.kindOutcome_ne_mismatch
  cases r with
  | method required =>
    cases p with
    | method m => exact absurd rfl (hmethod m)
    | field f => exact absurd rfl hk
    | accessors getter setter => exact absurd rfl hk
  | property q =>
    have hq := (Demand.requiresWrite_iff_of_ofMembers? h.required).mpr hw
    exact Subject.exists_setter_gap hmethod hq hwriter

end Implements

/-- An implementation leaves assignment open only where assignment was demanded. -/
theorem writes_demanded_of_pendingFor (hc : c.isAbstract = true)
    (h : (c.check o).violationsFor name = []) {p : Provision}
    (hp : Provision.ofMembers? (c.ownConcrete name) = some p)
    (hw : Demand.Writes ((c.check o).pendingFor name)) :
    Demand.Writes (c.groupOf name).demanded := by
  have hne := demanded_of_pendingFor (Demand.ne_nil_of_writes hw)
  obtain ⟨r, hr⟩ := exists_requirement_of_demanded hne
  have hmem : ∀ m ∈ (c.check o).pendingFor name,
      (∃ g ∈ Subject.gaps r p, g.half = m) ∨ m ∈ c.ownAbstract name := by
    intro m hm
    rw [Implements.pendingFor_eq ⟨h, hr, hp⟩ hc] at hm
    exact (List.mem_append.mp (mem_of_mem_distinct hm)).imp_left List.mem_map.mp
  have hown : c.ownAbstract name ≠ [] → (c.groupOf name).demanded = c.ownAbstract name := by
    intro hoa
    rw [Group.demanded, demand, ownAbstract_groupOf, if_neg (by simpa using hoa)]
  rcases hw with ⟨f, hf, hro⟩ | ⟨m, hm, hk⟩
  · have hkind := kind_of_firstOfKind hf
    rcases hmem f (mem_of_firstOfKind hf) with ⟨g, hg, rfl⟩ | hoa
    · have hkind : g.missing = .field := hkind
      obtain ⟨_, _, ⟨hmissing, _⟩ | ⟨hmissing, _⟩⟩ := Subject.mem_gaps_cases hg
      · cases hmissing.symm.trans hkind
      · cases hmissing.symm.trans hkind
    · rw [hown (List.ne_nil_of_mem hoa)]
      exact .inl ⟨f, (collisionless_of_silent h).1.firstOfKind_eq_some_iff.mpr ⟨hoa, hkind⟩, hro⟩
  · rcases hmem m hm with ⟨g, hg, rfl⟩ | hoa
    · have hk : g.missing = .setAccessor := hk
      obtain ⟨q, rfl, ⟨hmissing, _⟩ | ⟨_, hsource, _⟩⟩ := Subject.mem_gaps_cases hg
      · cases hmissing.symm.trans hk
      · refine (Demand.requiresWrite_iff_of_ofMembers? hr).mp ?_
        rw [← q.isSome_writeSource, hsource]
        rfl
    · rw [hown (List.ne_nil_of_mem hoa)]
      exact .inr ⟨m, hoa, hk⟩

/-- What an abstract class without reports hands on under a name: what it leaves open, and then all its
implementations. -/
theorem addAllNew_pendingFor (h : (c.check o).violationsFor name = []) :
    addAllNew ((c.check o).pendingFor name) (c.ownConcrete name) =
      (c.check o).pendingFor name ++ c.ownConcrete name := by
  apply addAllNew_eq_append
  · intro a ha x hx
    refine Bool.eq_false_iff.mpr fun he => ?_
    have habs := (Member.fields_eq_of_beq he).2.2.1
    rw [isAbstract_of_mem_ownConcrete ha, isAbstract_of_mem_pendingFor hx] at habs
    cases habs
  · have hkinds := List.pairwise_map.mp (collisionless_of_silent h).2.nodup_kinds
    exact hkinds.imp fun hne => Member.beq_eq_false_of_kind hne.symm

/-- A name that has to be assignable and that the class itself implements by a readonly field. -/
def Thwarts (c : ClassDecl) (name : String) : Prop :=
  Demand.Writes (c.groupOf name).demanded ∧
    ∃ f, (c.ownConcrete name).head? = some f ∧ f.kind = .field ∧ f.isReadonly = true

/-- A class that thwarts a name leaves a setter open before all else. -/
theorem Thwarts.head?_pendingFor (ht : c.Thwarts name) (hc : c.isAbstract = true)
    (h : (c.check o).violationsFor name = []) :
    ∃ m, ((c.check o).pendingFor name).head? = some m ∧ m.kind = .setAccessor := by
  obtain ⟨hw, f, hf, hkind, hro⟩ := ht
  obtain ⟨rest, hoc⟩ := List.head?_eq_some_iff.mp hf
  have hp : Provision.ofMembers? (c.ownConcrete name) = some (.field f) := by
    rw [hoc, Provision.ofMembers?, hkind]
  obtain ⟨r, hr⟩ := exists_requirement_of_demanded (Demand.ne_nil_of_writes hw)
  have himp : c.Implements o name r (.field f) := ⟨h, hr, hp⟩
  obtain ⟨g, hg, _⟩ := himp.exists_setter_gap (by simp) hw (if_pos hro)
  rw [himp.pendingFor_eq hc, head?_distinct]
  cases hgaps : Subject.gaps r (.field f) with
  | nil =>
    rw [hgaps] at hg
    cases hg
  | cons first gs =>
    refine ⟨first.half, rfl, ?_⟩
    obtain ⟨_, _, ⟨_, _, _, hfield⟩ | ⟨hmissing, _⟩⟩ :=
      Subject.mem_gaps_cases (hgaps ▸ List.mem_cons_self)
    · cases hfield
    · exact hmissing

/-- A class without reports forbids assignment to a name that it leaves open for assignment only by
thwarting it. -/
theorem thwarts_of_forbidsWriting (hc : c.isAbstract = true)
    (h : (c.check o).violationsFor name = [])
    (hw : Demand.Writes ((c.check o).pendingFor name)) {m : Member} (hm : m ∈ c.ownConcrete name)
    (hforbids : m.forbidsWritingAmong ((c.check o).pendingFor name ++ c.ownConcrete name) = true) :
    c.Thwarts name := by
  have hcoll := (collisionless_of_silent h).2
  have hne := List.ne_nil_of_mem hm
  obtain ⟨p, hp⟩ := Provision.exists_ofMembers? hne
  obtain ⟨first, rest, hoc⟩ := List.exists_cons_of_ne_nil hne
  have hdemanded := writes_demanded_of_pendingFor hc h hp hw
  rw [hoc] at hcoll hm
  rcases provision_cases hcoll (hoc ▸ hp) with ⟨hk, rfl, rfl⟩ | ⟨hk, rfl, rfl⟩ | ⟨hk, rfl⟩
  · obtain rfl := List.mem_singleton.mp hm
    have hro : m.isReadonly = true := by simpa [Member.forbidsWritingAmong, hk] using hforbids
    exact ⟨hdemanded, m, congrArg List.head? hoc, hk, hro⟩
  · obtain rfl := List.mem_singleton.mp hm
    simp [Member.forbidsWritingAmong, hk] at hforbids
  · have hacc := hcoll.isAccessor_of_mem List.mem_cons_self hk m hm
    have hnone := Member.kind_ne_setAccessor_of_forbids hacc hforbids
    have hwriter : firstOfKind .setAccessor (first :: rest) = none := by
      refine firstOfKind_eq_none_iff.mpr fun x hx => ?_
      exact hnone x (List.mem_append_right _ (hoc ▸ hx))
    obtain ⟨r, hr⟩ := exists_requirement_of_demanded (Demand.ne_nil_of_writes hdemanded)
    have himp : c.Implements o name r _ := ⟨h, hr, hp⟩
    obtain ⟨g, hg, hmissing⟩ := himp.exists_setter_gap (by simp) hdemanded hwriter
    obtain ⟨x, hx, hkind⟩ := himp.exists_mem_pendingFor hc hg
    exact absurd (hkind.trans hmissing) (hnone x (List.mem_append_left _ hx))

end Silent

end ClassDecl

/-- Declarations that meet a requirement, of the type that is assignable from and to all others. -/
def Requirement.answer (owner name : String) : Requirement → List Member
  | .method _ => [.concrete .method owner name (.keyword .any)]
  | .property q =>
    (if q.requiresRead then [.concrete .getAccessor owner name (.keyword .any)] else [])
      ++ if q.requiresWrite then [.concrete .setAccessor owner name (.keyword .any)] else []

/-- Declarations that meet a demand. -/
def Demand.answer (owner name : String) (q : List Member) : List Member :=
  (Requirement.ofMembers? q).elim [] (·.answer owner name)

section Answers

variable {owner name : String} {q : List Member}

/-- A method is answered by a method. -/
theorem Demand.answer_of_method {required : Member} (hk : required.kind = .method)
    (rest : List Member) :
    answer owner name (required :: rest) = [.concrete .method owner name (.keyword .any)] := by
  rw [answer, Requirement.ofMembers?_cons, if_pos hk]
  rfl

/-- A property is answered by the accessors that are demanded. -/
theorem Demand.mem_answer_iff {required : Member} (hk : required.kind ≠ .method)
    {rest : List Member} {m : Member} :
    m ∈ answer owner name (required :: rest) ↔
      Reads (required :: rest) ∧ m = .concrete .getAccessor owner name (.keyword .any) ∨
        Writes (required :: rest) ∧ m = .concrete .setAccessor owner name (.keyword .any) := by
  rw [answer, Requirement.ofMembers?_cons, if_neg hk, ← requiresRead_iff required,
    ← requiresWrite_iff required]
  simp [Requirement.answer]

/-- Every declaration of an answer has a body and that type. -/
theorem Demand.exists_eq_of_mem_answer {m : Member} (h : m ∈ answer owner name q) :
    ∃ kind, m = .concrete kind owner name (.keyword .any) := by
  cases q with
  | nil => cases h
  | cons required rest =>
    by_cases hk : required.kind = .method
    · rw [answer_of_method hk] at h
      exact ⟨.method, List.mem_singleton.mp h⟩
    · rcases (mem_answer_iff hk).mp h with ⟨_, rfl⟩ | ⟨_, rfl⟩
      · exact ⟨.getAccessor, rfl⟩
      · exact ⟨.setAccessor, rfl⟩

/-- Every demand has an answer. -/
theorem Demand.answer_ne_nil (required : Member) (rest : List Member) :
    answer owner name (required :: rest) ≠ [] := by
  by_cases hk : required.kind = .method
  · rw [answer_of_method hk]
    exact List.cons_ne_nil _ _
  · rcases reads_or_writes rest hk with hr | hw
    · exact List.ne_nil_of_mem ((mem_answer_iff hk).mpr (.inl ⟨hr, rfl⟩))
    · exact List.ne_nil_of_mem ((mem_answer_iff hk).mpr (.inr ⟨hw, rfl⟩))

/-- An answer can be assigned only where that is demanded. -/
theorem Demand.writes_of_mem_answer {m : Member} (h : m ∈ answer owner name q) (ha : m.Assigns) :
    Writes q := by
  cases q with
  | nil => cases h
  | cons required rest =>
    by_cases hk : required.kind = .method
    · rw [answer_of_method hk] at h
      rw [List.mem_singleton.mp h] at ha
      exact absurd ha (by simp [Member.Assigns, Member.concrete])
    · rcases (mem_answer_iff hk).mp h with ⟨_, rfl⟩ | ⟨hw, _⟩
      · exact absurd ha (by simp [Member.Assigns, Member.concrete])
      · exact hw

/-- Answers do not collide. -/
theorem Demand.collisionless_answer (owner name : String) (q : List Member) :
    Collisionless (answer owner name q) := by
  unfold answer
  cases Requirement.ofMembers? q with
  | none => exact .inl (Nat.zero_le 1)
  | some r =>
    cases r with
    | method m => exact .inl (Nat.le_refl 1)
    | property p =>
      rw [Option.elim_some, Requirement.answer]
      cases p.requiresRead <;> cases p.requiresWrite
      · exact .inl (Nat.zero_le 1)
      · exact .inl (Nat.le_refl 1)
      · exact .inl (Nat.le_refl 1)
      · exact .inr (List.Perm.refl _)

/-- The contract of a class that declares nothing abstract under a name. -/
theorem contract_of_concrete {o : Options} {oc ia ic : List Member} (himp : ia = [] ∨ oc ≠ [])
    (hcoll : Collisionless oc) (hmeets : Demand.Meets o ia oc)
    (hassign : (Demand.Reads ia ∧ ¬ Demand.Writes ia) ∨ ic ≠ [] → ∀ m ∈ oc, ¬ m.Assigns)
    (hagree : AccessorsAgree oc) (hbodies : ∀ m ∈ oc, m.kind ≠ .field → m.hasBody = true) :
    Contract o [] oc ia ic where
  implemented := himp
  abstractCollisionless := .inl (Nat.zero_le 1)
  concreteCollisionless := hcoll
  meets := hmeets
  unassignable := hassign
  abstractAgree := fun _ hg => nomatch hg
  concreteAgree := hagree
  bodies := hbodies
  noAbstract := fun _ => rfl
  noSplit := fun _ => by simp [SplitAccessors]

/-- The type `any` fits everywhere, and everything fits it. -/
theorem isAssignable_any (t : MemberType) :
    t.isAssignable (.keyword .any) = true ∧ MemberType.isAssignable (.keyword .any) t = true :=
  ⟨(MemberType.Derivable.toAny t).holds_assignable _,
    (MemberType.Derivable.fromAny t).holds_assignable _⟩

/-- Accessors of the type that is assignable from and to all others cover what they are demanded
for. -/
theorem Demand.accessorsMeet_answer {required : Member} (hk : required.kind ≠ .method)
    (rest : List Member) :
    AccessorsMeet (required :: rest) (answer owner name (required :: rest)) where
  getter := fun hr => ⟨_, (mem_answer_iff hk).mpr (.inl ⟨hr, rfl⟩), rfl⟩
  setter := fun hw => ⟨_, (mem_answer_iff hk).mpr (.inr ⟨hw, rfl⟩), rfl⟩
  read := by
    intro m hm _ t _
    obtain ⟨_, rfl⟩ := exists_eq_of_mem_answer hm
    exact (isAssignable_any t).2
  write := by
    intro m hm _ t _
    obtain ⟨_, rfl⟩ := exists_eq_of_mem_answer hm
    exact (isAssignable_any t).1

/-- An answer meets its demand. -/
theorem Demand.meets_answer (o : Options) (owner name : String) (q : List Member) :
    Meets o q (answer owner name q) := by
  intro required first hq hfirst
  obtain ⟨rest, rfl⟩ := List.head?_eq_some_iff.mp hq
  split
  · next hk =>
    rw [answer_of_method hk] at hfirst
    cases hfirst
    exact ⟨rfl, (isAssignable_any _).2⟩
  · next hk =>
    have hmeet : AccessorsMeet (required :: rest) (answer owner name (required :: rest)) :=
      accessorsMeet_answer hk rest
    unfold PropertyMeets
    rcases (mem_answer_iff hk).mp (List.mem_of_mem_head? hfirst) with ⟨_, rfl⟩ | ⟨_, rfl⟩
    · exact hmeet
    · exact hmeet

/-- A demand is met by its answer, unless assignment is demanded and forbidden. -/
theorem contract_answer (o : Options) (owner name : String) {q ic : List Member}
    (hic : Demand.Writes q → ic = []) : Contract o [] (Demand.answer owner name q) q ic := by
  refine contract_of_concrete ?_ (Demand.collisionless_answer owner name q)
    (Demand.meets_answer o owner name q) ?_ ?_ ?_
  · cases q with
    | nil => exact .inl rfl
    | cons required rest => exact .inr (Demand.answer_ne_nil required rest)
  · intro hforbidden m hm ha
    have hw := Demand.writes_of_mem_answer hm ha
    exact hforbidden.elim (fun h => h.2 hw) fun h => h (hic hw)
  · intro g hg t ht _ _
    obtain ⟨_, rfl⟩ := Demand.exists_eq_of_mem_answer hg
    obtain ⟨_, rfl⟩ := Demand.exists_eq_of_mem_answer ht
    show (MemberType.keyword .any).widen.isIdentical (MemberType.keyword .any).widen = true
    decide
  · intro m hm _
    obtain ⟨_, rfl⟩ := Demand.exists_eq_of_mem_answer hm
    rfl

/-- A setter that is demanded where assignment is forbidden cannot be implemented. -/
theorem not_contract_of_forbidden {o : Options} {oc ia ic : List Member} {required : Member}
    (hhead : ia.head? = some required) (hk : required.kind = .setAccessor) (hic : ic ≠ []) :
    ¬ Contract o [] oc ia ic := by
  intro h
  have hw : Demand.Writes ia := .inr ⟨required, List.mem_of_mem_head? hhead, hk⟩
  have hassign := h.unassignable (.inr hic)
  have hne : ia ≠ [] := Demand.ne_nil_of_writes hw
  cases oc with
  | nil => exact h.implemented.elim hne fun h => h rfl
  | cons first rest =>
    have hmeets := h.meets required first hhead rfl
    rw [if_neg (by rw [hk]; decide)] at hmeets
    have hsetter : Demand.AccessorsMeet ia (first :: rest) → False := by
      intro ha
      obtain ⟨m, hm, hkind⟩ := ha.setter hw
      exact hassign m hm (.inl hkind)
    unfold Demand.PropertyMeets at hmeets
    cases hf : first.kind with
    | method => rw [hf] at hmeets; exact hmeets
    | getAccessor => rw [hf] at hmeets; exact hsetter hmeets
    | setAccessor => rw [hf] at hmeets; exact hsetter hmeets
    | field =>
      rw [hf] at hmeets
      cases hro : first.isReadonly with
      | true => rw [if_pos hro] at hmeets; exact hmeets.1 hw
      | false => exact hassign first List.mem_cons_self (.inr ⟨hf, hro⟩)

end Answers

/-- A report is empty when it is empty under every name. -/
theorem Report.violations_eq_nil_iff {r : Report} :
    r.violations = [] ↔ ∀ name, r.violationsFor name = [] := by
  constructor
  · intro h name
    rw [violationsFor, h]
    rfl
  · intro h
    refine List.eq_nil_iff_forall_not_mem.mpr fun v hv => ?_
    have hmem : v ∈ r.violationsFor v.member := List.mem_filter.mpr ⟨hv, beq_self_eq_true _⟩
    exact List.ne_nil_of_mem hmem (h v.member)

namespace ClassDecl

/-- A concrete class with the given members that extends a class, given by name, and the ancestors of
that class. -/
def heir (c : ClassDecl) (kind : AncestorKind) (name : String) (members : List Member) : ClassDecl :=
  ⟨name, false, members, ⟨c.name, kind, []⟩ :: c.ancestors⟩

/-- The declarations that answer all that a class leaves open. -/
def completion (c : ClassDecl) (o : Options) (owner : String) : List Member :=
  (distinct ((c.check o).pending.map (·.name))).flatMap fun name =>
    Demand.answer owner name ((c.check o).pendingFor name)

/-- A completion is concrete. -/
theorem isAbstract_of_mem_completion {c : ClassDecl} {o : Options} {owner : String} {m : Member}
    (h : m ∈ c.completion o owner) : m.isAbstract = false := by
  obtain ⟨name, _, hm⟩ := List.mem_flatMap.mp h
  obtain ⟨_, rfl⟩ := Demand.exists_eq_of_mem_answer hm
  rfl

/-- Under each name stands the answer to what is left open under it. -/
theorem filter_completion (c : ClassDecl) (o : Options) (owner name : String) :
    (c.completion o owner).filter (·.name == name) =
      Demand.answer owner name ((c.check o).pendingFor name) := by
  have hname : ∀ n, ∀ m ∈ Demand.answer owner n ((c.check o).pendingFor n), m.name = n := by
    intro n m hm
    obtain ⟨_, rfl⟩ := Demand.exists_eq_of_mem_answer hm
    rfl
  rw [completion, filter_flatMap_of_nodup hname (nodup_distinct _)]
  split
  · rfl
  · next hn =>
    have hnone : (c.check o).pendingFor name = [] := by
      rw [Report.pendingFor, List.filter_eq_nil_iff]
      intro m hm he
      exact hn (mem_distinct.mpr (beq_iff_eq.mp he ▸ List.mem_map_of_mem hm))
    rw [hnone]
    rfl

section Heirs

variable {c : ClassDecl} {o : Options} (hc : c.isAbstract = true)
  (hnames : ∀ a ∈ c.ancestors, a.name ≠ c.name) (kind : AncestorKind) (leaf : String)

include hc hnames

/-- What an heir hears of a name: what the class hands on, and else what the class itself hears. -/
theorem heard_heir (members : List Member) (name : String) :
    ((c.heir kind leaf members).resolve [c.checkAfter [] o]).heard name =
      if addAllNew ((c.check o).pendingFor name) (c.ownConcrete name) = [] then c.heard name
      else addAllNew ((c.check o).pendingFor name) (c.ownConcrete name) := by
  have hlineage : Lineage [c.checkAfter [] o] := Lineage.nil.concat_of_fresh hc List.not_mem_nil o
  have hafter : heardAfter [c.checkAfter [] o] name =
      addAllNew ((c.check o).pendingFor name) (c.ownConcrete name) := by
    rw [← List.nil_append [c.checkAfter [] o], heardAfter_concat, filter_handedOn, resolve_nil]
    split
    · next h => exact h.symm
    · rfl
  have hanc : (c.heir kind leaf members).ancestors = [⟨c.name, kind, []⟩] ++ c.ancestors := rfl
  have hapart : ∀ a ∈ c.ancestors, a.name ∉ [c.checkAfter [] o].map (·.declared.name) :=
    fun a ha h => hnames a ha (List.mem_singleton.mp h)
  rw [heard_resolve_append hlineage hanc ⟨rfl, by simp⟩ hapart, hafter, heard_eq]

/-- What is demanded of an heir is what the class leaves open. -/
theorem inheritedAbstract_heir (members : List Member) (name : String) :
    (((c.heir kind leaf members).resolve [c.checkAfter [] o]).groupOf name).inheritedAbstract =
      (c.check o).pendingFor name := by
  have hp : ∀ m ∈ (c.check o).pendingFor name, m.isAbstract = true := fun _ =>
    isAbstract_of_mem_pendingFor
  rw [inheritedAbstract_groupOf, heard_heir hc hnames]
  split
  · next h =>
    obtain ⟨hpending, hoc⟩ := addAllNew_eq_nil_iff.mp h
    have hd : (c.groupOf name).demanded = [] :=
      Decidable.byContradiction fun hd => pendingFor_of_demanded hc hoc hd o hpending
    rw [hpending, List.filter_eq_nil_iff]
    intro m hm
    simp [(demanded_groupOf_eq_nil_iff.mp hd).2 m hm]
  · have hoc : (c.ownConcrete name).filter (·.isAbstract) = [] := by
      rw [List.filter_eq_nil_iff]
      intro m hm
      simp [isAbstract_of_mem_ownConcrete hm]
    rw [filter_addAllNew (fun a b h => (Member.fields_eq_of_beq h).2.2.1), hoc,
      List.filter_eq_self.mpr hp]
    rfl

/-- An heir is bound by the implementations of the class that forbid assignment. -/
theorem mem_inheritedConstraints_heir {name : String} (h : (c.check o).violationsFor name = [])
    (hne : (c.check o).pendingFor name ≠ []) (members : List Member) {m : Member} :
    m ∈ (((c.heir kind leaf members).resolve [c.checkAfter [] o]).groupOf name).inheritedConstraints
      ↔ m ∈ c.ownConcrete name ∧
        m.forbidsWritingAmong ((c.check o).pendingFor name ++ c.ownConcrete name) = true := by
  rw [inheritedConstraints_groupOf, heard_heir hc hnames, addAllNew_pendingFor h,
    if_neg (by simp [hne]), List.mem_filter, List.mem_append, Bool.and_eq_true]
  constructor
  · rintro ⟨hm, habs, hforbids⟩
    refine ⟨hm.resolve_left fun hm => ?_, hforbids⟩
    simp [isAbstract_of_mem_pendingFor hm] at habs
  · rintro ⟨hm, hforbids⟩
    exact ⟨.inr hm, by simp [isAbstract_of_mem_ownConcrete hm], hforbids⟩

/-- The contract of an heir under a name. -/
theorem violationsFor_heir_eq_nil_iff {members : List Member}
    (hm : ∀ m ∈ members, m.isAbstract = false) (name : String) :
    (((c.heir kind leaf members).resolve [c.checkAfter [] o]).check o).violationsFor name = [] ↔
      Contract o [] (members.filter (·.name == name)) ((c.check o).pendingFor name)
        (((c.heir kind leaf members).resolve [c.checkAfter [] o]).groupOf name).inheritedConstraints
      := by
  have hoa : ((c.heir kind leaf members).resolve [c.checkAfter [] o]).ownAbstract name = [] := by
    refine List.filter_eq_nil_iff.mpr fun m hmem => ?_
    simp [hm m hmem]
  have hoc : ((c.heir kind leaf members).resolve [c.checkAfter [] o]).ownConcrete name =
      members.filter (·.name == name) := by
    refine List.filter_congr fun m hmem => ?_
    simp [hm m hmem]
  rw [violationsFor_check, Group.violations_findings_eq_nil_iff rfl, ownAbstract_groupOf,
    ownConcrete_groupOf, inheritedAbstract_heir hc hnames, hoa, hoc]
  rfl

/-- Every heir has something to report under a name that the class thwarts. -/
theorem Thwarts.violationsFor_heir_ne_nil {name : String} (ht : c.Thwarts name)
    (h : (c.check o).violationsFor name = []) {members : List Member}
    (hm : ∀ m ∈ members, m.isAbstract = false) :
    (((c.heir kind leaf members).resolve [c.checkAfter [] o]).check o).violationsFor name ≠ [] := by
  obtain ⟨required, hhead, hk⟩ := ht.head?_pendingFor hc h
  have hne : (c.check o).pendingFor name ≠ [] := by
    intro hnil
    rw [hnil] at hhead
    cases hhead
  obtain ⟨_, f, hf, hfield, hro⟩ := ht
  have hforbids : f.forbidsWritingAmong ((c.check o).pendingFor name ++ c.ownConcrete name) =
      true := by
    rw [Member.forbidsWritingAmong, hfield]
    exact hro
  rw [ne_eq, violationsFor_heir_eq_nil_iff hc hnames kind leaf hm]
  refine not_contract_of_forbidden hhead hk (List.ne_nil_of_mem (a := f) ?_)
  rw [mem_inheritedConstraints_heir hc hnames kind leaf h hne]
  exact ⟨List.mem_of_mem_head? hf, hforbids⟩

/-- The heir that answers all that is left open has nothing to report under a name that the class does
not thwart. -/
theorem violationsFor_completion {name : String} (ht : ¬ c.Thwarts name)
    (h : (c.check o).violationsFor name = []) :
    (((c.heir kind leaf (c.completion o leaf)).resolve [c.checkAfter [] o]).check o).violationsFor
      name = [] := by
  rw [violationsFor_heir_eq_nil_iff hc hnames kind leaf fun _ => isAbstract_of_mem_completion,
    filter_completion]
  refine contract_answer o leaf name fun hw => List.eq_nil_iff_forall_not_mem.mpr fun m hm => ?_
  obtain ⟨hm, hforbids⟩ :=
    (mem_inheritedConstraints_heir hc hnames kind leaf h (Demand.ne_nil_of_writes hw) _).mp hm
  exact ht (thwarts_of_forbidsWriting hc h hw hm hforbids)

end Heirs

/-- The last report on a class and its heir is that on the heir, resolved to the checked class. -/
theorem getLast?_checkHierarchy_heir (c : ClassDecl) (kind : AncestorKind) (leaf : String)
    (members : List Member) (o : Options) :
    (checkHierarchy [c, c.heir kind leaf members] o).getLast? =
      some (((c.heir kind leaf members).resolve [c.checkAfter [] o]).check o) :=
  getLast?_checkHierarchy [c] (c.heir kind leaf members) o

/-- Whether the contract that an abstract class hands down can be met at all. Let the class have
nothing to report. Then there are concrete members with which an heir has nothing to report either
exactly when the class does not implement by a readonly field what has to be assignable. -/
theorem exists_silent_heir_iff {c : ClassDecl} (hc : c.isAbstract = true)
    (hnames : ∀ a ∈ c.ancestors, a.name ≠ c.name) {o : Options}
    (hsilent : (c.check o).violations = []) (kind : AncestorKind) (leaf : String) :
    (∃ members, (∀ m ∈ members, m.isAbstract = false) ∧
      ∃ r, (checkHierarchy [c, c.heir kind leaf members] o).getLast? = some r ∧ r.violations = []) ↔
      ∀ name, ¬ c.Thwarts name := by
  rw [Report.violations_eq_nil_iff] at hsilent
  constructor
  · rintro ⟨members, hm, r, hr, hnone⟩ name ht
    rw [getLast?_checkHierarchy_heir] at hr
    cases hr
    exact ht.violationsFor_heir_ne_nil hc hnames kind leaf (hsilent name) hm
      (Report.violations_eq_nil_iff.mp hnone name)
  · intro ht
    refine ⟨c.completion o leaf, fun _ => isAbstract_of_mem_completion, _,
      getLast?_checkHierarchy_heir .., Report.violations_eq_nil_iff.mpr fun name => ?_⟩
    exact violationsFor_completion hc hnames kind leaf (ht name) (hsilent name)

/-- An interface with a field, which has to be assignable. -/
def levelled : Ancestor :=
  .ofInterface "Levelled" [.concrete .field "Levelled" "level" (.keyword .number)]

/-- An abstract class that implements the field by a getter. -/
def meter : ClassDecl :=
  ⟨"Meter", true, [.concrete .getAccessor "Meter" "level" (.keyword .number)], [levelled]⟩

/-- A getter leaves the setter to an heir. -/
theorem meter_meetable :
    (meter.check .initial).violations = [] ∧ (meter.check .initial).pendingFor "level" ≠ [] ∧
      ∃ members, (∀ m ∈ members, m.isAbstract = false) ∧
        ∃ r, (checkHierarchy [meter, meter.heir .baseClass "Tank" members] .initial).getLast? =
          some r ∧ r.violations = [] := by
  refine ⟨rfl, by decide, (exists_silent_heir_iff rfl (by decide) rfl .baseClass "Tank").mpr ?_⟩
  rintro name ⟨_, f, hf, hk, _⟩
  have hm : f ∈ meter.members := (List.mem_filter.mp (List.mem_of_mem_head? hf)).1
  rw [List.mem_singleton.mp hm] at hk
  cases hk

/-- An abstract class that implements the field by a readonly one. -/
def dial : ClassDecl :=
  ⟨"Dial", true, [(Member.concrete .field "Dial" "level" (.keyword .number)).asReadonly],
    [levelled]⟩

/-- A readonly field leaves a setter open that no heir may declare. -/
theorem dial_unmeetable :
    dial.isAbstract = true ∧ (∀ a ∈ dial.ancestors, a.name ≠ dial.name) ∧
      (dial.check .initial).violations = [] ∧
      ∀ kind leaf, ¬ ∃ members, (∀ m ∈ members, m.isAbstract = false) ∧
        ∃ r, (checkHierarchy [dial, dial.heir kind leaf members] .initial).getLast? = some r ∧
          r.violations = [] := by
  have hnames : ∀ a ∈ dial.ancestors, a.name ≠ dial.name := by decide
  have ht : dial.Thwarts "level" := ⟨.inl ⟨_, rfl, rfl⟩, _, rfl, rfl, rfl⟩
  refine ⟨rfl, hnames, rfl, ?_⟩
  rintro kind leaf ⟨members, hm, r, hr, hnone⟩
  rw [getLast?_checkHierarchy_heir] at hr
  cases hr
  exact ht.violationsFor_heir_ne_nil rfl hnames kind leaf rfl hm
    (Report.violations_eq_nil_iff.mp hnone "level")

end ClassDecl

end ClassContract
