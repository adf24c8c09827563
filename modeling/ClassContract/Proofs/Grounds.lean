import ClassContract.Proofs.Contract

/-!
# The grounds of a violation

A violation names the declarations that it is about by their owners, kinds and types. For every code
`Violation.Grounded` says which declarations in scope have to bear it out: that they are there, that
what the violation shows is taken from them, and that they really break the rule. The rules pick these
declarations in different places, as the first declaration, as the source of one half of a property,
as the constraint of an ancestor or as one of a pair; `grounded_of_mem_violations` says that whatever
a check reports has its grounds.
-/

namespace ClassContract

/-- The type of an implementation is not related to a demanded type as its kind requires. What is only
read has to be assignable to the demanded type, a setter has to accept it, and a field that can be
assigned has to keep it up to widening. -/
def Member.Misfits (m : Member) (demanded : MemberType) : Prop :=
  match m.kind with
  | .method | .getAccessor => m.type.isAssignable demanded = false
  | .setAccessor => demanded.isAssignable m.type = false
  | .field =>
    if m.isReadonly then m.type.isAssignable demanded = false
    else m.type.widen.isIdentical demanded.widen = false

/-- The grounds of a violation in the declarations of its name: `q` is what is demanded, `oa` and `oc`
are the abstract declarations and the implementations of the class itself, and `ic` the declarations
of ancestors that forbid assignment and require nothing. -/
def Violation.Grounded (q oa oc ic : List Member) (v : Violation) : Prop :=
  match v.code with
  | .unimplemented => ∃ m ∈ q, v.declaredIn = some m.owner
  | .kindMismatch =>
    ∃ m ∈ q, ∃ i ∈ oc, v.declaredIn = some m.owner ∧ v.expected = .kind m.kind
      ∧ v.actual = .kind i.kind ∧ m.kind ≠ i.kind
  | .typeMismatch =>
    (∃ m ∈ q, v.declaredIn = some m.owner)
      ∧ ∃ m ∈ q, ∃ i ∈ oc, v.expected = .type m.type ∧ v.actual = .type i.type ∧ i.Misfits m.type
  | .readonlyViolation =>
    (∃ m, (m ∈ q ∨ m ∈ ic) ∧ v.declaredIn = some m.owner ∧ v.expected = .kind m.kind)
      ∧ ∃ w ∈ oc, w.Assigns ∧ v.actual = .kind w.kind
  | .accessorTypeMismatch =>
    v.declaredIn = none ∧ ∃ ms ∈ [oa, oc], ∃ g ∈ ms, ∃ t ∈ ms, g.kind = .getAccessor
      ∧ t.kind = .setAccessor ∧ v.expected = .type g.type ∧ v.actual = .type t.type
      ∧ g.type.widen.isIdentical t.type.widen = false
  | .duplicate =>
    v.declaredIn = none ∧ ∃ ms ∈ [oa, oc], ¬ Collisionless ms ∧ v.actual = .count ms.length
      ∧ ∃ m ∈ ms, v.expected = .kind m.kind
  | .missingBody =>
    v.declaredIn = none
      ∧ ∃ m ∈ oc, m.kind ≠ .field ∧ m.hasBody = false ∧ v.expected = .kind m.kind
  | .abstractInConcrete => v.declaredIn = none ∧ ∃ m ∈ oa, v.expected = .kind m.kind
  | .accessorAbstractness =>
    v.declaredIn = none ∧ ∃ half other, SplitAccessors oa oc half other
      ∧ v.expected = .kind half ∧ v.actual = .kind other

/-- Where a requirement was declared is told for the rules that hold an implementation against it. -/
theorem Violation.Grounded.isSome_declaredIn_iff {q oa oc ic : List Member} {v : Violation}
    (h : v.Grounded q oa oc ic) :
    v.declaredIn.isSome = true ↔ v.code ∈ Subject.provisionCodes := by
  unfold Grounded at h
  cases hc : v.code with
  | unimplemented =>
    rw [hc] at h
    obtain ⟨m, _, hd⟩ := h
    exact iff_of_true (by rw [hd]; rfl) (by decide)
  | kindMismatch =>
    rw [hc] at h
    obtain ⟨m, _, i, _, hd, _⟩ := h
    exact iff_of_true (by rw [hd]; rfl) (by decide)
  | typeMismatch =>
    rw [hc] at h
    obtain ⟨⟨m, _, hd⟩, _⟩ := h
    exact iff_of_true (by rw [hd]; rfl) (by decide)
  | readonlyViolation =>
    rw [hc] at h
    obtain ⟨⟨m, _, hd, _⟩, _⟩ := h
    exact iff_of_true (by rw [hd]; rfl) (by decide)
  | accessorTypeMismatch | duplicate | missingBody | abstractInConcrete | accessorAbstractness =>
    rw [hc] at h
    exact iff_of_false (by rw [h.1]; simp) (by decide)

namespace Finding

/-- Findings about a class all of whose violations have their grounds. -/
structure AllGrounded (s : Subject) (q oa oc ic : List Member) (fs : List Finding) : Prop where
  /-- Each violation is one of the class and has its grounds. -/
  grounded : ∀ v ∈ violations fs, v.owner = s.className ∧ v.Grounded q oa oc ic

namespace AllGrounded

variable {s : Subject} {q oa oc ic : List Member} {fs gs : List Finding}

/-- Without violations there is nothing to give grounds for. -/
theorem of_silent (h : violations fs = []) : AllGrounded s q oa oc ic fs where
  grounded := by simp [h]

/-- Rules with grounds may be applied one after the other. -/
theorem append (hf : AllGrounded s q oa oc ic fs) (hg : AllGrounded s q oa oc ic gs) :
    AllGrounded s q oa oc ic (fs ++ gs) where
  grounded v hv := by
    rw [violations_append] at hv
    exact (List.mem_append.mp hv).elim (hf.grounded v) (hg.grounded v)

/-- A finding for each element of a list has grounds if each of them has. -/
theorem map {f : β → Finding} {bs : List β}
    (h : ∀ b ∈ bs, AllGrounded s q oa oc ic [f b]) : AllGrounded s q oa oc ic (bs.map f) where
  grounded v hv := by
    obtain ⟨b, hb, hf⟩ := List.mem_map.mp (mem_violations.mp hv)
    exact (h b hb).grounded v (mem_violations.mpr (by simp [hf]))

/-- A violation has grounds if its parts have. -/
theorem violation {name : String} {code : Code} {declaredIn : Option String}
    {expected actual : Side}
    (h : Violation.Grounded q oa oc ic
      ⟨name, code.category, code, s.className, declaredIn, expected, actual⟩) :
    AllGrounded s q oa oc ic [s.violation name code declaredIn expected actual] where
  grounded v hv := by
    rw [List.mem_singleton.mp hv]
    exact ⟨rfl, h⟩

end AllGrounded

end Finding

open Finding

namespace Requirement

variable {ms : List Member}

/-- The type that readers or writers rely on is that of a declaration. -/
theorem exists_of_readType {p : PropertyRequirement} (h : ofMembers? ms = some (.property p))
    {t : MemberType} (ht : p.readType = some t) : ∃ m ∈ ms, m.type = t := by
  obtain ⟨m, hm, rfl⟩ := Option.map_eq_some_iff.mp ht
  exact ⟨m, mem_of_mem_members h (mem_members_of_readSource hm), rfl⟩

/-- The type that may be stored is that of one of the declarations. -/
theorem exists_of_writeType {p : PropertyRequirement} (h : ofMembers? ms = some (.property p))
    {t : MemberType} (ht : p.writeType = some t) : ∃ m ∈ ms, m.type = t := by
  obtain ⟨m, hm, rfl⟩ := Option.map_eq_some_iff.mp ht
  exact ⟨m, mem_of_mem_members h (mem_members_of_writeSource hm), rfl⟩

end Requirement

namespace Provision

variable {ms : List Member} {p : Provision}

/-- A provision is reported under the kind of one of its declarations. -/
theorem exists_kind (h : ofMembers? ms = some p) : ∃ m ∈ ms, m.kind = p.kind := by
  rcases cases_of_ofMembers? h with ⟨m, hm, hk, rfl⟩ | ⟨m, hm, hk, rfl⟩ | ⟨⟨m, hm, hk⟩, rfl⟩
  · exact ⟨m, hm, hk⟩
  · exact ⟨m, hm, hk⟩
  · cases hg : firstOfKind .getAccessor ms with
    | some g => exact ⟨g, mem_of_firstOfKind hg, kind_of_firstOfKind hg⟩
    | none =>
      have hne : m.kind ≠ .getAccessor := firstOfKind_eq_none_iff.mp hg m hm
      exact ⟨m, hm, MemberKind.eq_setAccessor_of_isAccessor hk hne⟩

/-- What a provision is assigned through can be assigned. -/
theorem assigns_of_writer (h : ofMembers? ms = some p) {w : Member} (hw : p.writer = some w) :
    w ∈ ms ∧ w.Assigns := by
  rcases cases_of_ofMembers? h with ⟨m, hm, hk, rfl⟩ | ⟨m, hm, hk, rfl⟩ | ⟨_, rfl⟩
  · cases hr : m.isReadonly with
    | true => simp [writer, hr] at hw
    | false =>
      obtain rfl : m = w := by simpa [writer, hr] using hw
      exact ⟨hm, .inr ⟨hk, hr⟩⟩
  · cases hw
  · exact ⟨mem_of_firstOfKind hw, .inl (kind_of_firstOfKind hw)⟩

end Provision

namespace Subject

section Rules

variable {q oa oc ic : List Member} {r : Requirement} {p : Provision}

/-- The declaration that collides is one of the declarations. -/
theorem mem_of_firstCollision {earlier : List MemberKind} {ms : List Member} {m : Member}
    (h : firstCollision earlier ms = some m) : m ∈ ms := by
  fun_induction firstCollision earlier ms with
  | case1 => cases h
  | case2 earlier a ms collides hc =>
    cases h
    exact List.mem_cons_self
  | case3 earlier a ms collides hc ih => exact List.mem_cons_of_mem a (ih h)

/-- Collisions are found among the abstract or among the concrete declarations. -/
theorem allGrounded_duplicates (s : Subject) (name : String) {ms : List Member}
    (hms : ms ∈ [oa, oc]) : AllGrounded s q oa oc ic (s.duplicates name ms) := by
  unfold duplicates
  split
  · next m hm =>
    have hcollide : ¬ Collisionless ms := by
      rw [← firstCollision_eq_none_iff, hm]
      exact Option.some_ne_none m
    exact .violation ⟨rfl, ms, hms, hcollide, rfl, m, mem_of_firstCollision hm, rfl⟩
  · exact .of_silent rfl

/-- Where the kinds do not match, the kind that is reported as found is another one than the demanded
one. -/
theorem primary_kind_ne {o : Options} (hr : Requirement.ofMembers? q = some r)
    (hk : kindOutcome o r p = .mismatch) : r.primary.kind ≠ p.kind := by
  cases r with
  | method m =>
    have hm : (Requirement.method m).primary.kind = .method :=
      Requirement.kind_of_ofMembers?_method hr
    rw [hm]
    cases p with
    | method i => cases hk
    | field f => exact MemberKind.noConfusion
    | accessors getter setter => cases getter <;> exact MemberKind.noConfusion
  | property d =>
    obtain ⟨hmethod, hd⟩ := Requirement.ofMembers?_property hr
    cases p with
    | method i => exact hmethod
    | accessors getter setter =>
      rw [kindOutcome] at hk
      split at hk <;> cases hk
    | field f =>
      intro hfield
      have hread : d.requiresRead = true := by
        rw [hd, Demand.requiresRead_iff]
        exact ⟨d.primary, Requirement.primary_mem hr, .inl hfield⟩
      rw [kindOutcome, hread] at hk
      split at hk
      · cases hk
      · cases hk

/-- What comparing kinds reports is shown by the requirement and the provision. -/
theorem allGrounded_kinds (hr : Requirement.ofMembers? q = some r)
    (hp : Provision.ofMembers? oc = some p) (s : Subject) (name : String) :
    AllGrounded s q oa oc ic (s.kinds name r p).2 := by
  rw [kinds_eq]
  dsimp only
  split
  · next hk =>
    obtain ⟨i, hi, hkind⟩ := Provision.exists_kind hp
    have hne : r.primary.kind ≠ i.kind := hkind ▸ primary_kind_ne hr hk
    exact .violation ⟨r.primary, Requirement.primary_mem hr, i, hi, rfl, rfl, by rw [hkind], hne⟩
  · constructor
    intro v hv
    rw [violations_gaps] at hv
    split at hv
    · cases hv
    · obtain ⟨g, hg, rfl⟩ := List.mem_map.mp hv
      exact ⟨rfl, g.source, Requirement.mem_of_mem_members hr (mem_members_of_mem_gaps hg), rfl⟩

/-- A violation of readonly is shown by what forbids assignment and by what can be assigned. -/
theorem allGrounded_readonly {d : Option Requirement} (hd : Requirement.ofMembers? q = d)
    (hp : Provision.ofMembers? oc = some p) (s : Subject) (name : String) :
    AllGrounded s q oa oc ic (s.readonly name d ic.head? p) := by
  unfold readonly
  split
  · next source w hsource hw =>
    obtain ⟨hmem, hassigns⟩ := Provision.assigns_of_writer hp hw
    have hfrom : source ∈ q ∨ source ∈ ic := by
      rcases Option.or_eq_some_iff.mp hsource with hprimary | ⟨_, hconstraint⟩
      · obtain ⟨r, hr, rfl⟩ := Option.map_eq_some_iff.mp hprimary
        exact .inl (Requirement.primary_mem (hd.trans (Option.filter_eq_some_iff.mp hr).1))
      · exact .inr (List.mem_of_head? hconstraint)
    exact .violation ⟨⟨source, hfrom, rfl, rfl⟩, w, hmem, hassigns, rfl⟩
  · exact .of_silent rfl

/-- A comparison of the types of a demanded declaration and of an implementation, which fails only
where the implementation does not fit. -/
def Comparison.IsBetween (q oc : List Member) (c : Comparison) : Prop :=
  ∃ m ∈ q, ∃ i ∈ oc, c.expected = m.type ∧ c.actual = i.type
    ∧ (c.verdict.holds = false → i.Misfits m.type)

/-- A method is compared with the required method. -/
theorem isBetween_method {required i : Member} (hm : required ∈ q) (hi : i ∈ oc)
    (hk : i.kind = .method) {c : Comparison}
    (hc : c ∈ comparisons (.method required) (.method i)) : c.IsBetween q oc := by
  obtain rfl := List.mem_singleton.mp hc
  refine ⟨required, hm, i, hi, rfl, rfl, fun hfails => ?_⟩
  rw [Member.Misfits, hk]
  exact hfails

/-- A field is compared with one of the required declarations. -/
theorem isBetween_field {d : PropertyRequirement}
    (hr : Requirement.ofMembers? q = some (.property d)) {f : Member} (hf : f ∈ oc)
    (hk : f.kind = .field) {c : Comparison} (hc : c ∈ comparisons (.property d) (.field f)) :
    c.IsBetween q oc := by
  rw [comparisons] at hc
  split at hc
  · next hro =>
    obtain ⟨t, ht, rfl⟩ := List.mem_map.mp hc
    obtain ⟨m, hm, rfl⟩ := Requirement.exists_of_readType hr (Option.mem_toList.mp ht)
    refine ⟨m, hm, f, hf, rfl, rfl, fun hfails => ?_⟩
    rw [Member.Misfits, hk]
    exact (if_pos hro).mpr hfails
  · next hro =>
    obtain ⟨t, ht, rfl⟩ := List.mem_map.mp hc
    obtain ⟨m, hm, rfl⟩ : ∃ m ∈ q, m.type = t := by
      rcases Option.or_eq_some_iff.mp (Option.mem_toList.mp ht) with ht | ⟨_, ht⟩
      · exact Requirement.exists_of_readType hr ht
      · exact Requirement.exists_of_writeType hr ht
    refine ⟨m, hm, f, hf, rfl, rfl, fun hfails => ?_⟩
    rw [Member.Misfits, hk]
    exact (if_neg hro).mpr hfails

/-- An accessor is compared with one of the required declarations. -/
theorem isBetween_accessors {d : PropertyRequirement}
    (hr : Requirement.ofMembers? q = some (.property d)) {c : Comparison}
    (hc : c ∈ comparisons (.property d)
      (.accessors (firstOfKind .getAccessor oc) (firstOfKind .setAccessor oc))) :
    c.IsBetween q oc := by
  rw [comparisons, List.mem_append, List.mem_map, List.mem_map] at hc
  rcases hc with ⟨⟨t, i⟩, hti, rfl⟩ | ⟨⟨t, i⟩, hti, rfl⟩
  · obtain ⟨ht, hi⟩ := List.of_mem_zip hti
    have hi := Option.mem_toList.mp hi
    obtain ⟨m, hm, rfl⟩ := Requirement.exists_of_readType hr (Option.mem_toList.mp ht)
    refine ⟨m, hm, i, mem_of_firstOfKind hi, rfl, rfl, fun hfails => ?_⟩
    rw [Member.Misfits, kind_of_firstOfKind hi]
    exact hfails
  · obtain ⟨ht, hi⟩ := List.of_mem_zip hti
    have hi := Option.mem_toList.mp hi
    obtain ⟨m, hm, rfl⟩ := Requirement.exists_of_writeType hr (Option.mem_toList.mp ht)
    refine ⟨m, hm, i, mem_of_firstOfKind hi, rfl, rfl, fun hfails => ?_⟩
    rw [Member.Misfits, kind_of_firstOfKind hi]
    exact hfails

/-- All comparisons are between what is demanded and what is implemented. -/
theorem isBetween_of_mem_comparisons (hr : Requirement.ofMembers? q = some r)
    (hp : Provision.ofMembers? oc = some p) {c : Comparison} (hc : c ∈ comparisons r p) :
    c.IsBetween q oc := by
  rcases Provision.cases_of_ofMembers? hp with ⟨i, hi, hk, rfl⟩ | ⟨i, hi, hk, rfl⟩ | ⟨_, rfl⟩
  · cases r with
    | method required => cases hc
    | property d => exact isBetween_field hr hi hk hc
  · cases r with
    | method required => exact isBetween_method (Requirement.primary_mem hr) hi hk hc
    | property d => cases hc
  · cases r with
    | method required => cases hc
    | property d => exact isBetween_accessors hr hc

/-- What is reported of comparisons is reported of one that fails. -/
theorem allGrounded_firstMismatch {s : Subject} {report : MemberType → MemberType → Finding}
    {cs : List Comparison}
    (h : ∀ c ∈ cs, c.verdict.holds = false →
      AllGrounded s q oa oc ic [report c.expected c.actual]) :
    AllGrounded s q oa oc ic (firstMismatch report cs) := by
  induction cs with
  | nil => exact .of_silent rfl
  | cons c cs ih =>
    obtain ⟨hc, hcs⟩ := List.forall_mem_cons.mp h
    rw [firstMismatch]
    refine .append (.of_silent (violations_ofCutOffs _)) ?_
    split
    · exact ih hcs
    · next hfails => exact hc (Bool.eq_false_iff.mpr hfails)

/-- A mismatch of types is shown by two declarations that do not fit. -/
theorem allGrounded_types (hr : Requirement.ofMembers? q = some r)
    (hp : Provision.ofMembers? oc = some p) (s : Subject) (name : String) :
    AllGrounded s q oa oc ic (s.types name r p) := by
  refine allGrounded_firstMismatch fun c hc hfails => ?_
  obtain ⟨m, hm, i, hi, hexpected, hactual, hmisfits⟩ := isBetween_of_mem_comparisons hr hp hc
  rw [hexpected, hactual]
  exact .violation ⟨⟨r.primary, Requirement.primary_mem hr, rfl⟩,
    m, hm, i, hi, rfl, rfl, hmisfits hfails⟩

/-- What follows the comparison of kinds has grounds. -/
theorem allGrounded_afterKinds (hr : Requirement.ofMembers? q = some r)
    (hp : Provision.ofMembers? oc = some p) (s : Subject) (name : String) :
    AllGrounded s q oa oc ic (s.afterKinds name r ic.head? p) := by
  have hreadonly : AllGrounded s q oa oc ic (s.readonly name (some r) ic.head? p) :=
    allGrounded_readonly hr hp s name
  have htypes : AllGrounded s q oa oc ic (s.types name r p) := allGrounded_types hr hp s name
  unfold afterKinds
  split
  · exact hreadonly.append htypes
  · refine AllGrounded.append ?_ htypes
    split
    · exact hreadonly
    · exact .of_silent rfl
  · exact .of_silent rfl

/-- All rules for a provision have grounds. -/
theorem allGrounded_provision (hp : Provision.ofMembers? oc = some p) (s : Subject)
    (name : String) :
    AllGrounded s q oa oc ic (s.provision name (Requirement.ofMembers? q) ic.head? p) := by
  cases hr : Requirement.ofMembers? q with
  | none => exact allGrounded_readonly hr hp s name
  | some r =>
    rw [provision_some]
    exact (allGrounded_kinds hr hp s name).append (allGrounded_afterKinds hr hp s name)

/-- A mismatch of accessors is shown by a getter and a setter of one list. -/
theorem allGrounded_accessorPair (s : Subject) (name : String) {ms : List Member}
    (hms : ms ∈ [oa, oc]) : AllGrounded s q oa oc ic (s.accessorPair name ms).2 := by
  unfold accessorPair pairVerdict
  cases hg : firstOfKind .getAccessor ms with
  | none => exact .of_silent rfl
  | some g =>
    cases ht : firstOfKind .setAccessor ms with
    | none => exact .of_silent rfl
    | some t =>
      dsimp only
      refine .append (.of_silent (violations_ofCutOffs _)) ?_
      split
      · exact .of_silent rfl
      · next hfails =>
        exact .violation ⟨rfl, ms, hms, g, mem_of_firstOfKind hg, t, mem_of_firstOfKind ht,
          kind_of_firstOfKind hg, kind_of_firstOfKind ht, rfl, rfl, Bool.eq_false_iff.mpr hfails⟩

/-- Whichever accessors are reported, they stand in one of the two lists. -/
theorem allGrounded_accessorPairs (s : Subject) (name : String) :
    AllGrounded s q oa oc ic (s.accessorPairs name oa oc) := by
  rw [accessorPairs_eq]
  refine .append (s.allGrounded_accessorPair name (by simp)) ?_
  split
  · exact .of_silent rfl
  · exact s.allGrounded_accessorPair name (by simp)

/-- A missing body is shown by an implementation without one. -/
theorem allGrounded_bodies (s : Subject) (name : String) :
    AllGrounded s q oa oc ic (s.bodies name oc) := by
  refine .map fun m hm => .violation ?_
  obtain ⟨hm, hbody⟩ := List.mem_filter.mp hm
  obtain ⟨hkind, hbody⟩ := Bool.and_eq_true_iff.mp hbody
  have hfield : m.kind ≠ .field := fun hf => by
    rw [hf] at hkind
    cases hkind
  exact ⟨rfl, m, hm, hfield, by simpa using hbody, rfl⟩

/-- An abstract member of a concrete class is shown by its declaration. -/
theorem allGrounded_abstractMembers (s : Subject) (name : String) :
    AllGrounded s q oa oc ic (s.abstractMembers name oa) := by
  unfold abstractMembers
  split
  · exact .map fun m hm => .violation ⟨rfl, m, hm, rfl⟩
  · exact .of_silent rfl

/-- Accessors of which one is abstract are shown by an abstract and a concrete declaration. -/
theorem allGrounded_accessorAbstractness (s : Subject) (name : String) :
    AllGrounded s q oa oc ic (s.accessorAbstractness name oa oc) := by
  have hsplit : ∀ half other, splitAccessors oa oc half other = true →
      SplitAccessors oa oc half other := by
    intro half other h
    refine Classical.byContradiction fun hn => ?_
    rw [(splitAccessors_eq_false_iff oa oc half other).mpr hn] at h
    cases h
  unfold accessorAbstractness
  dsimp only
  split
  · exact .of_silent rfl
  · split
    · next h => exact .violation ⟨rfl, _, _, hsplit _ _ h, rfl, rfl⟩
    · split
      · next h => exact .violation ⟨rfl, _, _, hsplit _ _ h, rfl, rfl⟩
      · exact .of_silent rfl

/-- All rules for a name with an implementation have grounds. -/
theorem allGrounded_fullCheck (s : Subject) (name : String) :
    AllGrounded s q oa oc ic
      (s.fullCheck name (Requirement.ofMembers? q) ic.head? oa oc) := by
  rw [fullCheck_eq]
  refine ((((AllGrounded.append ?_ ?_).append ?_).append ?_).append ?_).append (.append ?_ ?_)
  · exact s.allGrounded_duplicates name (by simp)
  · exact s.allGrounded_duplicates name (by simp)
  · cases hp : Provision.ofMembers? oc with
    | none => exact .of_silent rfl
    | some p => exact allGrounded_provision hp s name
  · exact s.allGrounded_accessorPairs name
  · exact s.allGrounded_bodies name
  · exact s.allGrounded_abstractMembers name
  · exact s.allGrounded_accessorAbstractness name

end Rules

end Subject

namespace Group

/-- A requirement that nothing implements is shown by what is demanded. -/
theorem allGrounded_unmet (s : Subject) (g : Group) :
    AllGrounded s g.demanded g.ownAbstract g.ownConcrete g.inheritedConstraints (g.unmet s) := by
  unfold unmet
  split
  · exact .of_silent rfl
  · next r hr =>
    split
    · exact .of_silent rfl
    · split
      · exact .of_silent (violations_map_deferral _)
      · exact .violation ⟨r.primary, Requirement.primary_mem hr, rfl⟩

/-- Every violation that the rules find in a group has its grounds there. -/
theorem allGrounded_findings (s : Subject) (g : Group) :
    AllGrounded s g.demanded g.ownAbstract g.ownConcrete g.inheritedConstraints
      (g.findings s) := by
  rw [findings_eq]
  refine (AllGrounded.append ?_ (g.allGrounded_unmet s)).append ?_
  · exact .of_silent rfl
  · exact s.allGrounded_fullCheck g.name

end Group

namespace ClassDecl

/-- Every violation is justified by declarations in scope under its name. It is one of the checked
class, it tells where a requirement was declared exactly for the rules that hold an implementation
against it, and the declarations that it shows are there and break the rule. -/
theorem grounded_of_mem_violations {c : ClassDecl} {o : Options} {v : Violation}
    (h : v ∈ (c.check o).violations) :
    v.owner = c.name ∧ (v.declaredIn.isSome = true ↔ v.code ∈ Subject.provisionCodes)
      ∧ v.Grounded
        (demand (c.ownAbstract v.member) (c.groupOf v.member).inheritedAbstract)
        (c.ownAbstract v.member) (c.ownConcrete v.member)
        (c.groupOf v.member).inheritedConstraints := by
  have hv : v ∈ (c.check o).violationsFor v.member :=
    List.mem_filter.mpr ⟨h, beq_self_eq_true _⟩
  rw [violationsFor_check] at hv
  obtain ⟨howner, hgrounded⟩ :=
    ((c.groupOf v.member).allGrounded_findings (.ofClass c o)).grounded v hv
  rw [Group.demanded, ownAbstract_groupOf, ownConcrete_groupOf] at hgrounded
  exact ⟨howner, hgrounded.isSome_declaredIn_iff, hgrounded⟩

/-- A class whose getter does not give what an interface demands. -/
def sensor : ClassDecl :=
  ⟨"Sensor", false, [.concrete .getAccessor "Sensor" "reading" (.keyword .string)],
    [.ofInterface "Readable" [.concrete .getAccessor "Readable" "reading" (.keyword .number)]]⟩

/-- The report on its getter. -/
def sensorMismatch : Violation :=
  ⟨"reading", .error, .typeMismatch, "Sensor", some "Readable", .type (.keyword .number),
    .type (.keyword .string)⟩

/-- The mismatch of the sensor is shown by two declarations of its reading. -/
theorem sensor_reading_grounded :
    sensorMismatch ∈ (sensor.check .initial).violations
      ∧ ∃ m ∈ demand (sensor.ownAbstract "reading") (sensor.groupOf "reading").inheritedAbstract,
        ∃ i ∈ sensor.ownConcrete "reading", sensorMismatch.expected = .type m.type
          ∧ sensorMismatch.actual = .type i.type ∧ i.Misfits m.type := by
  have hmem : sensorMismatch ∈ (sensor.check .initial).violations :=
    List.mem_of_mem_head? rfl
  exact ⟨hmem, (grounded_of_mem_violations hmem).2.2.2⟩

end ClassDecl

end ClassContract
