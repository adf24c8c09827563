import ClassContract.Proofs.Contract
import ClassContract.Proofs.Interchange
import ClassContract.Proofs.Pending

/-!
# What is handed down once

An abstract class that reports no duplicates leaves every declaration to its subclasses once, as long
as it does not leave half of a property open that it declares itself. Such a half is handed down
twice over: as the part that the implementation lacks, written as a mere requirement, and as the
class declares it. The two are told apart by a body or a readonly mark on the declaration, and then
both stay. The main statement, `nodup_pending_iff`, says that under one name no kind is handed down
twice exactly where no such declaration has either.
-/

namespace ClassContract

open Finding

/-- An implementation that covers only the other half of a property than an accessor of a kind does:
a setter leaves the getter open, and a getter or a readonly field leaves the setter open. -/
def Member.LeavesOpen (i : Member) : MemberKind → Prop
  | .getAccessor => i.kind = .setAccessor
  | .setAccessor => i.kind = .getAccessor ∨ i.kind = .field ∧ i.isReadonly = true
  | .field | .method => False

/-- Only halves are left open. -/
theorem Member.LeavesOpen.isAccessor {i : Member} {kind : MemberKind} (h : i.LeavesOpen kind) :
    kind.isAccessor = true := by
  cases kind with
  | getAccessor | setAccessor => rfl
  | field | method => exact h.elim

namespace Collisionless

variable {ms : List Member}

/-- Declarations that lack one of the accessors are at most one. -/
theorem eq_nil_of_lacks {first : Member} {rest : List Member} (h : Collisionless (first :: rest))
    {half : MemberKind} (hk : half.isAccessor = true)
    (hlacks : firstOfKind half (first :: rest) = none) : rest = [] := by
  rcases h with h | h
  · exact List.eq_nil_of_length_eq_zero (by simpa using h)
  · have hmem : half ∈ [MemberKind.getAccessor, .setAccessor] := by
      cases half <;> first | decide | cases hk
    obtain ⟨m, hm, hkind⟩ := List.mem_map.mp (h.mem_iff.mpr hmem)
    exact absurd hkind (firstOfKind_eq_none_iff.mp hlacks m hm)

/-- There is no field beside an accessor. -/
theorem firstOfKind_field (h : Collisionless ms) {m : Member} (hm : m ∈ ms)
    (hk : m.kind.isAccessor = true) : firstOfKind .field ms = none := by
  refine firstOfKind_eq_none_iff.mpr fun f hf hkind => ?_
  have hacc := h.isAccessor_of_mem hm hk f hf
  rw [hkind] at hacc
  cases hacc

/-- Declarations with an accessor among them require a property. -/
theorem exists_property (h : Collisionless ms) {m : Member} (hm : m ∈ ms)
    (hk : m.kind.isAccessor = true) : ∃ q, Requirement.ofMembers? ms = some (.property q) := by
  cases ms with
  | nil => cases hm
  | cons first rest =>
    have hacc := h.isAccessor_of_mem hm hk first List.mem_cons_self
    have hmethod : first.kind ≠ .method := fun he => by
      rw [he] at hacc
      cases hacc
    exact ⟨_, if_neg hmethod⟩

/-- A getter requires reading by itself. -/
theorem readSource_of_getter (h : Collisionless ms) {m : Member} (hm : m ∈ ms)
    (hk : m.kind = .getAccessor) {q : PropertyRequirement}
    (hq : Requirement.ofMembers? ms = some (.property q)) : q.readSource = some m := by
  rw [(Requirement.ofMembers?_property hq).2]
  show (firstOfKind .field ms).or (firstOfKind .getAccessor ms) = some m
  have hfield : firstOfKind .field ms = none := h.firstOfKind_field hm (by rw [hk]; rfl)
  rw [hfield, h.firstOfKind_eq_some_iff.mpr ⟨hm, hk⟩, Option.none_or]

/-- A setter requires assignment by itself. -/
theorem writeSource_of_setter (h : Collisionless ms) {m : Member} (hm : m ∈ ms)
    (hk : m.kind = .setAccessor) {q : PropertyRequirement}
    (hq : Requirement.ofMembers? ms = some (.property q)) : q.writeSource = some m := by
  rw [(Requirement.ofMembers?_property hq).2]
  show (firstOfKind .setAccessor ms).or _ = some m
  rw [h.firstOfKind_eq_some_iff.mpr ⟨hm, hk⟩, Option.some_or]

end Collisionless

namespace Subject

/-- A missing half is left open by the one implementation there is. -/
theorem exists_leavesOpen_of_mem_gaps {oc : List Member} (h : Collisionless oc) {r : Requirement}
    {p : Provision} (hp : Provision.ofMembers? oc = some p) {g : Gap} (hg : g ∈ gaps r p) :
    ∃ i, oc = [i] ∧ i.LeavesOpen g.missing := by
  obtain ⟨first, rest, rfl⟩ := List.exists_cons_of_ne_nil (Provision.ne_nil_of_ofMembers? hp)
  obtain ⟨q, rfl, hcases⟩ := mem_gaps_cases hg
  rcases provision_cases h hp with ⟨hk, rfl, rfl⟩ | ⟨_, _, rfl⟩ | ⟨hk, rfl⟩
  · rcases hcases with ⟨_, _, setter, he⟩ | ⟨hmissing, _, hw⟩
    · cases he
    · have hro : first.isReadonly = true := by simpa [Provision.writer] using hw
      exact ⟨first, rfl, hmissing ▸ .inr ⟨hk, hro⟩⟩
  · cases hg
  · rcases hcases with ⟨hmissing, _, setter, he⟩ | ⟨hmissing, _, hw⟩
    · have hlacks : firstOfKind .getAccessor (first :: rest) = none := by
        injection he
      obtain rfl := h.eq_nil_of_lacks rfl hlacks
      have hne := firstOfKind_eq_none_iff.mp hlacks first List.mem_cons_self
      exact ⟨first, rfl, hmissing ▸ MemberKind.eq_setAccessor_of_isAccessor hk hne⟩
    · have hlacks : firstOfKind .setAccessor (first :: rest) = none := hw
      obtain rfl := h.eq_nil_of_lacks rfl hlacks
      have hne := firstOfKind_eq_none_iff.mp hlacks first List.mem_cons_self
      have hget : first.kind = .getAccessor := by
        cases hf : first.kind with
        | getAccessor => rfl
        | setAccessor => exact absurd hf hne
        | field | method =>
          rw [hf] at hk
          cases hk
      exact ⟨first, rfl, hmissing ▸ .inl hget⟩

/-- What a missing half is required by, if the accessor itself is declared, is that accessor. -/
theorem source_eq_of_mem_gaps {oa : List Member} (h : Collisionless oa) {r : Requirement}
    (hr : Requirement.ofMembers? oa = some r) {p : Provision} {g : Gap} (hg : g ∈ gaps r p)
    {m : Member} (hm : m ∈ oa) (hk : m.kind = g.missing) : g.source = m := by
  obtain ⟨q, rfl, ⟨hmissing, hs, _⟩ | ⟨hmissing, hs, _⟩⟩ := mem_gaps_cases hg
  · rw [h.readSource_of_getter hm (hk.trans hmissing) hr] at hs
    exact (Option.some.inj hs).symm
  · rw [h.writeSource_of_setter hm (hk.trans hmissing) hr] at hs
    exact (Option.some.inj hs).symm

/-- An accessor that is declared and that the implementation leaves open is a missing half. -/
theorem exists_gap_of_leavesOpen {oa : List Member} (h : Collisionless oa) {m i : Member}
    (hm : m ∈ oa) (hi : i.LeavesOpen m.kind) :
    ∃ r p, Requirement.ofMembers? oa = some r ∧ Provision.ofMembers? [i] = some p ∧
      ∃ g ∈ gaps r p, g.missing = m.kind := by
  obtain ⟨q, hq⟩ := h.exists_property hm hi.isAccessor
  cases hk : m.kind with
  | field | method =>
    rw [hk] at hi
    exact hi.elim
  | getAccessor =>
    rw [hk] at hi
    have hset : i.kind = .setAccessor := hi
    have hread : q.requiresRead = true := by
      rw [← q.isSome_readSource, h.readSource_of_getter hm hk hq]
      rfl
    have hp : Provision.ofMembers? [i] = some (.accessors none (some i)) := by
      simp [Provision.ofMembers?, firstOfKind, hset]
    exact ⟨_, _, hq, hp, exists_getter_gap hread _⟩
  | setAccessor =>
    rw [hk] at hi
    have hwrite : q.requiresWrite = true := by
      rw [← q.isSome_writeSource, h.writeSource_of_setter hm hk hq]
      rfl
    rcases hi with hget | ⟨hfield, hro⟩
    · have hp : Provision.ofMembers? [i] = some (.accessors (some i) none) := by
        simp [Provision.ofMembers?, firstOfKind, hget]
      exact ⟨_, _, hq, hp, exists_setter_gap (by simp) hwrite rfl⟩
    · have hp : Provision.ofMembers? [i] = some (.field i) := by
        simp [Provision.ofMembers?, hfield]
      exact ⟨_, _, hq, hp, exists_setter_gap (by simp) hwrite (if_pos hro)⟩

/-- A half is missing only between kinds that fit. -/
theorem kindOutcome_ne_mismatch_of_mem_gaps {r : Requirement} {p : Provision} {g : Gap}
    (hg : g ∈ gaps r p) (o : Options) : kindOutcome o r p ≠ .mismatch := by
  obtain ⟨q, rfl, _⟩ := mem_gaps_cases hg
  cases p with
  | method m => cases hg
  | field f =>
    rw [gaps] at hg
    split at hg
    · next hmissing => simp [kindOutcome, hmissing]
    · cases hg
  | accessors getter setter =>
    rw [kindOutcome]
    split <;> simp

/-- The half of an accessor that is declared as a mere requirement is that accessor. -/
theorem Gap.half_eq {g : Gap} {m : Member} (hs : g.source = m) (hk : m.kind = g.missing)
    (ha : m.isAbstract = true) (hro : m.isReadonly = false) (hb : m.hasBody = false) :
    g.half = m := by
  obtain ⟨_, _, _, _, _, _, _⟩ := m
  cases ha
  cases hro
  cases hb
  rw [half, hs, ← hk]

end Subject

namespace ClassDecl

variable {c : ClassDecl} {o : Options}

/-- What a class declares abstract itself is all that is demanded. -/
theorem demanded_of_mem_ownAbstract {m : Member} {name : String}
    (hm : m ∈ c.ownAbstract name) : (c.groupOf name).demanded = c.ownAbstract name := by
  have hne : ¬(c.ownAbstract name).isEmpty = true := by simpa using List.ne_nil_of_mem hm
  rw [Group.demanded, demand, ownAbstract_groupOf, if_neg hne]

/-- A declaration that an abstract class hands down as it stands: one of its own, or one that is
demanded of it and that nothing implements. -/
def PassesOn (c : ClassDecl) (m : Member) : Prop :=
  m ∈ c.ownAbstract m.name
    ∨ c.ownConcrete m.name = [] ∧ m ∈ Requirement.counted (c.groupOf m.name).demanded

/-- A half of a property that an implementation of the class lacks. -/
structure Lacks (c : ClassDecl) (name : String) (g : Subject.Gap) (r : Requirement)
    (p : Provision) : Prop where
  /-- What is required. -/
  required : (c.groupOf name).requirement? = some r
  /-- What is provided. -/
  provided : Provision.ofMembers? (c.ownConcrete name) = some p
  /-- The half is missing. -/
  missing : g ∈ Subject.gaps r p

/-- Everything left to subclasses is passed on or missing. -/
theorem mem_pending_cases (hc : c.isAbstract = true) {m : Member}
    (h : m ∈ (c.check o).pending) :
    c.PassesOn m ∨ ∃ g r p, c.Lacks m.name g r p ∧ g.half = m := by
  have hm : m ∈ (c.check o).pendingFor m.name := List.mem_filter.mpr ⟨h, beq_self_eq_true _⟩
  rw [pendingFor_check, if_pos hc] at hm
  rcases List.mem_append.mp (mem_of_mem_distinct hm) with hm | hm
  · cases hp : Provision.ofMembers? (c.ownConcrete m.name) with
    | none =>
      have hoc := Provision.ofMembers?_eq_none_iff.mp hp
      rw [Group.deferrals_findings_of_unimplemented (s := .ofClass c o) hc
        ((c.ownConcrete_groupOf m.name).trans hoc)] at hm
      exact .inl (.inr ⟨hoc, hm⟩)
    | some p =>
      have himplemented : Provision.ofMembers? (c.groupOf m.name).ownConcrete = some p := by
        rw [ownConcrete_groupOf, hp]
      rw [Group.deferrals_findings_of_implemented _ himplemented] at hm
      obtain ⟨r, hr, g, hg, hhalf⟩ := Subject.exists_gap_of_mem_deferrals_provision hm
      exact .inr ⟨g, r, p, ⟨hr, hp, hg⟩, hhalf⟩
  · exact .inl (.inl hm)

/-- A missing half is left to the subclasses of an abstract class. -/
theorem Lacks.half_mem_deferrals {name : String} {g : Subject.Gap} {r : Requirement}
    {p : Provision} (h : c.Lacks name g r p) (hc : c.isAbstract = true) :
    g.half ∈ deferrals ((c.groupOf name).findings (.ofClass c o)) := by
  have hk := Subject.kindOutcome_ne_mismatch_of_mem_gaps h.missing (Subject.ofClass c o).options
  have hp : Provision.ofMembers? (c.groupOf name).ownConcrete = some p := by
    rw [ownConcrete_groupOf, h.provided]
  rw [Group.deferrals_findings_of_implemented _ hp, h.required,
    Subject.deferrals_provision (s := .ofClass c o) hc _ hk]
  exact List.mem_map_of_mem h.missing

/-- One half at most is missing under a name. -/
theorem Lacks.unique {name : String} {g g' : Subject.Gap} {r r' : Requirement}
    {p p' : Provision} (h : c.Lacks name g r p) (h' : c.Lacks name g' r' p') : g = g' := by
  obtain rfl : r = r' := Option.some.inj (h.required.symm.trans h'.required)
  obtain rfl : p = p' := Option.some.inj (h.provided.symm.trans h'.provided)
  have hlen : (Subject.gaps r p).length = 1 :=
    Nat.le_antisymm (Subject.length_gaps_le h.provided r) (List.length_pos_of_mem h.missing)
  obtain ⟨x, hx⟩ := List.length_eq_one_iff.mp hlen
  have hg := h.missing
  have hg' := h'.missing
  rw [hx, List.mem_singleton] at hg hg'
  rw [hg, hg']

/-- Every accessor that the class declares abstract, and that its one implementation of the name
leaves open, is declared as a mere requirement: without a body and without a readonly mark. -/
def HalvesBare (c : ClassDecl) : Prop :=
  ∀ m ∈ c.members, m.isAbstract = true → ∀ i, c.ownConcrete m.name = [i] → i.LeavesOpen m.kind →
    m.isReadonly = false ∧ m.hasBody = false

section Collisionless

variable (hcoll : ∀ name, Collisionless (c.ownAbstract name) ∧ Collisionless (c.ownConcrete name))

include hcoll

/-- A declaration that is passed on is the first of its kind. -/
theorem PassesOn.firstOfKind_eq {m : Member} (h : c.PassesOn m) :
    firstOfKind m.kind (c.groupOf m.name).demanded = some m := by
  rcases h with h | ⟨_, h⟩
  · rw [demanded_of_mem_ownAbstract h]
    exact (hcoll m.name).1.firstOfKind_eq_some_iff.mpr ⟨h, rfl⟩
  · exact Requirement.firstOfKind_of_mem_counted h

/-- A missing half of the kind of a declaration that is passed on is that declaration, if it is a
mere requirement. -/
theorem PassesOn.half_eq {m : Member} (h : c.PassesOn m) (hbare : c.HalvesBare)
    {g : Subject.Gap} {r : Requirement} {p : Provision} (hlacks : c.Lacks m.name g r p)
    (hk : m.kind = g.missing) : g.half = m := by
  rcases h with hm | ⟨hnil, _⟩
  · have hr : Requirement.ofMembers? (c.ownAbstract m.name) = some r := by
      rw [← demanded_of_mem_ownAbstract hm]
      exact hlacks.required
    have hsource := Subject.source_eq_of_mem_gaps (hcoll m.name).1 hr hlacks.missing hm hk
    obtain ⟨i, hi, hopen⟩ :=
      Subject.exists_leavesOpen_of_mem_gaps (hcoll m.name).2 hlacks.provided hlacks.missing
    have habs := isAbstract_of_mem_ownAbstract hm
    obtain ⟨hro, hbody⟩ := hbare m (List.mem_filter.mp hm).1 habs i hi (hk ▸ hopen)
    exact Subject.Gap.half_eq hsource hk habs hro hbody
  · exact absurd hnil (Provision.ne_nil_of_ofMembers? hlacks.provided)

/-- Under one name no kind is left to subclasses twice. -/
theorem HalvesBare.eq_of_mem_pending (hbare : c.HalvesBare) (hc : c.isAbstract = true)
    {a b : Member} (ha : a ∈ (c.check o).pending) (hb : b ∈ (c.check o).pending)
    (hname : a.name = b.name) (hkind : a.kind = b.kind) : a = b := by
  rcases mem_pending_cases hc ha with ha | ⟨g, r, p, hg, rfl⟩
  · rcases mem_pending_cases hc hb with hb | ⟨g, r, p, hg, rfl⟩
    · have hfirst := ha.firstOfKind_eq hcoll
      rw [hname, hkind, hb.firstOfKind_eq hcoll] at hfirst
      exact (Option.some.inj hfirst).symm
    · exact (ha.half_eq hcoll hbare (hname ▸ hg) hkind).symm
  · rcases mem_pending_cases hc hb with hb | ⟨g', r', p', hg', rfl⟩
    · exact hb.half_eq hcoll hbare (hname ▸ hg) hkind.symm
    · rw [hg.unique (hname ▸ hg')]

/-- An accessor of the class that its one implementation leaves open is missing. -/
theorem exists_lacks_of_leavesOpen {m i : Member} (hm : m ∈ c.ownAbstract m.name)
    (hi : c.ownConcrete m.name = [i]) (hopen : i.LeavesOpen m.kind) :
    ∃ g r p, c.Lacks m.name g r p ∧ g.source = m ∧ g.missing = m.kind := by
  have hoa := (hcoll m.name).1
  obtain ⟨r, p, hr, hp, g, hg, hk⟩ := Subject.exists_gap_of_leavesOpen hoa hm hopen
  have hrequired : (c.groupOf m.name).requirement? = some r := by
    rw [← demanded_of_mem_ownAbstract hm] at hr
    exact hr
  rw [← hi] at hp
  exact ⟨g, r, p, ⟨hrequired, hp, hg⟩, Subject.source_eq_of_mem_gaps hoa hr hg hm hk.symm, hk⟩

/-- Where nothing is left to subclasses twice, a half that is left open beside its own declaration
has the marks of that declaration. -/
theorem halvesBare_of_nodup (hc : c.isAbstract = true)
    (h : ((c.check o).pending.map fun m => (m.name, m.kind)).Nodup) : c.HalvesBare := by
  intro m hm habs i hi hopen
  have hown : m ∈ c.ownAbstract m.name := List.mem_filter.mpr ⟨hm, by simp [habs]⟩
  obtain ⟨g, r, p, hlacks, hsource, hk⟩ := exists_lacks_of_leavesOpen hcoll hown hi hopen
  have hkeys : ∀ a b : Member, a == b → (a.name, a.kind) = (b.name, b.kind) := fun a b he => by
    obtain ⟨hname, hkind, _⟩ := Member.fields_eq_of_beq he
    rw [hname, hkind]
  have hmarks : ∀ a b : Member, a == b → (a.isReadonly, a.hasBody) = (b.isReadonly, b.hasBody) :=
    fun a b he => by
      obtain ⟨_, _, _, hro, hbody⟩ := Member.fields_eq_of_beq he
      rw [hro, hbody]
  have hfor : (((c.check o).pendingFor m.name).map fun m => (m.name, m.kind)).Nodup :=
    h.sublist (List.filter_sublist.map _)
  rw [pendingFor_check, if_pos hc] at hfor
  have hname : g.source.name = m.name := congrArg Member.name hsource
  have hsame : (g.half.name, g.half.kind) = (m.name, m.kind) := Prod.ext hname hk
  have hequal := eq_of_nodup_map_distinct hkeys hmarks hfor
    (List.mem_append_left _ (hlacks.half_mem_deferrals hc)) (List.mem_append_right _ hown) hsame
  obtain ⟨hro, hbody⟩ := Prod.mk.inj hequal
  exact ⟨hro.symm, hbody.symm⟩

end Collisionless

/-- Under one name an abstract class that reports no duplicates leaves no kind to its subclasses
twice, exactly where the accessors that it leaves open beside an own implementation are mere
requirements. -/
theorem nodup_pending_iff (hc : c.isAbstract = true) (hd : Code.duplicate ∉ (c.check o).codes) :
    ((c.check o).pending.map fun m => (m.name, m.kind)).Nodup ↔ c.HalvesBare := by
  have hcoll : ∀ name, Collisionless (c.ownAbstract name) ∧ Collisionless (c.ownConcrete name) :=
    fun name => collisionless_of_no_duplicate (o := o) fun v hv hcode =>
      hd (List.mem_map.mpr ⟨v, (List.mem_filter.mp hv).1, hcode⟩)
  constructor
  · exact halvesBare_of_nodup hcoll hc
  · intro hbare
    refine (nodup_distinct _).map_on fun a ha b hb hkey => ?_
    obtain ⟨hname, hkind⟩ := Prod.mk.inj hkey
    exact hbare.eq_of_mem_pending hcoll hc ha hb hname hkind

/-- An abstract class that implements the getter of a property and requires the setter of its
subclasses. -/
def dimmer : ClassDecl :=
  ⟨"Dimmer", true,
    [.asAbstract (.concrete .setAccessor "Dimmer" "level" (.keyword .number)),
      .concrete .getAccessor "Dimmer" "level" (.keyword .number)], []⟩

/-- The dimmer hands its level down once of each kind. -/
theorem dimmer_level_once :
    dimmer.isAbstract = true ∧ Code.duplicate ∉ (dimmer.check .initial).codes
      ∧ ((dimmer.check .initial).pending.map fun m => (m.name, m.kind)).Nodup := by
  have hd : Code.duplicate ∉ (dimmer.check .initial).codes := by decide
  refine ⟨rfl, hd, (nodup_pending_iff rfl hd).mpr fun m hm habs i _ _ => ?_⟩
  rcases List.mem_pair.mp hm with rfl | rfl
  · exact ⟨rfl, rfl⟩
  · cases habs

/-- The same class with a body on the setter that it requires, as a declaration has that does not say
otherwise. -/
def dimmerWithBody : ClassDecl :=
  { dimmer with members := dimmer.members.map fun m => { m with hasBody := true } }

/-- With a body on its abstract setter, the dimmer hands the setter down twice. -/
theorem dimmer_level_twice :
    dimmerWithBody.isAbstract = true ∧ Code.duplicate ∉ (dimmerWithBody.check .initial).codes
      ∧ ¬((dimmerWithBody.check .initial).pending.map fun m => (m.name, m.kind)).Nodup := by
  decide

end ClassDecl

end ClassContract
