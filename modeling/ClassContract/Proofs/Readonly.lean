import ClassContract.Proofs.Contract
import ClassContract.Proofs.Obligation
import ClassContract.Proofs.Pending

/-!
# Read-only names along a chain

A class hands on a name for reading only when everything it hands on under it is a getter or a
readonly field. Such a name has two carriers. Abstract declarations are left open again by every
class that does not declare the name, as a demand of reading only; concrete ones are heard by all
classes below as long as none in between hands on anything under the name. `ReadOnlyAfter` holds of
both and is kept from class to class (`readOnlyAfter_concat`), so that the next class that declares
the name and makes it assignable is reported: `readonly_of_chain`.
-/

namespace ClassContract

open Finding

/-- A member through which a value can be read and not assigned: a getter or a readonly field. -/
def Member.OnlyReads (m : Member) : Prop :=
  m.kind = .getAccessor ∨ m.kind = .field ∧ m.isReadonly = true

instance (m : Member) : Decidable m.OnlyReads := inferInstanceAs (Decidable (_ ∨ _))

namespace Member.OnlyReads

variable {m : Member} {ms : List Member}

/-- What can only be read is no method. -/
theorem kind_ne_method (h : m.OnlyReads) : m.kind ≠ .method := by
  rcases h with h | ⟨h, _⟩ <;> simp [h]

/-- What can only be read is no setter. -/
theorem kind_ne_setAccessor (h : m.OnlyReads) : m.kind ≠ .setAccessor := by
  rcases h with h | ⟨h, _⟩ <;> simp [h]

/-- Among declarations that only allow reading each forbids assignment. -/
theorem forbidsWritingAmong (h : m.OnlyReads) (hms : ∀ n ∈ ms, n.OnlyReads) :
    m.forbidsWritingAmong ms = true := by
  have hset : ms.any (·.kind == .setAccessor) = false := by
    rw [List.any_eq_false]
    intro n hn
    simpa using (hms n hn).kind_ne_setAccessor
  rcases h with h | ⟨h, hr⟩
  · simp [Member.forbidsWritingAmong, h, hset]
  · simp [Member.forbidsWritingAmong, h, hr]

end Member.OnlyReads

/-- Declarations that only allow reading demand a property for reading only. -/
theorem Requirement.isReadOnly_of_onlyReads {ms : List Member} {r : Requirement}
    (h : ofMembers? ms = some r) (hms : ∀ m ∈ ms, m.OnlyReads) : r.isReadOnly = true := by
  cases ms with
  | nil => cases h
  | cons first rest =>
    have hfirst := hms first List.mem_cons_self
    rw [ofMembers?_cons, if_neg hfirst.kind_ne_method] at h
    cases h
    have hread : Demand.Reads (first :: rest) := by
      rcases hfirst with hk | ⟨hk, _⟩
      · exact ⟨first, List.mem_cons_self, .inr hk⟩
      · exact ⟨first, List.mem_cons_self, .inl hk⟩
    have hwrite : ¬ Demand.Writes (first :: rest) := by
      rintro (⟨f, hf, hr⟩ | ⟨m, hm, hk⟩)
      · rcases hms f (mem_of_firstOfKind hf) with hk | ⟨_, hr'⟩
        · rw [kind_of_firstOfKind hf] at hk
          cases hk
        · rw [hr] at hr'
          cases hr'
      · exact (hms m hm).kind_ne_setAccessor hk
    rw [isReadOnly, (Demand.requiresRead_iff first _).mpr hread, Bool.true_and, Bool.not_eq_true',
      Bool.eq_false_iff]
    exact fun hw => hwrite ((Demand.requiresWrite_iff first _).mp hw)

namespace Subject

variable {o : Options} {r : Requirement} {p : Provision} {w : Member}

/-- Something that can be assigned is of the kind that a demand of reading only asks for, but a setter
alone lacks the getter. -/
theorem kindOutcome_of_isReadOnly (hr : r.isReadOnly = true) (hw : p.writer = some w) :
    kindOutcome o r p = if p.kind = .setAccessor then .readHalfMissing else .compatible := by
  cases r with
  | method m => cases hr
  | property q =>
    obtain ⟨hread, hwrite⟩ : q.requiresRead = true ∧ q.requiresWrite = false := by
      simpa [Requirement.isReadOnly] using hr
    cases p with
    | method m => cases hw
    | field f => simp [kindOutcome, Provision.kind, hread, hwrite]
    | accessors getter setter => cases getter <;> simp [kindOutcome, Provision.kind, hread]

/-- Where only reading is required, what can be written to lacks a half just if it is a setter
alone. -/
theorem length_gaps_of_isReadOnly (hr : r.isReadOnly = true) (hw : p.writer = some w) :
    (gaps r p).length = if p.kind = .setAccessor then 1 else 0 := by
  cases r with
  | method m => cases hr
  | property q =>
    obtain ⟨hread, hwrite⟩ : q.requiresRead = true ∧ q.requiresWrite = false := by
      simpa [Requirement.isReadOnly] using hr
    obtain ⟨m, hm⟩ := Option.isSome_iff_exists.mp (q.isSome_readSource.trans hread)
    cases p with
    | method m => cases hw
    | field f => simp [gaps, Provision.kind, hwrite]
    | accessors getter setter => cases getter <;> simp [gaps, Provision.kind, hread, hwrite, hm]

/-- Assignment is reported once where it is forbidden and possible. -/
theorem length_readonly {c : Option Requirement} {constraint : Option Member} {source : Member}
    (hsource : readOnlySource c constraint = some source) (hw : p.writer = some w) (s : Subject)
    (name : String) :
    (selected (· == .readonlyViolation) (s.readonly name c constraint p)).length = 1 := by
  rw [readonly, hsource, hw]
  rfl

/-- All gaps are reported under one code. -/
theorem selected_gaps (s : Subject) (name : String) (gs : List Gap) (q : Code → Bool) :
    selected q (gs.flatMap fun g => s.missingHalf name g.source g.missing g.present) =
      if !s.isAbstract && q .unimplemented then gs.map (Gap.violation s name) else [] := by
  have hcode : ∀ v ∈ gs.map (Gap.violation s name), v.code = .unimplemented := by
    intro v hv
    obtain ⟨g, _, rfl⟩ := List.mem_map.mp hv
    rfl
  rw [selected, violations_gaps]
  cases s.isAbstract with
  | true => rfl
  | false =>
    rw [if_neg Bool.false_ne_true, Bool.not_false, Bool.true_and]
    split
    · next hu => exact List.filter_eq_self.mpr fun v hv => (congrArg q (hcode v hv)).trans hu
    · next hu => exact List.filter_eq_nil_iff.mpr fun v hv => hcode v hv ▸ hu

/-- Whether assignment is looked at: not after a concrete class has reported a missing getter. -/
def looksAtAssignment (s : Subject) (r : Requirement) (p : Provision) : Bool :=
  s.isAbstract || kindOutcome s.options r p != .readHalfMissing

/-- What the rules for an implementation of the required kind report apart from types: missing
halves, and then assignment. -/
theorem selected_provision (s : Subject) (name : String) (constraint : Option Member)
    (hk : kindOutcome s.options r p ≠ .mismatch) {q : Code → Bool} (hq : q .typeMismatch = false) :
    selected q (s.provision name (some r) constraint p) =
      (if !s.isAbstract && q .unimplemented then (gaps r p).map (Gap.violation s name) else [])
        ++ if s.looksAtAssignment r p then selected q (s.readonly name (some r) constraint p)
          else [] := by
  have htypes : selected q (s.types name r p) = [] :=
    (s.allWithin_types name r p).selected_eq_nil fun c hc => List.mem_singleton.mp hc ▸ hq
  rw [provision_some, kinds_eq, if_neg hk, selected_append, selected_gaps, afterKinds,
    looksAtAssignment]
  congr 1
  cases ho : kindOutcome s.options r p with
  | mismatch => exact absurd ho hk
  | compatible => simp [htypes]
  | readHalfMissing => cases s.isAbstract <;> simp [htypes]

/-- Something that can be assigned against a demand of reading only: assignment is reported once,
unless a concrete class has a setter alone, which reports the missing getter once in its place. -/
theorem selected_provision_of_isReadOnly (hr : r.isReadOnly = true) (hw : p.writer = some w)
    (s : Subject) (name : String) (constraint : Option Member) :
    (p.kind = .setAccessor ∧ s.isAbstract = false →
      selected (· == .readonlyViolation) (s.provision name (some r) constraint p) = [] ∧
      (selected (· == .unimplemented) (s.provision name (some r) constraint p)).length = 1) ∧
    (¬ (p.kind = .setAccessor ∧ s.isAbstract = false) →
      (selected (· == .readonlyViolation) (s.provision name (some r) constraint p)).length = 1) := by
  have hsource : readOnlySource (some r) constraint = some r.primary := by
    simp [readOnlySource, Option.filter, hr]
  have hone := length_readonly hsource hw s name
  have hout := kindOutcome_of_isReadOnly (o := s.options) hr hw
  have hk : kindOutcome s.options r p ≠ .mismatch := by
    rw [hout]
    split <;> decide
  have hforbidden := s.selected_provision name constraint hk (q := (· == .readonlyViolation)) rfl
  have hmissing := s.selected_provision name constraint hk (q := (· == .unimplemented)) rfl
  constructor
  · rintro ⟨hset, hs⟩
    have hgap : (gaps r p).length = 1 := by rw [length_gaps_of_isReadOnly hr hw, if_pos hset]
    have hlook : s.looksAtAssignment r p = false := by simp [looksAtAssignment, hs, hout, hset]
    rw [hforbidden, hmissing, hlook, hs]
    exact ⟨rfl, by simpa using hgap⟩
  · intro hnot
    have hlook : s.looksAtAssignment r p = true := by
      rw [looksAtAssignment, hout]
      by_cases hset : p.kind = .setAccessor
      · have hs : s.isAbstract = true := by simpa [hset] using hnot
        rw [hs, Bool.true_or]
      · rw [if_neg hset]
        exact Bool.or_true _
    rw [hforbidden, hlook]
    simpa using hone

end Subject

namespace Group

/-- A class implements a name so that it can be assigned, where its ancestors pass on something that
forbids assignment and demand nothing but reading. -/
theorem selected_findings_of_onlyReads {g : Group} {p : Provision} {w : Member}
    (hp : Provision.ofMembers? g.ownConcrete = some p) (hw : p.writer = some w)
    (hoa : g.ownAbstract = []) (hread : ∀ m ∈ g.inheritedAbstract, m.OnlyReads)
    (hne : g.inheritedAbstract ≠ [] ∨ g.inheritedConstraints ≠ []) (s : Subject) :
    (s.isAbstract = false ∧ p.kind = .setAccessor ∧ g.inheritedAbstract ≠ [] →
      selected (· == .readonlyViolation) (g.findings s) = [] ∧
      (selected (· == .unimplemented) (g.findings s)).length = 1) ∧
    (¬ (s.isAbstract = false ∧ p.kind = .setAccessor ∧ g.inheritedAbstract ≠ []) →
      (selected (· == .readonlyViolation) (g.findings s)).length = 1) := by
  have hreq : g.requirement? = Requirement.ofMembers? g.inheritedAbstract := by
    rw [requirement?, hoa]
    rfl
  rw [selected_findings_of_implemented s hp (q := (· == .readonlyViolation)) (by decide),
    selected_findings_of_implemented s hp (q := (· == .unimplemented)) (by decide), hreq]
  cases hr : Requirement.ofMembers? g.inheritedAbstract with
  | some r =>
    have hia : g.inheritedAbstract ≠ [] := fun h => by
      simp [Requirement.ofMembers?_eq_none_iff.mpr h] at hr
    have h := Subject.selected_provision_of_isReadOnly
      (Requirement.isReadOnly_of_onlyReads hr hread) hw s g.name g.inheritedConstraints.head?
    exact ⟨fun ⟨hs, hk, _⟩ => h.1 ⟨hk, hs⟩, fun hnot => h.2 fun ⟨hk, hs⟩ => hnot ⟨hs, hk, hia⟩⟩
  | none =>
    have hia : g.inheritedAbstract = [] := Requirement.ofMembers?_eq_none_iff.mp hr
    obtain ⟨source, rest, hsource⟩ := List.exists_cons_of_ne_nil (hne.resolve_left (absurd hia))
    refine ⟨fun ⟨_, _, h⟩ => absurd hia h, fun _ => ?_⟩
    rw [hsource]
    exact Subject.length_readonly (c := none) rfl hw s g.name

end Group

/-- A class after the given ones hears of a name, and only of declarations that allow reading. -/
structure ReadOnlyAfter (ks : List Checked) (name : String) : Prop where
  /-- It hears of the name. -/
  ne_nil : heardAfter ks name ≠ []
  /-- All it hears allows reading only. -/
  onlyReads : ∀ m ∈ heardAfter ks name, m.OnlyReads

section Step

open ClassDecl

variable {ks : List Checked} {c : ClassDecl} {o : Options} {name : String}

/-- What is heard after a class that hands on anything under a name. -/
theorem heardAfter_concat_of_ne_nil
    (h : ((c.resolve ks).check o).pendingFor name ++ c.ownConcrete name ≠ []) :
    heardAfter (ks ++ [c.checkAfter ks o]) name =
      addAllNew (((c.resolve ks).check o).pendingFor name) (c.ownConcrete name) := by
  rw [heardAfter_concat, filter_handedOn, if_neg]
  rwa [addAllNew_eq_nil_iff, ← List.append_eq_nil_iff]

/-- A name is read-only after a class if what the class hands on can only be read. -/
theorem readOnlyAfter_concat_of_handedOn
    (hne : ((c.resolve ks).check o).pendingFor name ++ c.ownConcrete name ≠ [])
    (hread : ∀ m ∈ ((c.resolve ks).check o).pendingFor name ++ c.ownConcrete name, m.OnlyReads) :
    ReadOnlyAfter (ks ++ [c.checkAfter ks o]) name := by
  have heq := heardAfter_concat_of_ne_nil hne
  refine ⟨?_, fun m hm => ?_⟩
  · rwa [heq, ne_eq, addAllNew_eq_nil_iff, ← List.append_eq_nil_iff]
  · rw [heq] at hm
    exact hread m (List.mem_append.mpr (mem_or_mem_of_mem_addAllNew hm))

/-- Something is owed after a class that hands on anything under a name when it hands on an abstract
declaration. -/
theorem owed_concat_iff_of_handedOn
    (hne : ((c.resolve ks).check o).pendingFor name ++ c.ownConcrete name ≠ []) :
    Owed (ks ++ [c.checkAfter ks o]) name ↔
      ∃ m ∈ ((c.resolve ks).check o).pendingFor name ++ c.ownConcrete name, m.isAbstract = true := by
  rw [Owed, heardAfter_concat_of_ne_nil hne]
  constructor
  · rintro ⟨m, hm, ha⟩
    exact ⟨m, List.mem_append.mpr (mem_or_mem_of_mem_addAllNew hm), ha⟩
  · rintro ⟨m, hm, ha⟩
    rcases List.mem_append.mp hm with hm | hm
    · exact ⟨m, mem_addAllNew_of_mem hm _, ha⟩
    · exact absurd ((isAbstract_of_mem_ownConcrete hm).symm.trans ha) Bool.false_ne_true

/-- A class that does not declare a read-only name keeps it so: it leaves open some of what it hears,
or else hands on nothing under the name and is passed over. -/
theorem readOnlyAfter_concat (h : Lineage ks) (hc : c.isAbstract = true)
    (he : c.Extends (ks.map (·.declared))) (hoa : c.ownAbstract name = [])
    (hoc : c.ownConcrete name = []) (hr : ReadOnlyAfter ks name) (o : Options) :
    ReadOnlyAfter (ks ++ [c.checkAfter ks o]) name := by
  have hpend : ((c.resolve ks).check o).pendingFor name =
      Requirement.counted ((heardAfter ks name).filter (·.isAbstract)) := by
    rw [← heard_resolve h he]
    exact pendingFor_of_undeclared (c := c.resolve ks) hc hoa hoc o
  have hhand : (c.checkAfter ks o).handedOn.filter (·.name == name) =
      Requirement.counted ((heardAfter ks name).filter (·.isAbstract)) := by
    rw [filter_handedOn, hoc, hpend]
    rfl
  have heq := heardAfter_concat ks (c.checkAfter ks o) name
  rw [hhand] at heq
  by_cases hnil : Requirement.counted ((heardAfter ks name).filter (·.isAbstract)) = []
  · rw [if_pos hnil] at heq
    exact ⟨heq ▸ hr.ne_nil, heq ▸ hr.onlyReads⟩
  · rw [if_neg hnil] at heq
    refine ⟨heq ▸ hnil, fun m hm => ?_⟩
    rw [heq] at hm
    exact hr.onlyReads m (List.mem_filter.mp (Requirement.mem_of_mem_counted hm)).1

end Step

namespace ClassDecl

/-- The declarations of a class make a name assignable. -/
structure MakesAssignable (c : ClassDecl) (name : String) : Prop where
  /-- The class declares the name only concretely. -/
  noAbstract : c.ownAbstract name = []
  /-- Its declarations may stand side by side. -/
  collisionless : Collisionless (c.ownConcrete name)
  /-- One of them is a setter or a field that is not readonly. -/
  assigns : ∃ m ∈ c.ownConcrete name, m.Assigns

/-- A class that makes a name assignable provides it with something to write to. -/
theorem MakesAssignable.exists_provision {c : ClassDecl} {name : String}
    (h : c.MakesAssignable name) :
    ∃ p w, Provision.ofMembers? (c.ownConcrete name) = some p ∧ p.writer = some w ∧
      (p.kind = .setAccessor ↔ ∀ m ∈ c.ownConcrete name, m.kind = .setAccessor) := by
  obtain ⟨_, hcoll, m, hm, hassigns⟩ := h
  cases hc : c.ownConcrete name with
  | nil => simp [hc] at hm
  | cons first rest =>
    rw [hc] at hcoll hm
    obtain ⟨p, hp⟩ := Provision.exists_ofMembers? (List.cons_ne_nil first rest)
    have hw : p.writer ≠ none := fun hw => (writer_eq_none_iff hcoll hp).mp hw m hm hassigns
    obtain ⟨w, hw⟩ := Option.ne_none_iff_exists'.mp hw
    refine ⟨p, w, hp, hw, ?_⟩
    rcases provision_cases hcoll hp with ⟨hk, rfl, rfl⟩ | ⟨hk, rfl, rfl⟩ | ⟨hk, rfl⟩
    · simp [Provision.kind, hk]
    · simp [Provision.kind, hk]
    · have hkinds := hcoll.isAccessor_of_mem List.mem_cons_self hk
      cases hg : firstOfKind .getAccessor (first :: rest) with
      | none =>
        refine iff_of_true rfl fun n hn => ?_
        have hne : n.kind ≠ .getAccessor := fun hk => by
          rw [hcoll.firstOfKind_eq_some_iff.mpr ⟨hn, hk⟩] at hg
          cases hg
        exact MemberKind.eq_setAccessor_of_isAccessor (hkinds n hn) hne
      | some g =>
        refine iff_of_false (by simp [Provision.kind]) fun hall => ?_
        have hset := hall g (mem_of_firstOfKind hg)
        rw [kind_of_firstOfKind hg] at hset
        cases hset

/-- A class at the end of a chain makes a name assignable that only reading is handed on for. -/
theorem violationsFor_of_readOnlyAfter {ks : List Checked} (h : Lineage ks) {c : ClassDecl}
    (he : c.Extends (ks.map (·.declared))) {name : String} (hr : ReadOnlyAfter ks name)
    (hc : c.MakesAssignable name) (o : Options) :
    let report := (c.resolve ks).check o
    let excused := c.isAbstract = false ∧ (∀ m ∈ c.ownConcrete name, m.kind = .setAccessor) ∧
      Owed ks name
    (excused → (report.violationsFor name).filter (·.code == .readonlyViolation) = [] ∧
      ((report.violationsFor name).filter (·.code == .unimplemented)).length = 1) ∧
    (¬ excused → ((report.violationsFor name).filter (·.code == .readonlyViolation)).length = 1) := by
  intro report excused
  obtain ⟨p, w, hp, hw, hkind⟩ := hc.exists_provision
  have hia : ((c.resolve ks).groupOf name).inheritedAbstract =
      (heardAfter ks name).filter (·.isAbstract) := by
    rw [inheritedAbstract_groupOf, heard_resolve h he]
  have hic : ((c.resolve ks).groupOf name).inheritedConstraints =
      (heardAfter ks name).filter fun m =>
        !m.isAbstract && m.forbidsWritingAmong (heardAfter ks name) := by
    rw [inheritedConstraints_groupOf, heard_resolve h he]
  have howed : ((c.resolve ks).groupOf name).inheritedAbstract ≠ [] ↔ Owed ks name := by
    simp [hia, Owed]
  have hsome : ((c.resolve ks).groupOf name).inheritedAbstract ≠ [] ∨
      ((c.resolve ks).groupOf name).inheritedConstraints ≠ [] := by
    obtain ⟨m, hm⟩ := List.exists_mem_of_ne_nil _ hr.ne_nil
    cases ha : m.isAbstract with
    | true => exact .inl (hia ▸ List.ne_nil_of_mem (List.mem_filter.mpr ⟨hm, ha⟩))
    | false =>
      refine .inr (hic ▸ List.ne_nil_of_mem (List.mem_filter.mpr ⟨hm, ?_⟩))
      rw [ha, (hr.onlyReads m hm).forbidsWritingAmong hr.onlyReads]
      rfl
  have hfind := Group.selected_findings_of_onlyReads (g := (c.resolve ks).groupOf name)
    (((c.resolve ks).ownConcrete_groupOf name).symm ▸ hp) hw
    (((c.resolve ks).ownAbstract_groupOf name).trans hc.noAbstract)
    (fun m hm => hr.onlyReads m (List.mem_filter.mp (hia ▸ hm)).1) hsome (.ofClass (c.resolve ks) o)
  rw [howed, hkind] at hfind
  simp only [report, violationsFor_check]
  exact hfind

end ClassDecl

/-- After a class that hands on a name for reading only, classes that do not declare the name keep it
so, and something is owed under it as long as an abstract declaration was handed on. -/
theorem IsChain.readOnlyAfter_of_handedOn {before between : List ClassDecl} {c : ClassDecl}
    (h : IsChain (before ++ c :: between)) (ha : ∀ e ∈ before ++ c :: between, e.isAbstract = true)
    {o : Options} {name : String} {r : Report}
    (hr : r = (c.resolve (checkOnwards o [] before)).check o)
    (hne : r.pendingFor name ++ c.ownConcrete name ≠ [])
    (hread : ∀ m ∈ r.pendingFor name ++ c.ownConcrete name, m.OnlyReads)
    (hbetween : ∀ e ∈ between, ∀ m ∈ e.members, m.name ≠ name) :
    ReadOnlyAfter (checkOnwards o [] (before ++ c :: between)) name ∧
      (Owed (checkOnwards o [] (before ++ c :: between)) name ↔
        ∃ m ∈ r.pendingFor name ++ c.ownConcrete name, m.isAbstract = true) := by
  subst hr
  refine h.invariant_from ha (P := fun ks => ReadOnlyAfter ks name ∧ (Owed ks name ↔ _))
    ⟨readOnlyAfter_concat_of_handedOn hne hread, owed_concat_iff_of_handedOn hne⟩ ?_
  rintro ks d hmem hl hd ⟨hro, howed⟩
  obtain ⟨hoa, hoc⟩ := ClassDecl.own_eq_nil (hbetween d hmem)
  have hda := ha d (List.mem_append_right _ (List.mem_cons_of_mem c hmem))
  refine ⟨readOnlyAfter_concat hl hda hd hoa hoc hro o, ?_⟩
  rw [owed_concat_iff hl hda hd hoc o, hoa, ← howed]
  simp

/-- Let a class of a chain hand on a name, and only by getters and readonly fields, and let the next
class that declares the name make it assignable. Then that class is reported once for a forbidden
assignment. Only where it is concrete, has a setter alone and inherits an abstract declaration, it is
reported once as lacking the getter in place of that. -/
theorem readonly_of_chain {before between after : List ClassDecl} {c d : ClassDecl}
    (h : IsChain (before ++ c :: between ++ d :: after))
    (ha : ∀ e ∈ (before ++ c :: between ++ d :: after).dropLast, e.isAbstract = true)
    (o : Options) (name : String) {r : Report}
    (hr : (checkHierarchy (before ++ c :: between ++ d :: after) o)[before.length]? = some r)
    (hne : r.pendingFor name ++ c.ownConcrete name ≠ [])
    (hread : ∀ m ∈ r.pendingFor name ++ c.ownConcrete name, m.OnlyReads)
    (hbetween : ∀ e ∈ between, ∀ m ∈ e.members, m.name ≠ name) (hd : d.MakesAssignable name) :
    ∃ report,
      (checkHierarchy (before ++ c :: between ++ d :: after) o)[(before ++ c :: between).length]? =
        some report ∧
      let excused := d.isAbstract = false ∧ (∀ m ∈ d.ownConcrete name, m.kind = .setAccessor) ∧
        ∃ m ∈ r.pendingFor name ++ c.ownConcrete name, m.isAbstract = true
      (excused → (report.violationsFor name).filter (·.code == .readonlyViolation) = [] ∧
        ((report.violationsFor name).filter (·.code == .unimplemented)).length = 1) ∧
      (¬ excused →
        ((report.violationsFor name).filter (·.code == .readonlyViolation)).length = 1) := by
  have habove : ∀ e ∈ before ++ c :: between, e.isAbstract = true := fun e he => by
    refine ha e ?_
    rw [List.dropLast_append_of_ne_nil (List.cons_ne_nil d after)]
    exact List.mem_append_left _ he
  obtain ⟨hchain, hextends, _⟩ := isChainAfter_append.mp h
  have hr : r = (c.resolve (checkOnwards o [] before)).check o := by
    rw [List.append_assoc, List.cons_append, getElem?_checkHierarchy] at hr
    exact (Option.some.inj hr).symm
  obtain ⟨hro, howed⟩ := IsChain.readOnlyAfter_of_handedOn hchain habove hr hne hread hbetween
  have he : d.Extends ((checkOnwards o [] (before ++ c :: between)).map (·.declared)) := by
    rw [declared_checkOnwards]
    exact hextends
  refine ⟨_, getElem?_checkHierarchy (before ++ c :: between) d after o, ?_⟩
  rw [← howed]
  exact ClassDecl.violationsFor_of_readOnlyAfter (IsChain.lineage hchain habove o) he hro hd o

/-- A class with an abstract member that is readonly. -/
def figure : ClassDecl :=
  ⟨"Figure", true,
    [(Member.concrete .field "Figure" "area" (.keyword .number)).asAbstract.asReadonly], []⟩

/-- An abstract class in between, without members. -/
def rounded : ClassDecl := ⟨"Rounded", true, [], [.ofClass "Figure" []]⟩

/-- A concrete class that declares the member as one of the given kind. -/
def disc (kind : MemberKind) : ClassDecl :=
  ⟨"Disc", false, [.concrete kind "Disc" "area" (.keyword .number)],
    [.ofClass "Rounded" [], .ofClass "Figure" []]⟩

/-- A disc with a field for the area may be assigned to, and one with a setter alone cannot be read.
-/
theorem disc_area_readonly :
    (IsChain [figure, rounded, disc .field] ∧
      ∃ report, (checkHierarchy [figure, rounded, disc .field] .initial)[2]? = some report ∧
        ((report.violationsFor "area").filter (·.code == .readonlyViolation)).length = 1) ∧
    IsChain [figure, rounded, disc .setAccessor] ∧
      ∃ report, (checkHierarchy [figure, rounded, disc .setAccessor] .initial)[2]? = some report ∧
        ((report.violationsFor "area").filter (·.code == .unimplemented)).length = 1 := by
  have hfield : IsChain ([] ++ figure :: [rounded] ++ disc .field :: []) := by decide
  have hset : IsChain ([] ++ figure :: [rounded] ++ disc .setAccessor :: []) := by decide
  obtain ⟨report, hreport, _, hforbidden⟩ := readonly_of_chain hfield (by decide) .initial "area" rfl
    (by decide) (by decide) (by decide)
    ⟨rfl, by decide, _, List.mem_singleton_self _, .inr ⟨rfl, rfl⟩⟩
  obtain ⟨report', hreport', hmissing, _⟩ := readonly_of_chain hset (by decide) .initial "area" rfl
    (by decide) (by decide) (by decide) ⟨rfl, by decide, _, List.mem_singleton_self _, .inl rfl⟩
  exact ⟨⟨hfield, report, hreport, hforbidden (by decide)⟩, hset, report', hreport',
    (hmissing (by decide)).2⟩

end ClassContract
