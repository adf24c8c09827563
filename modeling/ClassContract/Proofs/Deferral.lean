import ClassContract.Proofs.PerName
import ClassContract.Proofs.Silence

/-!
# Abstract classes leave to subclasses what concrete classes report

The same declarations are checked as those of a concrete class and as those of an abstract class. The
two checks agree on everything but what the abstract class may leave to its subclasses: unimplemented
members and halves of them are left open in place of being reported, abstract members are not
reported, and a setter that stands alone is still held against a demand of reading only. `Deferred`
relates the findings of the two checks, rule by rule, and `check_asAbstract_deferred` collects what
follows for the two reports.
-/

namespace ClassContract

/-- The report of a setter that stands alone where a getter is required. -/
def Violation.LacksGetter (v : Violation) : Prop :=
  v.code = .unimplemented ∧ v.expected = .kind .getAccessor ∧ v.actual = .kind .setAccessor

namespace Finding

/-- The violations whose codes pass a test. -/
def selected (p : Code → Bool) (fs : List Finding) : List Violation :=
  (violations fs).filter (p ·.code)

/-- Violations are selected from each of two lists. -/
@[simp] theorem selected_append (p : Code → Bool) (fs gs : List Finding) :
    selected p (fs ++ gs) = selected p fs ++ selected p gs := by
  simp [selected]

/-- Nothing is selected if no code passes the test. -/
theorem selected_eq_nil {p : Code → Bool} {fs : List Finding}
    (h : ∀ v ∈ violations fs, p v.code = false) : selected p fs = [] := by
  rw [selected, List.filter_eq_nil_iff]
  intro v hv
  simp [h v hv]

/-- Findings `k` of a concrete class and findings `a` of the same class as an abstract one. -/
structure Deferred (k a : List Finding) : Prop where
  /-- Up to forbidden assignments they differ in what only a concrete class reports. -/
  agree : selected (· != .readonlyViolation) a =
    selected (fun c => !c.concreteOnly && c != .readonlyViolation) k
  /-- The abstract class reports the forbidden assignments of the concrete one. -/
  readonly_sublist : (selected (· == .readonlyViolation) k).Sublist
    (selected (· == .readonlyViolation) a)
  /-- It reports more of them only where a setter lacks its getter. -/
  readonly_eq : selected (· == .readonlyViolation) a = selected (· == .readonlyViolation) k ∨
    ∃ v ∈ violations k, v.LacksGetter
  /-- What the concrete class reports as unimplemented the abstract class leaves open. -/
  unimplemented_iff : (∃ v ∈ violations k, v.code = .unimplemented) ↔ deferrals a ≠ []

namespace Deferred

variable {k k' a a' : List Finding}

/-- Findings that are neither violations nor left to subclasses. -/
theorem silent (hk : violations k = []) (ha : violations a = []) (hd : deferrals a = []) :
    Deferred k a := by
  have hsel : ∀ p, selected p k = [] ∧ selected p a = [] := fun p => by simp [selected, hk, ha]
  refine ⟨?_, ?_, .inl ?_, ?_⟩
  · rw [(hsel _).1, (hsel _).2]
  · rw [(hsel _).1]
    exact List.nil_sublist _
  · rw [(hsel _).1, (hsel _).2]
  · rw [hk, hd]
    simp

/-- No findings correspond to no findings. -/
theorem nil : Deferred [] [] := silent rfl rfl rfl

/-- Rules that correspond to each other may be applied one after the other. -/
theorem append (h : Deferred k a) (h' : Deferred k' a') : Deferred (k ++ k') (a ++ a') where
  agree := by rw [selected_append, selected_append, h.agree, h'.agree]
  readonly_sublist := by
    rw [selected_append, selected_append]
    exact h.readonly_sublist.append h'.readonly_sublist
  readonly_eq := by
    rw [selected_append, selected_append, violations_append]
    rcases h.readonly_eq with he | ⟨v, hv, hg⟩
    · rcases h'.readonly_eq with he' | ⟨v, hv, hg⟩
      · exact .inl (by rw [he, he'])
      · exact .inr ⟨v, List.mem_append_right _ hv, hg⟩
    · exact .inr ⟨v, List.mem_append_left _ hv, hg⟩
  unimplemented_iff := by
    have hor : (∃ v ∈ violations (k ++ k'), v.code = .unimplemented) ↔
        (∃ v ∈ violations k, v.code = .unimplemented) ∨
          ∃ v ∈ violations k', v.code = .unimplemented := by
      simp only [violations_append, List.mem_append, or_and_right, exists_or]
    rw [hor, h.unimplemented_iff, h'.unimplemented_iff, deferrals_append, ne_eq, ne_eq, ne_eq,
      List.append_eq_nil_iff, Decidable.not_and_iff_or_not]

/-- A rule that does not concern concrete classes only and finds the same in both checks. -/
theorem same {s : Subject} {name : String} {codes : List Code} {fs : List Finding}
    (h : AllWithin s name codes fs) (hc : ∀ c ∈ codes, c.concreteOnly = false) :
    Deferred fs fs where
  agree := by
    refine List.filter_congr fun v hv => ?_
    dsimp only
    rw [hc _ (h.violation hv).2.1, Bool.not_false, Bool.true_and]
  readonly_sublist := List.Sublist.refl _
  readonly_eq := .inl rfl
  unimplemented_iff := by
    have hu : .unimplemented ∉ codes := fun hu => nomatch hc _ hu
    rw [h.deferrals_eq_nil hu]
    constructor
    · rintro ⟨v, hv, he⟩
      exact absurd (he ▸ (h.violation hv).2.1) hu
    · exact fun hn => absurd rfl hn

/-- Reports of a concrete class that the abstract class does not make, where either both checks find
something unimplemented or none does. -/
theorem of_concreteOnly (hk : ∀ v ∈ violations k, v.code.concreteOnly = true)
    (ha : violations a = [])
    (h : (∃ v ∈ violations k, v.code = .unimplemented) ↔ deferrals a ≠ []) : Deferred k a := by
  have hro : selected (· == .readonlyViolation) k = [] := by
    refine selected_eq_nil fun v hv => beq_eq_false_iff_ne.mpr fun hc => ?_
    exact nomatch (hc ▸ hk v hv : Code.readonlyViolation.concreteOnly = true)
  have hna : ∀ p, selected p a = [] := fun p => by simp [selected, ha]
  refine ⟨?_, ?_, .inl ?_, h⟩
  · rw [hna, selected_eq_nil fun v hv => by simp [hk v hv]]
  · rw [hro]
    exact List.nil_sublist _
  · rw [hna, hro]

/-- A forbidden assignment that the concrete class passes over once it has reported the missing
getter. -/
theorem append_readonly (h : Deferred k a) {s : Subject} {name : String} {fs : List Finding}
    (hg : ∃ v ∈ violations k, v.LacksGetter) (hf : AllWithin s name [.readonlyViolation] fs) :
    Deferred k (a ++ fs) where
  agree := by
    have hn : selected (· != .readonlyViolation) fs = [] := by
      refine selected_eq_nil fun v hv => ?_
      rw [List.mem_singleton.mp (hf.violation hv).2.1]
      rfl
    rw [selected_append, hn, List.append_nil, h.agree]
  readonly_sublist := by
    rw [selected_append]
    exact h.readonly_sublist.trans (List.sublist_append_left ..)
  readonly_eq := .inr hg
  unimplemented_iff := by
    rw [deferrals_append, hf.deferrals_eq_nil (by decide), List.append_nil, h.unimplemented_iff]

end Deferred

end Finding

open Finding

namespace Subject

/-- The subject of a check of the class as a concrete one. -/
def asConcrete (s : Subject) : Subject := { s with isAbstract := false }

/-- The subject of a check of the class as an abstract one. -/
def asAbstract (s : Subject) : Subject := { s with isAbstract := true }

@[simp] theorem isAbstract_asConcrete (s : Subject) : s.asConcrete.isAbstract = false := rfl

@[simp] theorem isAbstract_asAbstract (s : Subject) : s.asAbstract.isAbstract = true := rfl

@[simp] theorem options_asConcrete (s : Subject) : s.asConcrete.options = s.options := rfl

@[simp] theorem options_asAbstract (s : Subject) : s.asAbstract.options = s.options := rfl

/-- Missing halves are reported by the concrete class and left open by the abstract one. -/
theorem deferred_gaps (s : Subject) (name : String) (gs : List Gap) :
    Deferred (gs.flatMap fun g => s.asConcrete.missingHalf name g.source g.missing g.present)
      (gs.flatMap fun g => s.asAbstract.missingHalf name g.source g.missing g.present) := by
  have hk := s.asConcrete.violations_gaps name gs
  have ha := s.asAbstract.violations_gaps name gs
  have hd := s.asAbstract.deferrals_gaps name gs
  rw [isAbstract_asConcrete] at hk
  rw [isAbstract_asAbstract] at ha hd
  refine .of_concreteOnly ?_ ha ?_
  · rw [hk]
    intro v hv
    obtain ⟨g, _, rfl⟩ := List.mem_map.mp hv
    rfl
  · rw [hk, hd]
    cases gs <;> simp [Gap.violation]

/-- A provision is held against the requirement in the same way, except that the concrete class drops
the rule on assignment once it has reported a missing getter. -/
theorem deferred_provision (s : Subject) (name : String) (r : Option Requirement)
    (constraint : Option Member) (p : Provision) :
    Deferred (s.asConcrete.provision name r constraint p)
      (s.asAbstract.provision name r constraint p) := by
  have hro : ∀ q, AllWithin s name [.readonlyViolation] (s.readonly name q constraint p) :=
    fun q => s.allWithin_readonly name q constraint p
  cases r with
  | none => exact .same (hro none) (by decide)
  | some r =>
    have ht : Deferred (s.types name r p) (s.types name r p) :=
      .same (s.allWithin_types name r p) (by decide)
    have hg := s.deferred_gaps name (gaps r p)
    rw [provision_some, provision_some, kinds_eq, kinds_eq, afterKinds, afterKinds,
      options_asConcrete, options_asAbstract]
    cases ho : kindOutcome s.options r p with
    | compatible => exact hg.append ((Deferred.same (hro (some r)) (by decide)).append ht)
    | mismatch =>
      exact (Deferred.same (s.allWithin_kindMismatch name r p) (by decide)).append .nil
    | readHalfMissing =>
      obtain ⟨g, hm, hmissing, hpresent⟩ := exists_gap_of_readHalfMissing ho
      have hlack : ∃ v ∈ violations ((gaps r p).flatMap fun g =>
          s.asConcrete.missingHalf name g.source g.missing g.present), v.LacksGetter := by
        rw [violations_gaps]
        refine ⟨g.violation s.asConcrete name, List.mem_map_of_mem hm, rfl, ?_, ?_⟩
        · exact congrArg Side.kind hmissing
        · exact congrArg Side.kind hpresent
      have h := (hg.append_readonly hlack (hro (some r))).append ht
      rw [List.append_assoc] at h
      exact h

/-- Abstract members are reported in concrete classes only, and are left to no one. -/
theorem deferred_abstractMembers (s : Subject) (name : String) (ownAbstract : List Member) :
    Deferred (s.asConcrete.abstractMembers name ownAbstract)
      (s.asAbstract.abstractMembers name ownAbstract) := by
  have hk := s.asConcrete.allWithin_abstractMembers name ownAbstract
  have ha : s.asAbstract.abstractMembers name ownAbstract = [] := by simp [abstractMembers]
  rw [ha]
  refine .of_concreteOnly ?_ rfl ⟨?_, fun h => absurd rfl h⟩
  · intro v hv
    rw [List.mem_singleton.mp (hk.violation hv).2.1]
    rfl
  · rintro ⟨v, hv, hc⟩
    exact absurd (hc ▸ (hk.violation hv).2.1) (by decide)

/-- All rules for a name with an implementation correspond to each other. -/
theorem deferred_fullCheck (s : Subject) (name : String) (r : Option Requirement)
    (constraint : Option Member) (ownAbstract ownConcrete : List Member) :
    Deferred (s.asConcrete.fullCheck name r constraint ownAbstract ownConcrete)
      (s.asAbstract.fullCheck name r constraint ownAbstract ownConcrete) := by
  rw [fullCheck_eq, fullCheck_eq]
  refine ((((Deferred.append ?_ ?_).append ?_).append ?_).append ?_).append (.append ?_ ?_)
  · exact .same (s.allWithin_duplicates name ownAbstract) (by decide)
  · exact .same (s.allWithin_duplicates name ownConcrete) (by decide)
  · cases Provision.ofMembers? ownConcrete with
    | none => exact .nil
    | some p => exact s.deferred_provision name r constraint p
  · exact .same (s.allWithin_accessorPairs name ownAbstract ownConcrete) (by decide)
  · exact .same (s.allWithin_bodies name ownConcrete) (by decide)
  · exact s.deferred_abstractMembers ..
  · exact .same (s.allWithin_accessorAbstractness name ownAbstract ownConcrete) (by decide)

end Subject

namespace Group

/-- A demand that nothing implements is reported by the concrete class and left open by the abstract
one. -/
theorem deferred_unmet (s : Subject) (g : Group) :
    Deferred (g.unmet s.asConcrete) (g.unmet s.asAbstract) := by
  unfold unmet
  split
  · exact .nil
  · next r hr =>
    split
    · exact .nil
    · refine .of_concreteOnly ?_ (violations_map_deferral _) ?_
      · intro v hv
        rw [List.mem_singleton.mp hv]
        rfl
      · rw [if_pos s.isAbstract_asAbstract, deferrals_map_deferral]
        exact iff_of_true ⟨_, List.mem_singleton_self _, rfl⟩ (Requirement.members_ne_nil hr)

/-- All rules for a name correspond to each other. -/
theorem deferred_findings (s : Subject) (g : Group) :
    Deferred (g.findings s.asConcrete) (g.findings s.asAbstract) := by
  rw [findings_eq, findings_eq]
  exact ((Deferred.silent rfl rfl rfl).append (deferred_unmet s g)).append
    (s.deferred_fullCheck ..)

end Group

namespace ClassDecl

/-- A class as a concrete one. -/
def asConcrete (c : ClassDecl) : ClassDecl := { c with isAbstract := false }

/-- The findings about a name in the two checks. -/
theorem deferred_findings_groupOf (c : ClassDecl) (o : Options) (name : String) :
    Deferred ((c.groupOf name).findings (.ofClass c.asConcrete o))
      ((c.groupOf name).findings (.ofClass c.asAbstract o)) :=
  Group.deferred_findings (.ofClass c o) (c.groupOf name)

/-- A concrete class leaves nothing to subclasses. -/
theorem pending_check_of_concrete {c : ClassDecl} (hc : c.isAbstract = false) (o : Options) :
    (c.check o).pending = [] := by
  refine List.eq_nil_iff_forall_not_mem.mpr fun m hm => ?_
  have hm : m ∈ (c.check o).pendingFor m.name := List.mem_filter.mpr ⟨hm, beq_self_eq_true _⟩
  rw [pendingFor_check, (c.allWithin_findings_groupOf _ m.name).deferrals_of_concrete hc, hc] at hm
  exact nomatch hm

/-- An abstract class reports nothing that only a concrete class can commit. -/
theorem concreteOnly_of_mem_violations {c : ClassDecl} (hc : c.isAbstract = true) {o : Options}
    {v : Violation} (hv : v ∈ (c.check o).violations) : v.code.concreteOnly = false := by
  have hv : v ∈ (c.check o).violationsFor v.member := List.mem_filter.mpr ⟨hv, beq_self_eq_true _⟩
  rw [violationsFor_check] at hv
  refine Bool.eq_false_iff.mpr fun h => ?_
  have hn := ((c.allWithin_findings_groupOf _ _).violation hv).2.2 h
  exact Bool.false_ne_true (hn.symm.trans hc)

/-- A demand that nothing implements is reported by the concrete class. -/
theorem exists_unimplemented {c : ClassDecl} {name : String} (hd : (c.groupOf name).demanded ≠ [])
    (hoc : c.ownConcrete name = []) (o : Options) :
    ∃ v ∈ (c.asConcrete.check o).violationsFor name, v.code = .unimplemented := by
  obtain ⟨v, hv⟩ := Group.unimplemented_of_unmet (s := .ofClass c.asConcrete o) rfl hd
    (c.ownConcrete_groupOf name ▸ hoc)
  have hmem := List.mem_filter.mp (hv ▸ List.mem_singleton_self v)
  rw [violationsFor_check]
  exact ⟨v, hmem.1, beq_iff_eq.mp hmem.2⟩

/-- Whatever an abstract class leaves open under a name, the same class as a concrete one reports as
unimplemented, unless the name is both declared abstract and implemented there. -/
theorem unimplemented_of_pendingFor {c : ClassDecl} {o : Options} {name : String}
    (h : (c.asAbstract.check o).pendingFor name ≠ []) :
    (∃ v ∈ (c.asConcrete.check o).violationsFor name, v.code = .unimplemented) ∨
      c.ownAbstract name ≠ [] ∧ c.ownConcrete name ≠ [] := by
  rw [pendingFor_check, ne_eq, distinct_eq_nil_iff, List.append_eq_nil_iff] at h
  by_cases hd : deferrals ((c.groupOf name).findings (.ofClass c.asAbstract o)) = []
  · have hoa : c.ownAbstract name ≠ [] := fun hoa => h ⟨hd, hoa⟩
    by_cases hoc : c.ownConcrete name = []
    · have hdem : (c.groupOf name).demanded ≠ [] := fun hn =>
        hoa (demanded_groupOf_eq_nil_iff.mp hn).1
      exact .inl (exists_unimplemented hdem hoc o)
    · exact .inr ⟨hoa, hoc⟩
  · rw [violationsFor_check]
    exact .inl ((c.deferred_findings_groupOf o name).unimplemented_iff.mpr hd)

/-- What a concrete class reports as unimplemented, the same class as an abstract one leaves open. -/
theorem pendingFor_of_unimplemented {c : ClassDecl} {o : Options} {name : String}
    (h : ∃ v ∈ (c.asConcrete.check o).violationsFor name, v.code = .unimplemented) :
    (c.asAbstract.check o).pendingFor name ≠ [] := by
  rw [violationsFor_check] at h
  rw [pendingFor_check, ne_eq, distinct_eq_nil_iff, List.append_eq_nil_iff]
  exact fun hn => (c.deferred_findings_groupOf o name).unimplemented_iff.mp h hn.1

/-- Where a concrete class has nothing to report under a name, the same class as an abstract one
leaves only its own abstract declarations open. -/
theorem pendingFor_of_silent {c : ClassDecl} {o : Options} {name : String}
    (h : (c.asConcrete.check o).violationsFor name = []) :
    (c.asAbstract.check o).pendingFor name = distinct (c.ownAbstract name) := by
  rw [violationsFor_check] at h
  have hd : deferrals ((c.groupOf name).findings (.ofClass c.asAbstract o)) = [] := by
    refine Decidable.byContradiction fun hn => ?_
    obtain ⟨v, hv, _⟩ := (c.deferred_findings_groupOf o name).unimplemented_iff.mpr hn
    exact nomatch (h ▸ hv : v ∈ [])
  rw [pendingFor_check]
  show distinct (deferrals ((c.groupOf name).findings (.ofClass c.asAbstract o)) ++ _) = _
  rw [hd]
  rfl

/-- The check of a class as a concrete one and its check as an abstract one. The concrete class
leaves nothing open, and the abstract class reports neither unimplemented members nor abstract ones.
Up to forbidden assignments their reports on a name agree in all else; the abstract class reports
every forbidden assignment that the concrete class reports, and more only where a getter is missing
next to a setter. What one reports as unimplemented is what the other leaves open, except that
abstract declarations are left open even where they are implemented next to them. -/
theorem check_asAbstract_deferred (c : ClassDecl) (o : Options) (name : String) :
    let k := c.asConcrete.check o
    let a := c.asAbstract.check o
    k.pending = [] ∧
    (∀ v ∈ a.violations, v.code ≠ .unimplemented ∧ v.code ≠ .abstractInConcrete) ∧
    (a.violationsFor name).filter (·.code != .readonlyViolation) =
      (k.violationsFor name).filter
        (fun v => !v.code.concreteOnly && v.code != .readonlyViolation) ∧
    ((k.violationsFor name).filter (·.code == .readonlyViolation)).Sublist
      ((a.violationsFor name).filter (·.code == .readonlyViolation)) ∧
    ((a.violationsFor name).filter (·.code == .readonlyViolation) ≠
        (k.violationsFor name).filter (·.code == .readonlyViolation) →
      ∃ v ∈ k.violationsFor name, v.LacksGetter) ∧
    ((∃ v ∈ k.violationsFor name, v.code = .unimplemented) →
      ∃ m ∈ a.pending, m.name = name ∧ m.isAbstract = true) ∧
    ((∃ m ∈ a.pending, m.name = name) →
      (∃ v ∈ k.violationsFor name, v.code = .unimplemented) ∨
        c.ownAbstract name ≠ [] ∧ c.ownConcrete name ≠ []) := by
  intro k a
  have hdef := c.deferred_findings_groupOf o name
  have hk : k.violationsFor name =
      violations ((c.groupOf name).findings (.ofClass c.asConcrete o)) := violationsFor_check ..
  have ha : a.violationsFor name =
      violations ((c.groupOf name).findings (.ofClass c.asAbstract o)) := violationsFor_check ..
  refine ⟨pending_check_of_concrete rfl o, ?_, ?_, ?_, ?_, ?_, ?_⟩
  · intro v hv
    have hc := concreteOnly_of_mem_violations rfl hv
    constructor
    · intro h
      exact nomatch (h ▸ hc : Code.unimplemented.concreteOnly = false)
    · intro h
      exact nomatch (h ▸ hc : Code.abstractInConcrete.concreteOnly = false)
  · rw [hk, ha]
    exact hdef.agree
  · rw [hk, ha]
    exact hdef.readonly_sublist
  · intro hne
    rw [hk, ha] at *
    exact hdef.readonly_eq.resolve_left hne
  · intro h
    obtain ⟨m, hm⟩ := List.exists_mem_of_ne_nil _ (pendingFor_of_unimplemented h)
    obtain ⟨hm, hn⟩ := List.mem_filter.mp hm
    exact ⟨m, hm, beq_iff_eq.mp hn, isAbstract_of_mem_pending hm⟩
  · rintro ⟨m, hm, hn⟩
    refine unimplemented_of_pendingFor (List.ne_nil_of_mem (a := m) ?_)
    exact List.mem_filter.mpr ⟨hm, beq_iff_eq.mpr hn⟩

end ClassDecl

end ClassContract
