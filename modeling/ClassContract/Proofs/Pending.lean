import ClassContract.Proofs.Deferral

/-!
# What an abstract class leaves open under a name

Of the rules for a name only two leave anything to subclasses. A demand that nothing implements is
left open as a whole: the declarations that count are handed down. Where there is an implementation,
the halves of a property that it lacks are left open. All other rules look at the declarations of the
class alone, so that `exists_fullCheck_eq` sets the rules for the implementation apart from them.
-/

namespace ClassContract

open Finding

/-- Findings none of whose codes pass a test. -/
theorem Finding.AllWithin.selected_eq_nil {s : Subject} {name : String} {codes : List Code}
    {fs : List Finding} (h : AllWithin s name codes fs) {p : Code → Bool}
    (hp : ∀ c ∈ codes, p c = false) : selected p fs = [] :=
  Finding.selected_eq_nil fun _ hv => hp _ (h.violation hv).2.1

namespace Subject

/-- The rules for an implementation stand between rules about the declarations of the class alone. -/
theorem exists_fullCheck_eq (s : Subject) (name : String) (r : Option Requirement)
    (constraint : Option Member) (ownAbstract ownConcrete : List Member) :
    ∃ before after,
      s.fullCheck name r constraint ownAbstract ownConcrete =
        before ++ (Provision.ofMembers? ownConcrete).elim [] (s.provision name r constraint) ++ after
      ∧ AllWithin s name standingCodes before ∧ AllWithin s name standingCodes after := by
  have hone : ∀ {c fs}, c ∈ standingCodes → AllWithin s name [c] fs →
      AllWithin s name standingCodes fs :=
    fun h hfs => hfs.mono fun _ hm => List.mem_singleton.mp hm ▸ h
  refine ⟨s.duplicates name ownAbstract ++ s.duplicates name ownConcrete,
    s.accessorPairs name ownAbstract ownConcrete ++ (s.bodies name ownConcrete
      ++ (s.abstractMembers name ownAbstract
        ++ s.accessorAbstractness name ownAbstract ownConcrete)), ?_, ?_, ?_⟩
  · rw [fullCheck_eq]
    simp only [List.append_assoc]
  · exact .append (hone (by decide) (s.allWithin_duplicates ..))
      (hone (by decide) (s.allWithin_duplicates ..))
  · exact .append (hone (by decide) (s.allWithin_accessorPairs ..))
      (.append (hone (by decide) (s.allWithin_bodies ..))
        (.append (hone (by decide) (s.allWithin_abstractMembers ..))
          (hone (by decide) (s.allWithin_accessorAbstractness ..))))

/-- In a full check only the rules for the implementation leave anything to subclasses. -/
theorem deferrals_fullCheck (s : Subject) (name : String) (r : Option Requirement)
    (constraint : Option Member) (ownAbstract ownConcrete : List Member) :
    deferrals (s.fullCheck name r constraint ownAbstract ownConcrete) =
      deferrals ((Provision.ofMembers? ownConcrete).elim [] (s.provision name r constraint)) := by
  obtain ⟨before, after, heq, hbefore, hafter⟩ :=
    s.exists_fullCheck_eq name r constraint ownAbstract ownConcrete
  rw [heq, deferrals_append, deferrals_append, hbefore.deferrals_eq_nil (by decide),
    hafter.deferrals_eq_nil (by decide), List.nil_append, List.append_nil]

/-- Codes that no rule about the declarations of the class alone reports come from the rules for the
implementation. -/
theorem selected_fullCheck (s : Subject) (name : String) (r : Option Requirement)
    (constraint : Option Member) (ownAbstract ownConcrete : List Member) {p : Code → Bool}
    (hp : ∀ c ∈ standingCodes, p c = false) :
    selected p (s.fullCheck name r constraint ownAbstract ownConcrete) =
      selected p ((Provision.ofMembers? ownConcrete).elim [] (s.provision name r constraint)) := by
  obtain ⟨before, after, heq, hbefore, hafter⟩ :=
    s.exists_fullCheck_eq name r constraint ownAbstract ownConcrete
  rw [heq, selected_append, selected_append, hbefore.selected_eq_nil hp,
    hafter.selected_eq_nil hp, List.nil_append, List.append_nil]

/-- An abstract class leaves the halves open that an implementation of the required kind lacks. -/
theorem deferrals_provision {s : Subject} (hs : s.isAbstract = true) (name : String)
    {r : Requirement} {p : Provision} (hk : kindOutcome s.options r p ≠ .mismatch)
    (constraint : Option Member) :
    deferrals (s.provision name (some r) constraint p) = (gaps r p).map Gap.half := by
  rw [provision_some, kinds_eq, if_neg hk, deferrals_append, deferrals_gaps, if_pos hs,
    (s.allWithin_afterKinds name r constraint p).deferrals_eq_nil (by decide), List.append_nil]

/-- Nothing else is left open where there is an implementation. -/
theorem exists_gap_of_mem_deferrals_provision {s : Subject} {name : String}
    {r : Option Requirement} {constraint : Option Member} {p : Provision} {m : Member}
    (h : m ∈ deferrals (s.provision name r constraint p)) :
    ∃ q, r = some q ∧ ∃ g ∈ gaps q p, g.half = m := by
  cases r with
  | none =>
    have hnil := (s.allWithin_readonly name none constraint p).deferrals_eq_nil (by decide)
    rw [provision, hnil] at h
    cases h
  | some q =>
    have hafter := (s.allWithin_afterKinds name q constraint p).deferrals_eq_nil (by decide)
    rw [provision_some, deferrals_append, hafter, List.append_nil, kinds_eq] at h
    dsimp only at h
    split at h
    · rw [(s.allWithin_kindMismatch name q p).deferrals_eq_nil (by decide)] at h
      cases h
    · rw [deferrals_gaps] at h
      split at h
      · exact ⟨q, rfl, List.mem_map.mp h⟩
      · cases h

end Subject

namespace Group

/-- A demand with an implementation is not unmet. -/
theorem unmet_eq_nil {g : Group} (hc : g.ownConcrete ≠ []) (s : Subject) : g.unmet s = [] := by
  unfold unmet
  split
  · rfl
  · rw [if_pos (by simpa using hc)]

/-- Where there is an implementation, only the rules for it leave anything open. -/
theorem deferrals_findings_of_implemented (s : Subject) {g : Group} {p : Provision}
    (hp : Provision.ofMembers? g.ownConcrete = some p) :
    deferrals (g.findings s) =
      deferrals (s.provision g.name g.requirement? g.inheritedConstraints.head? p) := by
  rw [findings_eq, unmet_eq_nil (Provision.ne_nil_of_ofMembers? hp), deferrals_append,
    deferrals_append, fullCheck, s.deferrals_fullCheck, hp]
  rfl

/-- Codes of the rules for an implementation come from nowhere else. -/
theorem selected_findings_of_implemented (s : Subject) {g : Group} {p : Provision}
    (hp : Provision.ofMembers? g.ownConcrete = some p) {q : Code → Bool}
    (hq : ∀ c ∈ Subject.standingCodes, q c = false) :
    selected q (g.findings s) =
      selected q (s.provision g.name g.requirement? g.inheritedConstraints.head? p) := by
  rw [findings_eq, unmet_eq_nil (Provision.ne_nil_of_ofMembers? hp), selected_append,
    selected_append, fullCheck, s.selected_fullCheck _ _ _ _ _ hq, hp]
  rfl

/-- A demand that nothing implements is left open as a whole. -/
theorem deferrals_findings_of_unimplemented {s : Subject} (hs : s.isAbstract = true) {g : Group}
    (hc : g.ownConcrete = []) : deferrals (g.findings s) = Requirement.counted g.demanded := by
  have hunmet : deferrals (g.unmet s) = Requirement.counted g.demanded := by
    rw [unmet, hc, Requirement.counted]
    show _ = Option.elim g.requirement? [] _
    cases g.requirement? with
    | none => rfl
    | some r => simp [hs]
  have hfull : deferrals (g.fullCheck s) = [] := by
    rw [fullCheck, s.deferrals_fullCheck, hc]
    rfl
  rw [findings_eq, deferrals_append, deferrals_append, hunmet, hfull, List.append_nil]
  rfl

end Group

namespace ClassDecl

/-- An abstract class that does not declare a name leaves open what it hears of it, as far as it is
abstract and counts. -/
theorem pendingFor_of_undeclared {c : ClassDecl} (hc : c.isAbstract = true) {name : String}
    (hoa : c.ownAbstract name = []) (hoc : c.ownConcrete name = []) (o : Options) :
    (c.check o).pendingFor name =
      Requirement.counted ((c.heard name).filter (·.isAbstract)) := by
  have hd : (c.groupOf name).demanded = (c.heard name).filter (·.isAbstract) := by
    rw [Group.demanded, demand, ownAbstract_groupOf, hoa, inheritedAbstract_groupOf]
    rfl
  rw [pendingFor_check, hoa, ite_self, List.append_nil,
    Group.deferrals_findings_of_unimplemented (s := .ofClass c o) hc
      ((c.ownConcrete_groupOf name).trans hoc), hd, Requirement.distinct_counted]

end ClassDecl

end ClassContract
