import ClassContract.Proofs.Findings
import ClassContract.Proofs.Scope
import ClassContract.Report.Basic

/-!
# Reports name by name

The rules are applied to one name at a time, and what they report under a name depends on the group
of that name alone. `violationsFor_check` gives the violations of a name, and `pendingFor_check` what
is left to subclasses under it. Both also hold for names that are not in scope.
-/

namespace ClassContract

open Finding

/-- Where every item of `f a` is labelled `a`, selecting a label from all `f a` for different `a`
gives one of them. -/
theorem filter_flatMap_of_nodup {f : String → List β} {label : β → String} {names : List String}
    (hf : ∀ a, ∀ b ∈ f a, label b = a) (hn : names.Nodup) (name : String) :
    (names.flatMap f).filter (label · == name) = if name ∈ names then f name else [] := by
  have hself : (f name).filter (label · == name) = f name :=
    List.filter_eq_self.mpr fun b hb => beq_iff_eq.mpr (hf name b hb)
  have hother : ∀ a, a ≠ name → (f a).filter (label · == name) = [] := by
    intro a ha
    rw [List.filter_eq_nil_iff]
    intro b hb
    simpa [hf a b hb] using ha
  induction names with
  | nil => rfl
  | cons a names ih =>
    obtain ⟨ha, hn⟩ := List.nodup_cons.mp hn
    rw [List.flatMap_cons, List.filter_append, ih hn]
    by_cases he : a = name
    · subst he
      simp [hself, ha]
    · have hm : name ∈ a :: names ↔ name ∈ names := by simp [Ne.symm he]
      simp [hother a he, hm]

namespace Member

/-- Selecting a name does not tell equal declarations apart. -/
theorem name_beq_of_beq (name : String) (a b : Member) (h : a == b) :
    (a.name == name) = (b.name == name) := by
  rw [(fields_eq_of_beq h).1]

end Member

namespace Group

/-- Where nothing is demanded, nothing is unimplemented. -/
theorem allWithin_findings_of_demanded_eq_nil {g : Group} (h : g.demanded = []) (s : Subject) :
    AllWithin s g.name (.readonlyViolation :: Subject.standingCodes) (g.findings s) := by
  have hr : g.requirement? = none := demanded_eq_nil_iff.mp h
  rw [findings_eq, unmet, fullCheck, hr]
  refine (AllWithin.append ⟨fun f hf => ?_⟩ .nil).append ?_
  · rw [List.mem_singleton.mp hf]
    trivial
  · refine s.allWithin_fullCheck (fun c => List.mem_cons_of_mem _) (fun p _ => ?_) _
    exact (s.allWithin_readonly g.name none _ p).mono (by simp)

/-- A name under which nothing is demanded or implemented gives rise to no violation. -/
theorem violations_findings_eq_nil {g : Group} (hd : g.demanded = []) (hc : g.ownConcrete = [])
    (s : Subject) : violations (g.findings s) = [] := by
  have ha : g.ownAbstract = [] := ownAbstract_eq_nil_of_demanded hd
  have hu : g.unmet s = [] := by rw [unmet, demanded_eq_nil_iff.mp hd]
  have hf : g.fullCheck s = [] := by rw [fullCheck, hc, ha, Subject.fullCheck_nil_nil]
  rw [findings_eq, hu, hf]
  rfl

/-- A name without entries gives rise to no violation and leaves nothing to subclasses. -/
theorem findings_of_entries_eq_nil {g : Group} (h : g.entries = []) (s : Subject) :
    violations (g.findings s) = [] ∧ deferrals (g.findings s) = [] := by
  have hs : ∀ p, g.select p = [] := fun p => by simp [select, h]
  have hd : g.demanded = [] := by simp [demanded, demand, ownAbstract, inheritedAbstract, hs]
  exact ⟨violations_findings_eq_nil hd (hs _) s,
    (allWithin_findings_of_demanded_eq_nil hd s).deferrals_eq_nil (by decide)⟩

end Group

namespace Report

/-- What is left to subclasses under one name. -/
def pendingFor (r : Report) (name : String) : List Member := r.pending.filter (·.name == name)

end Report

namespace ClassDecl

/-- What is demanded under a name comes from the class itself or from what it hears of its
ancestors. -/
theorem demanded_groupOf_eq_nil_iff {c : ClassDecl} {name : String} :
    (c.groupOf name).demanded = [] ↔
      c.ownAbstract name = [] ∧ ∀ m ∈ c.heard name, m.isAbstract = false := by
  rw [Group.demanded, demand, ownAbstract_groupOf, inheritedAbstract_groupOf]
  cases c.ownAbstract name <;> simp

/-- What is demanded under a name are abstract declarations of that name. -/
theorem of_mem_demanded_groupOf {c : ClassDecl} {name : String} {m : Member}
    (h : m ∈ (c.groupOf name).demanded) : m.name = name ∧ m.isAbstract = true := by
  obtain ⟨ha, e, he, rfl⟩ := Group.mem_entries_of_mem_demanded h
  exact ⟨name_of_mem_groupOf he, ha⟩

/-- All findings about a name in scope concern that name. -/
theorem allWithin_findings_groupOf (c : ClassDecl) (s : Subject) (name : String) :
    AllWithin s name Code.all ((c.groupOf name).findings s) :=
  Group.allWithin_findings s (g := c.groupOf name) fun _ he => name_of_mem_groupOf he

/-- The violations of a class are those of its names in turn. -/
theorem violations_findings (c : ClassDecl) (o : Options) :
    violations (c.findings o) =
      c.names.flatMap fun name => violations ((c.groupOf name).findings (.ofClass c o)) := by
  have hh : violations c.handedDown = [] := by
    unfold handedDown
    split
    · exact violations_map_deferral _
    · rfl
  rw [findings, violations_append, hh, List.append_nil, findingsOf, scope, violations,
    List.filterMap_flatMap, List.flatMap_map]
  rfl

/-- A class leaves to subclasses what its names leave to them, and then its own abstract members. -/
theorem deferrals_findings (c : ClassDecl) (o : Options) :
    deferrals (c.findings o) =
      (c.names.flatMap fun name => deferrals ((c.groupOf name).findings (.ofClass c o)))
        ++ if c.isAbstract then c.members.filter (·.isAbstract) else [] := by
  have hh : deferrals c.handedDown =
      if c.isAbstract then c.members.filter (·.isAbstract) else [] := by
    unfold handedDown
    split
    · exact deferrals_map_deferral _
    · rfl
  rw [findings, deferrals_append, hh, findingsOf, scope, deferrals, List.filterMap_flatMap,
    List.flatMap_map]
  rfl

/-- The violations of a name are those that the rules find in its group. -/
theorem violationsFor_check (c : ClassDecl) (o : Options) (name : String) :
    (c.check o).violationsFor name =
      violations ((c.groupOf name).findings (.ofClass c o)) := by
  have hl : ∀ a, ∀ v ∈ violations ((c.groupOf a).findings (.ofClass c o)), v.member = a :=
    fun a v hv => ((c.allWithin_findings_groupOf _ a).violation hv).1
  rw [Report.violationsFor, check, violations_findings,
    filter_flatMap_of_nodup hl c.nodup_names name]
  split
  · rfl
  · next hn => rw [(Group.findings_of_entries_eq_nil (entries_groupOf_eq_nil hn) _).1]

/-- What is left to subclasses under a name is what the rules leave to them in its group, and the
own abstract declarations of an abstract class. -/
theorem pendingFor_check (c : ClassDecl) (o : Options) (name : String) :
    (c.check o).pendingFor name =
      distinct (deferrals ((c.groupOf name).findings (.ofClass c o))
        ++ if c.isAbstract then c.ownAbstract name else []) := by
  have hl : ∀ a, ∀ m ∈ deferrals ((c.groupOf a).findings (.ofClass c o)), m.name = a :=
    fun a m hm => ((c.allWithin_findings_groupOf _ a).deferral hm).1
  have hg : (if name ∈ c.names then deferrals ((c.groupOf name).findings (.ofClass c o)) else []) =
      deferrals ((c.groupOf name).findings (.ofClass c o)) := by
    split
    · rfl
    · next hn => rw [(Group.findings_of_entries_eq_nil (entries_groupOf_eq_nil hn) _).2]
  have ho : (if c.isAbstract then c.members.filter (·.isAbstract) else []).filter
      (·.name == name) = if c.isAbstract then c.ownAbstract name else [] := by
    split
    · rw [List.filter_filter]
      rfl
    · rfl
  rw [Report.pendingFor, check, Finding.pending, filter_distinct (Member.name_beq_of_beq name)]
  show distinct ((deferrals (c.findings o)).filter _) = _
  rw [deferrals_findings, List.filter_append, filter_flatMap_of_nodup hl c.nodup_names, hg, ho]

/-- Everything left to subclasses is abstract. -/
theorem isAbstract_of_mem_pending {c : ClassDecl} {o : Options} {m : Member}
    (h : m ∈ (c.check o).pending) : m.isAbstract = true := by
  have hm : m ∈ (c.check o).pendingFor m.name := List.mem_filter.mpr ⟨h, beq_self_eq_true _⟩
  rw [pendingFor_check] at hm
  rcases List.mem_append.mp (mem_of_mem_distinct hm) with hm | hm
  · exact ((c.allWithin_findings_groupOf _ _).deferral hm).2.1
  · split at hm
    · exact (Bool.and_eq_true_iff.mp (List.mem_filter.mp hm).2).2
    · cases hm

/-- What is left to subclasses is abstract. -/
theorem isAbstract_of_mem_pendingFor {c : ClassDecl} {o : Options} {name : String} {m : Member}
    (h : m ∈ (c.check o).pendingFor name) : m.isAbstract = true :=
  isAbstract_of_mem_pending (List.mem_filter.mp h).1

end ClassDecl

end ClassContract
