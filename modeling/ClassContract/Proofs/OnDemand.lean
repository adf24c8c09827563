import ClassContract.Proofs.PerName
import ClassContract.Report.Hierarchy

/-!
# The checks made on demand only add

Two rules are applied on demand. Without them every other rule finds the same, and what is left to
subclasses is the same, so that a check without demand has the findings of the check with it, less
those of the two rules: `findings_undemanding`. In a hierarchy later classes depend on what earlier
ones leave open and not on what is reported of them, which carries this through a whole run.
-/

namespace ClassContract

/-- The codes of the checks made on demand. -/
def Code.isOnDemand : Code → Bool
  | .abstractInConcrete | .accessorAbstractness => true
  | _ => false

/-- The options without the two checks made on demand, strict or not. -/
def Options.undemanding (o : Options) (strict : Bool) : Options :=
  { o with strict, reportAbstractInConcrete := false, reportAccessorAbstractness := false }

/-- The report without what was found on demand. -/
def Report.standing (r : Report) : Report :=
  { r with violations := r.violations.filter (!·.code.isOnDemand) }

namespace Finding

/-- Whether a finding comes from a rule that is always applied. -/
def isStanding : Finding → Bool
  | .violation v => !v.code.isOnDemand
  | _ => true

/-- The standing findings have the violations that are not made on demand. -/
theorem violations_filter_isStanding (fs : List Finding) :
    violations (fs.filter isStanding) = (violations fs).filter (!·.code.isOnDemand) := by
  rw [violations, violations, List.filterMap_filter, List.filter_filterMap]
  congr 1
  funext f
  cases f with
  | violation v => cases hv : v.code.isOnDemand <;> simp [isStanding, violation?, Option.filter, hv]
  | _ => rfl

/-- All that is left to subclasses is left to them without demand. -/
theorem deferrals_filter_isStanding (fs : List Finding) :
    deferrals (fs.filter isStanding) = deferrals fs := by
  rw [deferrals, deferrals, List.filterMap_filter]
  congr 1
  funext f
  cases f with
  | violation v => cases hv : v.code.isOnDemand <;> simp [isStanding, deferral?, hv]
  | _ => rfl

/-- Rules that do not report on demand have standing findings alone. -/
theorem AllWithin.filter_isStanding {s : Subject} {name : String} {codes : List Code}
    {fs : List Finding} (h : AllWithin s name codes fs) (hc : ∀ c ∈ codes, c.isOnDemand = false) :
    fs.filter isStanding = fs := by
  refine List.filter_eq_self.mpr fun f hf => ?_
  cases f with
  | violation v => simp [isStanding, hc _ (h.violation (mem_violations.mpr hf)).2.1]
  | _ => rfl

/-- Rules that report on demand have no standing findings. -/
theorem AllWithin.filter_isStanding_eq_nil {s : Subject} {name : String} {code : Code}
    {fs : List Finding} (h : AllWithin s name [code] fs) (hc : code.isOnDemand = true)
    (hv : ∀ f ∈ fs, ∃ v, f = .violation v) : fs.filter isStanding = [] := by
  refine List.filter_eq_nil_iff.mpr fun f hf => ?_
  obtain ⟨v, rfl⟩ := hv f hf
  have hcode := List.mem_singleton.mp (h.violation (mem_violations.mpr hf)).2.1
  simp [isStanding, hcode, hc]

end Finding

open Finding

namespace Subject

/-- The subject of a check without demand. -/
def undemanding (s : Subject) (strict : Bool) : Subject :=
  { s with options := s.options.undemanding strict }

/-- A provision is held against the requirement in the same way. -/
theorem provision_undemanding (s : Subject) (strict : Bool) {name : String}
    {r : Option Requirement} (h : ∀ q, r = some q → ∀ m ∈ q.members, m.name = name)
    (constraint : Option Member) (p : Provision) :
    (s.undemanding strict).provision name r constraint p =
      (s.provision name r constraint p).filter isStanding := by
  have hstanding : (s.provision name r constraint p).filter isStanding =
      s.provision name r constraint p := by
    cases r with
    | none => exact (s.allWithin_readonly name none constraint p).filter_isStanding (by decide)
    | some q =>
      rw [provision_some, List.filter_append,
        (s.allWithin_kinds (h q rfl) p).filter_isStanding (by decide),
        (s.allWithin_afterKinds name q constraint p).filter_isStanding (by decide)]
  rw [hstanding]
  rfl

/-- Reports on abstract members are made on demand only. -/
theorem filter_abstractMembers (s : Subject) (name : String) (ownAbstract : List Member) :
    (s.abstractMembers name ownAbstract).filter isStanding = [] := by
  refine (s.allWithin_abstractMembers name ownAbstract).filter_isStanding_eq_nil rfl fun f hf => ?_
  unfold abstractMembers at hf
  split at hf
  · obtain ⟨m, _, rfl⟩ := List.mem_map.mp hf
    exact ⟨_, rfl⟩
  · cases hf

/-- Reports on accessors of which one is abstract are made on demand only. -/
theorem filter_accessorAbstractness (s : Subject) (name : String)
    (ownAbstract ownConcrete : List Member) :
    (s.accessorAbstractness name ownAbstract ownConcrete).filter isStanding = [] := by
  refine (s.allWithin_accessorAbstractness name ownAbstract ownConcrete).filter_isStanding_eq_nil
    rfl fun f hf => ?_
  unfold accessorAbstractness at hf
  dsimp only at hf
  split at hf
  · cases hf
  · split at hf
    · exact ⟨_, List.mem_singleton.mp hf⟩
    · split at hf
      · exact ⟨_, List.mem_singleton.mp hf⟩
      · cases hf

/-- Without demand, a full check keeps its standing findings. -/
theorem fullCheck_undemanding (s : Subject) (strict : Bool) {name : String}
    {r : Option Requirement} (h : ∀ q, r = some q → ∀ m ∈ q.members, m.name = name)
    (constraint : Option Member) (ownAbstract ownConcrete : List Member) :
    (s.undemanding strict).fullCheck name r constraint ownAbstract ownConcrete =
      (s.fullCheck name r constraint ownAbstract ownConcrete).filter isStanding := by
  have hprovision : (Provision.ofMembers? ownConcrete).elim []
      ((s.undemanding strict).provision name r constraint) =
      ((Provision.ofMembers? ownConcrete).elim [] (s.provision name r constraint)).filter
        isStanding := by
    cases Provision.ofMembers? ownConcrete with
    | none => rfl
    | some p => exact s.provision_undemanding strict h constraint p
  have hdemand : (s.undemanding strict).abstractMembers name ownAbstract
      ++ (s.undemanding strict).accessorAbstractness name ownAbstract ownConcrete = [] := by
    simp [abstractMembers, accessorAbstractness, undemanding, Options.undemanding]
  rw [fullCheck_eq, fullCheck_eq, hprovision, hdemand]
  simp only [List.filter_append, List.append_nil]
  rw [(s.allWithin_duplicates name ownAbstract).filter_isStanding (by decide),
    (s.allWithin_duplicates name ownConcrete).filter_isStanding (by decide),
    (s.allWithin_accessorPairs name ownAbstract ownConcrete).filter_isStanding (by decide),
    (s.allWithin_bodies name ownConcrete).filter_isStanding (by decide),
    filter_abstractMembers, filter_accessorAbstractness, List.append_nil, List.append_nil]
  rfl

end Subject

namespace ClassDecl

/-- Without demand the rules for a name find what they find with it, less what was demanded. -/
theorem findings_groupOf_undemanding (c : ClassDecl) (s : Subject) (strict : Bool) (name : String) :
    (c.groupOf name).findings (s.undemanding strict) =
      ((c.groupOf name).findings s).filter isStanding := by
  have hd : ∀ m ∈ (c.groupOf name).demanded, m.name = name ∧ m.isAbstract = true :=
    fun _ => of_mem_demanded_groupOf
  have hunmet := (Group.allWithin_unmet s hd).filter_isStanding (by decide)
  have hfull := s.fullCheck_undemanding strict
    (fun q hq m hm => (hd m (Group.mem_demanded_of_mem_members hq hm)).1)
    (c.groupOf name).inheritedConstraints.head? (c.groupOf name).ownAbstract
    (c.groupOf name).ownConcrete
  rw [Group.findings_eq, Group.findings_eq, List.filter_append, List.filter_append, hunmet,
    Group.fullCheck, Group.fullCheck]
  exact congrArg (_ ++ ·) hfull

/-- A check without demand has the findings of the check with it, less what was demanded. -/
theorem findings_undemanding (c : ClassDecl) (o : Options) (strict : Bool) :
    c.findings (o.undemanding strict) = (c.findings o).filter isStanding := by
  have hdown : c.handedDown.filter isStanding = c.handedDown := by
    unfold handedDown
    split
    · rw [List.filter_map]
      simp [Function.comp_def, isStanding]
    · rfl
  have hgroup : ∀ name, (c.groupOf name).findings (.ofClass c (o.undemanding strict)) =
      ((c.groupOf name).findings (.ofClass c o)).filter isStanding :=
    c.findings_groupOf_undemanding (.ofClass c o) strict
  rw [findings, findings, List.filter_append, hdown, findingsOf, findingsOf, scope,
    List.flatMap_map, List.flatMap_map, List.filter_flatMap]
  exact congrArg (· ++ _) (congrArg c.names.flatMap (funext hgroup))

/-- A report without demand is the report with it, less what was demanded. -/
theorem check_undemanding (c : ClassDecl) (o : Options) (strict : Bool) :
    c.check (o.undemanding strict) = (c.check o).standing := by
  have hpending : pending ((c.findings o).filter isStanding) = pending (c.findings o) :=
    congrArg distinct (deferrals_filter_isStanding _)
  rw [check, check, Report.standing, findings_undemanding, violations_filter_isStanding, hpending]

end ClassDecl

/-- A checked class with the report without what was found on demand. -/
def Checked.standing (k : Checked) : Checked := { k with report := k.report.standing }

/-- Ancestors are resolved to what was left open, which does not depend on what was reported. -/
theorem Ancestor.resolve_standing (before : List Checked) (a : Ancestor) :
    a.resolve (before.map Checked.standing) = a.resolve before := by
  have hchecked : a.checked? (before.map Checked.standing) =
      (a.checked? before).map Checked.standing := List.find?_map ..
  rw [resolve, resolve, hchecked]
  cases a.checked? before <;> rfl

/-- Without demand, checking a class after others keeps what stands. -/
theorem ClassDecl.checkAfter_undemanding (before : List Checked) (c : ClassDecl) (o : Options)
    (strict : Bool) :
    c.checkAfter (before.map Checked.standing) (o.undemanding strict) =
      (c.checkAfter before o).standing := by
  have hresolve : c.resolve (before.map Checked.standing) = c.resolve before := by
    rw [resolve, resolve]
    exact congrArg (ClassDecl.mk c.name c.isAbstract c.members)
      (List.map_congr_left fun a _ => a.resolve_standing before)
  rw [checkAfter, checkAfter, hresolve, check_undemanding]
  rfl

/-- Without demand, checking classes one after the other keeps what stands. -/
theorem checkOnwards_undemanding (o : Options) (strict : Bool) (before : List Checked)
    (cs : List ClassDecl) :
    checkOnwards (o.undemanding strict) (before.map Checked.standing) cs =
      (checkOnwards o before cs).map Checked.standing := by
  induction cs generalizing before with
  | nil => rfl
  | cons c cs ih =>
    have hstep := ClassDecl.checkAfter_undemanding before c o strict
    have hrest := ih (before ++ [c.checkAfter before o])
    rw [List.map_append, List.map_singleton] at hrest
    rw [checkOnwards, checkOnwards, hstep, List.map_cons, hrest]

/-- The checks made on demand only add. In every hierarchy, switching both of them off leaves every
report as it is, with all that the class leaves to its subclasses, less the violations of the two
checks, also when classes are checked against what earlier ones leave open. -/
theorem checkHierarchy_undemanding (cs : List ClassDecl) (o : Options) (strict : Bool) :
    checkHierarchy cs (o.undemanding strict) = (checkHierarchy cs o).map Report.standing := by
  have hrun := checkOnwards_undemanding o strict [] cs
  rw [List.map_nil] at hrun
  rw [checkHierarchy, checkHierarchy, hrun, List.map_map, List.map_map]
  rfl

end ClassContract
