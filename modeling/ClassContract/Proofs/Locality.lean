import ClassContract.Proofs.Pending

/-!
# Reports on the declarations of a class alone

Duplicates, the agreement of getter and setter, bodies and the two checks made on demand look at the
declarations of the class itself. Whether they are applied is still decided by what the ancestors
demand: after a demand that nothing implements a concrete class is only checked in part, and an
implementation is held against the demand in between. `selected_findings_groupOf` says that neither
matters. What these rules report under a name is what they report where nothing is demanded, so that
no ancestor has a say in it.
-/

namespace ClassContract

open Finding

namespace Subject

/-- The rules for an implementation add nothing to what is reported of the declarations of the class
alone. -/
theorem selected_standing_fullCheck (s : Subject) {name : String} {r : Option Requirement}
    (h : ∀ q, r = some q → ∀ m ∈ q.members, m.name = name) (constraint : Option Member)
    (ownAbstract ownConcrete : List Member) :
    selected standingCodes.contains (s.fullCheck name r constraint ownAbstract ownConcrete) =
      selected standingCodes.contains (s.fullCheck name none none ownAbstract ownConcrete) := by
  have hsilent : ∀ {q : Option Requirement} (k : Option Member),
      (∀ r, q = some r → ∀ m ∈ r.members, m.name = name) →
      selected standingCodes.contains
        ((Provision.ofMembers? ownConcrete).elim [] (s.provision name q k)) = [] := by
    intro q k hq
    cases Provision.ofMembers? ownConcrete with
    | none => rfl
    | some p => exact (s.allWithin_provision hq k p).selected_eq_nil (by decide)
  have hrequired := hsilent constraint h
  have hfree := hsilent (q := none) none (by simp)
  rw [fullCheck_eq, fullCheck_eq]
  simp only [selected_append, hrequired, hfree]

end Subject

namespace ClassDecl

/-- Under every name the reports on the declarations of the class alone are those of a check where
nothing is demanded. -/
theorem selected_findings_groupOf (c : ClassDecl) (s : Subject) (name : String) :
    selected Subject.standingCodes.contains ((c.groupOf name).findings s) =
      selected Subject.standingCodes.contains
        (s.fullCheck name none none (c.ownAbstract name) (c.ownConcrete name)) := by
  have hdemanded : ∀ m ∈ (c.groupOf name).demanded, m.name = name ∧ m.isAbstract = true :=
    fun _ => of_mem_demanded_groupOf
  have hunmet : selected Subject.standingCodes.contains ((c.groupOf name).unmet s) = [] :=
    (Group.allWithin_unmet s hdemanded).selected_eq_nil (by decide)
  have hfull := s.selected_standing_fullCheck
    (fun q hq m hm => (hdemanded m (Group.mem_demanded_of_mem_members hq hm)).1)
    (c.groupOf name).inheritedConstraints.head? (c.groupOf name).ownAbstract
    (c.groupOf name).ownConcrete
  rw [Group.findings_eq, selected_append, selected_append, hunmet, List.append_nil,
    ← ownAbstract_groupOf, ← ownConcrete_groupOf]
  exact hfull

/-- Whatever the ancestors of a class are, the same is reported of its own declarations: under every
name the same duplicates, disagreements of getter and setter, missing bodies, abstract members and
split accessors, in the same order. -/
theorem violationsFor_standing_eq (c : ClassDecl) (as bs : List Ancestor) (o : Options)
    (name : String) :
    (({ c with ancestors := as }.check o).violationsFor name).filter
        (fun v : Violation => Subject.standingCodes.contains v.code) =
      (({ c with ancestors := bs }.check o).violationsFor name).filter
        (fun v : Violation => Subject.standingCodes.contains v.code) := by
  have has := { c with ancestors := as }.selected_findings_groupOf (.ofClass c o) name
  have hbs := { c with ancestors := bs }.selected_findings_groupOf (.ofClass c o) name
  rw [violationsFor_check, violationsFor_check]
  exact has.trans hbs.symm

end ClassDecl

end ClassContract
