import ClassContract.Proofs.Outcome
import Mathlib.Data.List.Forall2

/-!
# The order of declarations

The members of a class and those of each of its ancestors may be written in any order. The order
decides which declaration a requirement or a provision begins with, which of several declarations of
one kind counts and which constraint is cited. As long as the declarations of a name may stand side by
side, none of this shows in the codes that are reported: `codes_of_rearranged`. Where they collide
the first one wins, and another order may give another verdict.
-/

namespace ClassContract

/-- An ancestor with its members in another order. -/
structure Ancestor.Rearranged (a b : Ancestor) : Prop where
  /-- The name is kept. -/
  name : b.name = a.name
  /-- A class stays a class, and an interface an interface. -/
  kind : b.kind = a.kind
  /-- The members are those of the ancestor. -/
  members : a.members.Perm b.members

/-- Rearranged ancestors mention the same names. -/
theorem Ancestor.Rearranged.mentions_eq {a b : Ancestor} (h : a.Rearranged b) (name : String) :
    b.mentions name = a.mentions name := h.members.any_eq.symm

/-- The same is heard of a name from ancestors in the same order, whatever the order of their
members. -/
theorem heardFrom_of_rearranged {as bs : List Ancestor}
    (h : List.Forall₂ Ancestor.Rearranged as bs) (name : String) :
    (heardFrom as name).Perm (heardFrom bs name) := by
  unfold heardFrom
  induction h with
  | nil => exact .refl _
  | @cons a b as bs hab _ ih =>
    rw [List.find?_cons, List.find?_cons, hab.mentions_eq]
    cases a.mentions name with
    | true => exact hab.members.filter _
    | false => exact ih

namespace Member

/-- Whether a declaration forbids assignment does not depend on the order of those beside it. -/
theorem forbidsWritingAmong_of_perm {ms ms' : List Member} (h : ms.Perm ms') (m : Member) :
    m.forbidsWritingAmong ms' = m.forbidsWritingAmong ms := by
  unfold forbidsWritingAmong
  cases m.kind with
  | getAccessor => exact congrArg (!·) h.any_eq.symm
  | _ => rfl

end Member

namespace ClassDecl

/-- A class with its own members and those of every ancestor in another order. -/
structure Rearranged (c d : ClassDecl) : Prop where
  /-- The name is kept. -/
  name : d.name = c.name
  /-- An abstract class stays abstract, and a concrete one concrete. -/
  isAbstract : d.isAbstract = c.isAbstract
  /-- The members are those of the class. -/
  members : c.members.Perm d.members
  /-- The ancestors come in the same order. -/
  ancestors : List.Forall₂ Ancestor.Rearranged c.ancestors d.ancestors

namespace Rearranged

variable {c d : ClassDecl}

/-- The abstract declarations of a name are rearranged with the class. -/
theorem ownAbstract (h : c.Rearranged d) (name : String) :
    (c.groupOf name).ownAbstract.Perm (d.groupOf name).ownAbstract := by
  rw [ownAbstract_groupOf, ownAbstract_groupOf]
  exact h.members.filter _

/-- The concrete declarations of a name are rearranged with the class. -/
theorem ownConcrete (h : c.Rearranged d) (name : String) :
    (c.groupOf name).ownConcrete.Perm (d.groupOf name).ownConcrete := by
  rw [ownConcrete_groupOf, ownConcrete_groupOf]
  exact h.members.filter _

/-- What is heard of a name is rearranged with the ancestor that it is heard from. -/
theorem heard (h : c.Rearranged d) (name : String) : (c.heard name).Perm (d.heard name) :=
  heardFrom_of_rearranged h.ancestors name

/-- What is required from above is rearranged. -/
theorem inheritedAbstract (h : c.Rearranged d) (name : String) :
    (c.groupOf name).inheritedAbstract.Perm (d.groupOf name).inheritedAbstract := by
  rw [inheritedAbstract_groupOf, inheritedAbstract_groupOf]
  exact (h.heard name).filter _

/-- What constrains from above is rearranged. -/
theorem inheritedConstraints (h : c.Rearranged d) (name : String) :
    (c.groupOf name).inheritedConstraints.Perm (d.groupOf name).inheritedConstraints := by
  rw [inheritedConstraints_groupOf, inheritedConstraints_groupOf]
  simp only [Member.forbidsWritingAmong_of_perm (h.heard name)]
  exact (h.heard name).filter _

/-- Declarations that may stand side by side make the same demand in any order. -/
theorem sameDemand (h : c.Rearranged d) {name : String}
    (hoa : Collisionless (c.groupOf name).ownAbstract)
    (hoc : Collisionless (c.groupOf name).ownConcrete)
    (hia : Collisionless (c.groupOf name).inheritedAbstract) :
    (c.groupOf name).SameDemand (d.groupOf name) := by
  have hown : SameDeclarations (c.groupOf name).ownAbstract (d.groupOf name).ownAbstract :=
    .reordered hoa (h.ownAbstract name)
  have hinherited : SameDeclarations (c.groupOf name).inheritedAbstract
      (d.groupOf name).inheritedAbstract := .reordered hia (h.inheritedAbstract name)
  have hconstraints : (d.groupOf name).inheritedConstraints = [] ↔
      (c.groupOf name).inheritedConstraints = [] := by
    have hlength := (h.inheritedConstraints name).length_eq
    rw [← List.length_eq_zero_iff, ← hlength, List.length_eq_zero_iff]
  refine ⟨rfl, hown, .reordered hoc (h.ownConcrete name), ?_, hconstraints⟩
  unfold Group.requirement?
  by_cases hnil : (c.groupOf name).ownAbstract = []
  · rw [hnil, hown.eq_nil_iff.mpr hnil]
    exact hinherited.requirement
  · have hnil' : (d.groupOf name).ownAbstract ≠ [] := mt hown.eq_nil_iff.mp hnil
    rw [if_neg (by simpa using hnil), if_neg (by simpa using hnil')]
    exact hown.requirement

end Rearranged

/-- The order of declarations does not change the verdict. Let the members of a class and those of
each ancestor be written in another order. Under every name whose own abstract declarations, own
implementations and inherited abstract declarations may stand side by side, the same codes are
reported in the same order. -/
theorem codes_of_rearranged {c d : ClassDecl} (h : c.Rearranged d) {name : String}
    (hoa : Collisionless (c.groupOf name).ownAbstract)
    (hoc : Collisionless (c.groupOf name).ownConcrete)
    (hia : Collisionless (c.groupOf name).inheritedAbstract) (o : Options) :
    ((c.check o).violationsFor name).map (·.code) =
      ((d.check o).violationsFor name).map (·.code) := by
  have hsame := sameOutcome_of_sameDemand (h.sameDemand hoa hoc hia) h.name h.isAbstract o
  rw [violationsFor_check, violationsFor_check]
  exact hsame.codes

/-- A class whose accessors disagree with each other and with an interface. -/
def lamp : ClassDecl :=
  ⟨"Lamp", false,
    [.concrete .getAccessor "Lamp" "state" (.keyword .string),
      .concrete .setAccessor "Lamp" "state" (.keyword .number)],
    [.ofInterface "Switch"
      [.concrete .getAccessor "Switch" "state" (.keyword .number),
        .concrete .setAccessor "Switch" "state" (.keyword .number)]]⟩

/-- The same class and interface with the setters written first. -/
def relistedLamp : ClassDecl :=
  ⟨"Lamp", false, lamp.members.reverse,
    [.ofInterface "Switch"
      [.concrete .setAccessor "Switch" "state" (.keyword .number),
        .concrete .getAccessor "Switch" "state" (.keyword .number)]]⟩

/-- The lamp with its accessors in the other order is reported under the same codes. -/
theorem lamp_relisted :
    lamp.Rearranged relistedLamp ∧
      ((relistedLamp.check .initial).violationsFor "state").map (·.code) =
        [.typeMismatch, .accessorTypeMismatch] := by
  have h : lamp.Rearranged relistedLamp :=
    ⟨rfl, rfl, .swap _ _ _, .cons ⟨rfl, rfl, .swap _ _ _⟩ .nil⟩
  have hcodes : ((lamp.check .initial).violationsFor "state").map (·.code) =
      ((relistedLamp.check .initial).violationsFor "state").map (·.code) :=
    codes_of_rearranged h (by decide) (by decide) (by decide) .initial
  exact ⟨h, hcodes.symm.trans (by decide)⟩

end ClassDecl

end ClassContract
