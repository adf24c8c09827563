import ClassContract.Proofs.Obligation
import ClassContract.Proofs.Outcome
import ClassContract.Proofs.Pending

/-!
# Abstract classes without members

Abstract classes without members, put between a class and its ancestors, change nothing that can be
observed of the class. Such a class leaves open what it hears as far as it counts, and what counts
amounts to the same requirement again: only the declaration that reports refer to may change, and
the checks have the same outcome. `Through` describes what is heard through any number of classes
without members. The ancestors must not mix abstract and concrete declarations of a name, since a
class in between hands on the abstract ones only.
-/

namespace ClassContract

open Finding

namespace Requirement

/-- The declarations that count amount to the same requirement as all of them. -/
theorem rel_ofMembers?_counted (ms : List Member) :
    Option.Rel SameParts (ofMembers? ms) (ofMembers? (counted ms)) := by
  cases hr : ofMembers? ms with
  | none =>
    rw [ofMembers?_eq_none_iff.mp hr]
    exact .none
  | some r =>
    obtain ⟨r', hr', hs⟩ := ofMembers?_members hr
    rw [counted_of_ofMembers? hr, hr']
    exact .some hs

end Requirement

namespace ClassDecl

/-- Both classes hear the same of a name, or the second hears the abstract declarations that count of
those that the first hears. -/
def HeardAlike (c d : ClassDecl) (name : String) : Prop :=
  d.heard name = c.heard name ∨
    (∀ m ∈ c.heard name, m.isAbstract = true) ∧ d.heard name = Requirement.counted (c.heard name)

section Alike

variable {c d : ClassDecl} {name : String}

/-- What is heard as abstract does not constrain. -/
theorem constraints_groupOf_of_abstract (h : ∀ m ∈ c.heard name, m.isAbstract = true) :
    (c.groupOf name).inheritedConstraints = [] := by
  rw [inheritedConstraints_groupOf, List.filter_eq_nil_iff]
  intro m hm
  simp [h m hm]

/-- Classes that hear alike have the same constraints from above. -/
theorem HeardAlike.constraints (h : HeardAlike c d name) :
    (d.groupOf name).inheritedConstraints = (c.groupOf name).inheritedConstraints := by
  rcases h with h | ⟨hc, hd⟩
  · rw [inheritedConstraints_groupOf, inheritedConstraints_groupOf, h]
  · have hd : ∀ m ∈ d.heard name, m.isAbstract = true := fun m hm =>
      hc m (Requirement.mem_of_mem_counted (hd ▸ hm))
    rw [constraints_groupOf_of_abstract hc, constraints_groupOf_of_abstract hd]

/-- Classes that hear alike have requirements of the same parts. -/
theorem HeardAlike.requirement (h : HeardAlike c d name) :
    Option.Rel Requirement.SameParts (Requirement.ofMembers? ((c.heard name).filter (·.isAbstract)))
      (Requirement.ofMembers? ((d.heard name).filter (·.isAbstract))) := by
  rcases h with h | ⟨hc, hd⟩
  · rw [h]
    exact Requirement.rel_sameParts_refl _
  · have hd' : ∀ m ∈ Requirement.counted (c.heard name), m.isAbstract = true := fun m hm =>
      hc m (Requirement.mem_of_mem_counted hm)
    rw [hd, List.filter_eq_self.mpr hc, List.filter_eq_self.mpr hd']
    exact Requirement.rel_ofMembers?_counted _

/-- Classes that hear alike and have the same members face the same demand. -/
theorem HeardAlike.sameDemand (h : HeardAlike c d name) (hm : d.members = c.members) :
    (c.groupOf name).SameDemand (d.groupOf name) := by
  have hoa : (d.groupOf name).ownAbstract = (c.groupOf name).ownAbstract := by
    rw [ownAbstract_groupOf, ownAbstract_groupOf, ownAbstract, ownAbstract, hm]
  have hoc : (d.groupOf name).ownConcrete = (c.groupOf name).ownConcrete := by
    rw [ownConcrete_groupOf, ownConcrete_groupOf, ownConcrete, ownConcrete, hm]
  refine ⟨rfl, hoa ▸ .same, hoc ▸ .same, ?_, by rw [h.constraints]⟩
  rw [Group.requirement?, Group.requirement?, hoa, inheritedAbstract_groupOf,
    inheritedAbstract_groupOf]
  split
  · exact h.requirement
  · exact Requirement.rel_sameParts_refl _

/-- The check of a name has the same outcome for classes that declare the same and hear alike. -/
theorem HeardAlike.check (h : HeardAlike c d name) (hn : d.name = c.name)
    (ha : d.isAbstract = c.isAbstract) (hm : d.members = c.members) (o : Options) :
    ((d.check o).violationsFor name).map (·.code) = ((c.check o).violationsFor name).map (·.code)
      ∧ (d.check o).pendingFor name = (c.check o).pendingFor name := by
  have hoa : d.ownAbstract name = c.ownAbstract name := by rw [ownAbstract, ownAbstract, hm]
  have hsame := sameOutcome_of_sameDemand (h.sameDemand hm) hn ha o
  rw [violationsFor_check, violationsFor_check, pendingFor_check, pendingFor_check, ha, hoa,
    hsame.codes, hsame.deferrals]
  exact ⟨rfl, rfl⟩

end Alike

/-- An abstract class without members that extends the classes before it on top of further
ancestors. -/
structure Interposed (c : ClassDecl) (before : List ClassDecl) (base : List Ancestor) : Prop where
  /-- The class is abstract. -/
  isAbstract : c.isAbstract = true
  /-- It declares nothing. -/
  members : c.members = []
  /-- No class before it has its name. -/
  fresh : c.name ∉ before.map (·.name)
  /-- No further ancestor has its name. -/
  apart : c.name ∉ base.map (·.name)
  /-- The classes before it come first among its ancestors. -/
  ancestors : ∃ near, StandFor near before ∧ c.ancestors = near ++ base

end ClassDecl

/-- Abstract classes without members that follow one another on top of further ancestors. -/
def InterposedAfter (base : List Ancestor) (before : List ClassDecl) : List ClassDecl → Prop
  | [] => True
  | c :: cs => c.Interposed before base ∧ InterposedAfter base (before ++ [c]) cs

/-- What is heard through the checked classes of a name is nothing, or what counts of the abstract
declarations that the further ancestors are heard with. -/
structure Through (ks : List Checked) (base : List Ancestor) : Prop where
  /-- Ancestors can be resolved to the classes. -/
  lineage : Lineage ks
  /-- No further ancestor is resolved. -/
  apart : ∀ a ∈ base, a.name ∉ ks.map (·.declared.name)
  /-- What is handed on. -/
  heard : ∀ name, heardAfter ks name = [] ∨
    heardAfter ks name = Requirement.counted ((heardFrom base name).filter (·.isAbstract))

namespace Through

variable {ks : List Checked} {base : List Ancestor}

/-- Without interposed classes there is nothing to pass through. -/
theorem nil (base : List Ancestor) : Through [] base where
  lineage := .nil
  apart := fun _ _ => List.not_mem_nil
  heard := fun _ => .inl rfl

/-- One more class without members leaves open what counts of the abstract declarations of the further
ancestors. -/
theorem pendingFor (h : Through ks base) {c : ClassDecl}
    (hc : c.Interposed (ks.map (·.declared)) base) (o : Options) (name : String) :
    ((c.resolve ks).check o).pendingFor name =
      Requirement.counted ((heardFrom base name).filter (·.isAbstract)) := by
  obtain ⟨near, hnear, hanc⟩ := hc.ancestors
  have hm : (c.resolve ks).members = [] := hc.members
  have hnone : ∀ m ∈ (c.resolve ks).members, m.name ≠ name := by simp [hm]
  obtain ⟨hoa, hoc⟩ := ClassDecl.own_eq_nil hnone
  rw [ClassDecl.pendingFor_of_undeclared (c := c.resolve ks) hc.isAbstract hoa hoc,
    ClassDecl.heard_resolve_append h.lineage hanc hnear h.apart]
  split
  · rfl
  · next hne =>
    rw [(h.heard name).resolve_left hne, List.filter_eq_self.mpr, Requirement.counted_counted]
    intro m hm
    exact (List.mem_filter.mp (Requirement.mem_of_mem_counted hm)).2

/-- One more interposed class passes everything on. -/
theorem concat (h : Through ks base) {c : ClassDecl}
    (hc : c.Interposed (ks.map (·.declared)) base) (o : Options) :
    Through (ks ++ [c.checkAfter ks o]) base where
  lineage := h.lineage.concat_of_fresh hc.isAbstract (by simpa using hc.fresh) o
  apart := by
    intro a ha hmem
    rw [List.map_append, List.mem_append] at hmem
    rcases hmem with hmem | hmem
    · exact h.apart a ha hmem
    · have hname : a.name = c.name := List.mem_singleton.mp hmem
      exact hc.apart (hname ▸ List.mem_map_of_mem ha)
  heard := by
    intro name
    have hoc : c.ownConcrete name = [] := by rw [ClassDecl.ownConcrete, hc.members]; rfl
    rw [heardAfter_concat, filter_handedOn, hoc, h.pendingFor hc]
    split
    · exact h.heard name
    · exact .inr rfl

/-- What holds of the classes checked so far holds after any number of classes without members. -/
theorem run (h : Through ks base) {cs : List ClassDecl}
    (hcs : InterposedAfter base (ks.map (·.declared)) cs) (o : Options) :
    Through (ks ++ checkOnwards o ks cs) base := by
  induction cs generalizing ks with
  | nil =>
    rw [checkOnwards, List.append_nil]
    exact h
  | cons c cs ih =>
    obtain ⟨hc, hcs⟩ := hcs
    rw [checkOnwards, List.append_cons]
    apply ih (h.concat hc o)
    rw [List.map_append]
    exact hcs

end Through

/-- An ancestor that declares every name only abstract or only concrete. -/
def Ancestor.Unmixed (a : Ancestor) : Prop :=
  ∀ m ∈ a.members, ∀ n ∈ a.members, m.name = n.name → m.isAbstract = n.isAbstract

instance (a : Ancestor) : Decidable a.Unmixed :=
  inferInstanceAs (Decidable (∀ m ∈ a.members, ∀ n ∈ a.members, _ → _))

/-- Where no ancestor mixes abstract and concrete declarations, whatever is heard of a name is
abstract if anything of it is. -/
theorem isAbstract_of_mem_heardFrom {as : List Ancestor} (h : ∀ a ∈ as, a.Unmixed) {name : String}
    (hne : (heardFrom as name).filter (·.isAbstract) ≠ []) :
    ∀ m ∈ heardFrom as name, m.isAbstract = true := by
  unfold heardFrom at hne ⊢
  cases hf : as.find? (·.mentions name) with
  | none => exact fun m hm => absurd hm (by simp)
  | some a =>
    rw [hf] at hne
    obtain ⟨n, hn⟩ := List.exists_mem_of_ne_nil _ hne
    obtain ⟨hn, habs⟩ := List.mem_filter.mp hn
    obtain ⟨hn, hname⟩ := List.mem_filter.mp hn
    intro m hm
    obtain ⟨hm, hname'⟩ := List.mem_filter.mp hm
    have heq : m.name = n.name := (beq_iff_eq.mp hname').trans (beq_iff_eq.mp hname).symm
    exact (h a (List.mem_of_find?_eq_some hf) m hm n hn heq).trans habs

/-- Abstract classes without members, put between a class and ancestors that do not mix abstract and
concrete declarations of a name, are transparent: under every name the class reports the same codes
and leaves the same declarations open as without them. -/
theorem checkHierarchy_interposed {leaf : ClassDecl} (hleaf : ∀ a ∈ leaf.ancestors, a.Unmixed)
    {cs : List ClassDecl} (hcs : InterposedAfter leaf.ancestors [] cs) {near : List Ancestor}
    (hnear : StandFor near cs) (o : Options) :
    ∃ r, (checkHierarchy (cs ++ [{ leaf with ancestors := near ++ leaf.ancestors }]) o).getLast? =
        some r ∧
      ∀ name,
        (r.violationsFor name).map (·.code) = ((leaf.check o).violationsFor name).map (·.code)
          ∧ r.pendingFor name = (leaf.check o).pendingFor name := by
  have hthrough : Through (checkOnwards o [] cs) leaf.ancestors := (Through.nil _).run hcs o
  have hstand : StandFor near ((checkOnwards o [] cs).map (·.declared)) := by
    rwa [declared_checkOnwards]
  refine ⟨_, getLast?_checkHierarchy cs _ o, fun name => ?_⟩
  have halike : leaf.HeardAlike ({ leaf with ancestors := near ++ leaf.ancestors }.resolve
      (checkOnwards o [] cs)) name := by
    unfold ClassDecl.HeardAlike
    rw [ClassDecl.heard_resolve_append hthrough.lineage rfl hstand hthrough.apart,
      ClassDecl.heard_eq]
    split
    · exact .inl rfl
    · next hne =>
      have hheard := (hthrough.heard name).resolve_left hne
      rw [hheard] at hne ⊢
      have habs := isAbstract_of_mem_heardFrom hleaf (mt Requirement.counted_eq_nil_iff.mpr hne)
      rw [List.filter_eq_self.mpr habs]
      exact .inr ⟨habs, rfl⟩
  exact halike.check rfl rfl rfl o

/-- A class that makes a readonly field assignable and leaves out the accessors of an interface. -/
def book : ClassDecl :=
  ⟨"Book", false, [.concrete .field "Book" "id" (.keyword .number)],
    [.ofInterface "Titled" [.concrete .setAccessor "Titled" "title" (.keyword .string),
        .concrete .getAccessor "Titled" "title" (.keyword .string)],
      .ofClass "Entity" [(Member.concrete .field "Entity" "id" (.keyword .number)).asReadonly]]⟩

/-- Two classes between it and these ancestors. -/
def shelves : List ClassDecl :=
  [⟨"Item", true, [], book.ancestors⟩, ⟨"Volume", true, [], .ofClass "Item" [] :: book.ancestors⟩]

/-- The book is checked below the shelves as it is without them. -/
theorem book_below_shelves :
    ∃ r, (checkHierarchy (shelves ++ [{ book with ancestors :=
        [.ofClass "Volume" [], .ofClass "Item" []] ++ book.ancestors }]) .initial).getLast? = some r ∧
      (r.violationsFor "title").map (·.code) = [.unimplemented] ∧
      (r.violationsFor "id").map (·.code) = [.readonlyViolation] := by
  have hshelves : InterposedAfter book.ancestors [] shelves :=
    ⟨⟨rfl, rfl, by decide, by decide, [], ⟨rfl, nofun⟩, rfl⟩,
      ⟨rfl, rfl, by decide, by decide, [.ofClass "Item" []], ⟨rfl, by decide⟩, rfl⟩, trivial⟩
  have hnear : StandFor [.ofClass "Volume" [], .ofClass "Item" []] shelves := ⟨rfl, by decide⟩
  have hbook : ∀ a ∈ book.ancestors, a.Unmixed := by decide
  obtain ⟨r, hr, hsame⟩ := checkHierarchy_interposed hbook hshelves hnear .initial
  exact ⟨r, hr, (hsame "title").1.trans (by decide), (hsame "id").1.trans (by decide)⟩

end ClassContract
