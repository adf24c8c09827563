import ClassContract.Proofs.PerName

/-!
# Names are checked independently

A class restricted to a name has only the members of that name, and so have its ancestors.
Restriction keeps the ancestor that speaks for the name and with it the group of the name, and it
leaves no other name in scope. So the report on a class is put together from the reports on its
restrictions: `check_names_independent`.
-/

namespace ClassContract

open Finding

namespace Ancestor

/-- The ancestor with the members of one name alone. -/
def only (a : Ancestor) (name : String) : Ancestor :=
  { a with members := a.members.filter (·.name == name) }

/-- Restriction to a name does not change whether that name is mentioned. -/
theorem mentions_only (a : Ancestor) (name : String) :
    (a.only name).mentions name = a.mentions name := by
  simp [only, mentions, List.any_filter]

/-- A declaration forbids assignment among those of its name as it does among all. -/
theorem forbidsWriting_only (a : Ancestor) (m : Member) :
    (a.only m.name).forbidsWriting m = a.forbidsWriting m := by
  rw [forbidsWriting_eq, forbidsWriting_eq, only, List.filter_filter]
  simp

/-- Restriction keeps what an ancestor contributes for the name. -/
theorem entriesFor_only (a : Ancestor) (name : String) :
    (a.only name).entriesFor name = a.entriesFor name := by
  rw [entriesFor, entriesFor, only, List.filter_filter]
  congr 1
  apply List.filter_congr
  intro m _
  by_cases hm : m.name = name
  · have hf : (a.only name).forbidsWriting m = a.forbidsWriting m := hm ▸ a.forbidsWriting_only m
    rw [only] at hf
    simp [hm, hf]
  · simp [beq_eq_false_iff_ne.mpr hm]

end Ancestor

namespace ClassDecl

/-- The class with the members of one name alone, its own and those of its ancestors. -/
def only (c : ClassDecl) (name : String) : ClassDecl :=
  { c with
    members := c.members.filter (·.name == name)
    ancestors := c.ancestors.map (·.only name) }

/-- The same ancestor speaks for the name. -/
theorem spokesman?_only (c : ClassDecl) (name : String) :
    (c.only name).spokesman? name = (c.spokesman? name).map (·.only name) := by
  rw [spokesman?, only, List.find?_map, spokesman?]
  congr 2
  funext a
  exact a.mentions_only name

/-- Restriction keeps the group of the name. -/
theorem groupOf_only (c : ClassDecl) (name : String) :
    (c.only name).groupOf name = c.groupOf name := by
  have hentries : ((c.only name).groupOf name).entries = (c.groupOf name).entries := by
    have hown : (c.only name).members.filter (·.name == name) =
        c.members.filter (·.name == name) := by
      simp [only, List.filter_filter]
    rw [entries_groupOf, entries_groupOf, hown, spokesman?_only]
    cases c.spokesman? name with
    | none => rfl
    | some a => simp [a.entriesFor_only name]
  rw [groupOf, groupOf] at hentries ⊢
  exact congrArg (Group.mk name) hentries

/-- Ancestors pass on members that they have. -/
theorem exists_of_mem_inheritedEntries {taken : List String} {as : List Ancestor} {e : Entry}
    (h : e ∈ inheritedEntries taken as) : ∃ a ∈ as, e.member ∈ a.members := by
  induction as generalizing taken with
  | nil => cases h
  | cons a farther ih =>
    rcases List.mem_append.mp h with h | h
    · obtain ⟨m, hm, rfl⟩ := List.mem_map.mp h
      exact ⟨a, List.mem_cons_self, (List.mem_filter.mp hm).1⟩
    · obtain ⟨b, hb, hm⟩ := ih h
      exact ⟨b, List.mem_cons_of_mem a hb, hm⟩

/-- A restricted class has no other name in scope. -/
theorem eq_of_mem_names_only {c : ClassDecl} {name other : String}
    (h : other ∈ (c.only name).names) : other = name := by
  obtain ⟨e, he, rfl⟩ := List.mem_map.mp (mem_of_mem_distinct h)
  rcases List.mem_append.mp he with he | he
  · obtain ⟨a, ha, hm⟩ := exists_of_mem_inheritedEntries he
    obtain ⟨b, _, rfl⟩ := List.mem_map.mp ha
    exact beq_iff_eq.mp (List.mem_filter.mp hm).2
  · obtain ⟨m, hm, rfl⟩ := List.mem_map.mp he
    exact beq_iff_eq.mp (List.mem_filter.mp hm).2

/-- All violations of a restricted class are violations of the name. -/
theorem violations_check_only (c : ClassDecl) (o : Options) (name : String) :
    ((c.only name).check o).violations = ((c.only name).check o).violationsFor name := by
  refine (List.filter_eq_self.mpr fun v hv => ?_).symm
  rw [check, violations_findings] at hv
  obtain ⟨other, hother, hv⟩ := List.mem_flatMap.mp hv
  have hmember := (((c.only name).allWithin_findings_groupOf _ other).violation hv).1
  rw [hmember, eq_of_mem_names_only hother, beq_self_eq_true]

/-- All that a restricted class leaves to subclasses has the name. -/
theorem pending_check_only (c : ClassDecl) (o : Options) (name : String) :
    ((c.only name).check o).pending = ((c.only name).check o).pendingFor name := by
  refine (List.filter_eq_self.mpr fun m hm => ?_).symm
  have hm : m ∈ deferrals ((c.only name).findings o) := mem_of_mem_distinct hm
  rw [deferrals_findings] at hm
  rcases List.mem_append.mp hm with hm | hm
  · obtain ⟨other, hother, hm⟩ := List.mem_flatMap.mp hm
    have hname := (((c.only name).allWithin_findings_groupOf _ other).deferral hm).1
    rw [hname, eq_of_mem_names_only hother, beq_self_eq_true]
  · split at hm
    · exact (List.mem_filter.mp (List.mem_filter.mp hm).1).2
    · cases hm

/-- The violations of a name are the violations of the class restricted to it. -/
theorem violationsFor_eq_only (c : ClassDecl) (o : Options) (name : String) :
    (c.check o).violationsFor name = ((c.only name).check o).violations := by
  rw [violations_check_only, violationsFor_check, violationsFor_check, groupOf_only]
  rfl

/-- What is left to subclasses under a name is what the class restricted to it leaves to them. -/
theorem pendingFor_eq_only (c : ClassDecl) (o : Options) (name : String) :
    (c.check o).pendingFor name = ((c.only name).check o).pending := by
  have hown : (c.only name).ownAbstract name = c.ownAbstract name := by
    rw [ownAbstract, only, List.filter_filter, ownAbstract]
    apply List.filter_congr
    intro m _
    cases m.name == name <;> simp
  rw [pending_check_only, pendingFor_check, pendingFor_check, groupOf_only, hown]
  rfl

/-- Names are checked independently: under every name a class reports exactly what it reports when
all members of other names are removed, its own and those of its ancestors, and it leaves exactly the
same to its subclasses. The whole report goes through the names in scope one after the other. -/
theorem check_names_independent (c : ClassDecl) (o : Options) :
    (∀ name, (c.check o).violationsFor name = ((c.only name).check o).violations ∧
      (c.check o).pendingFor name = ((c.only name).check o).pending) ∧
    (c.check o).violations = c.names.flatMap fun name => ((c.only name).check o).violations := by
  refine ⟨fun name => ⟨c.violationsFor_eq_only o name, c.pendingFor_eq_only o name⟩, ?_⟩
  have hname : ∀ name, violations ((c.groupOf name).findings (.ofClass c o)) =
      ((c.only name).check o).violations := fun name => by
    rw [← violationsFor_check, violationsFor_eq_only]
  rw [check, violations_findings]
  exact congrArg c.names.flatMap (funext hname)

end ClassDecl

end ClassContract
