import ClassContract.Proofs.Independence
import ClassContract.Proofs.Pending
import ClassContract.Report.Hierarchy

/-!
# Where the types of handed-down declarations come from

A class hands down declarations that it or an ancestor made, and halves of properties that take
their type from such a declaration. So every property of types that holds of all declared types holds
of all types handed down, and it keeps doing so while the classes of a hierarchy are resolved against
each other and checked: `handsDownOnly_checkAll` and `handsDownOnly_checkHierarchy`.
-/

namespace ClassContract

open Finding

/-- All types that a class and its ancestors declare have a property. -/
structure ClassDecl.DeclaresOnly (c : ClassDecl) (P : MemberType → Prop) : Prop where
  /-- The types of its own members have it. -/
  own : ∀ m ∈ c.members, P m.type
  /-- The types of the members of its ancestors have it. -/
  inherited : ∀ a ∈ c.ancestors, ∀ m ∈ a.members, P m.type

/-- All types of the declarations that a report leaves to subclasses have a property. -/
def Report.HandsDownOnly (r : Report) (P : MemberType → Prop) : Prop := ∀ m ∈ r.pending, P m.type

namespace Subject

/-- The rules for an implementation leave open halves of what is required. -/
theorem exists_of_mem_deferrals_provision {s : Subject} {name : String} {r : Option Requirement}
    {constraint : Option Member} {p : Provision} {m : Member}
    (h : m ∈ deferrals (s.provision name r constraint p)) :
    ∃ q, r = some q ∧ ∃ source ∈ q.members, m.type = source.type := by
  obtain ⟨q, rfl, g, hg, rfl⟩ := exists_gap_of_mem_deferrals_provision h
  exact ⟨q, rfl, g.source, mem_members_of_mem_gaps hg, rfl⟩

end Subject

namespace Group

/-- An unmet demand leaves nothing to subclasses but what is demanded. -/
theorem mem_demanded_of_mem_deferrals_unmet {s : Subject} {g : Group} {m : Member}
    (h : m ∈ deferrals (g.unmet s)) : m ∈ g.demanded := by
  unfold unmet at h
  split at h
  · cases h
  · next r hr =>
    split at h
    · cases h
    · split at h
      · rw [deferrals_map_deferral] at h
        exact mem_demanded_of_mem_members hr h
      · cases h

/-- What the rules for a name leave open has the type of a declaration that is demanded. -/
theorem exists_of_mem_deferrals_findings {s : Subject} {g : Group} {m : Member}
    (h : m ∈ deferrals (g.findings s)) : ∃ source ∈ g.demanded, m.type = source.type := by
  rw [findings_eq, deferrals_append, deferrals_append] at h
  rcases List.mem_append.mp h with h | h
  · rcases List.mem_append.mp h with h | h
    · cases h
    · exact ⟨m, mem_demanded_of_mem_deferrals_unmet h, rfl⟩
  · rw [fullCheck, s.deferrals_fullCheck] at h
    cases hp : Provision.ofMembers? g.ownConcrete with
    | none =>
      rw [hp] at h
      cases h
    | some p =>
      rw [hp] at h
      obtain ⟨r, hr, source, hsource, htype⟩ := Subject.exists_of_mem_deferrals_provision h
      exact ⟨source, mem_demanded_of_mem_members hr hsource, htype⟩

end Group

namespace ClassDecl

/-- The entries of a class have the types that it declares. -/
theorem DeclaresOnly.of_mem_entries {c : ClassDecl} {P : MemberType → Prop} (h : c.DeclaresOnly P)
    {e : Entry} (he : e ∈ c.entries) : P e.member.type := by
  rcases List.mem_append.mp he with he | he
  · obtain ⟨a, ha, hm⟩ := exists_of_mem_inheritedEntries he
    exact h.inherited a ha e.member hm
  · obtain ⟨m, hm, rfl⟩ := List.mem_map.mp he
    exact h.own m hm

/-- A class hands down types that it or an ancestor declares. -/
theorem DeclaresOnly.check {c : ClassDecl} {P : MemberType → Prop} (h : c.DeclaresOnly P)
    (o : Options) : (c.check o).HandsDownOnly P := by
  intro m hm
  have hm : m ∈ deferrals (c.findings o) := mem_of_mem_distinct hm
  rw [deferrals_findings] at hm
  rcases List.mem_append.mp hm with hm | hm
  · obtain ⟨name, _, hm⟩ := List.mem_flatMap.mp hm
    obtain ⟨source, hsource, htype⟩ := Group.exists_of_mem_deferrals_findings hm
    obtain ⟨_, e, he, rfl⟩ := Group.mem_entries_of_mem_demanded hsource
    rw [htype]
    exact h.of_mem_entries (List.mem_filter.mp he).1
  · split at hm
    · exact h.own m (List.mem_filter.mp hm).1
    · cases hm

end ClassDecl

/-- A checked class that declares and hands down only types with a property. -/
structure Checked.TypesOnly (k : Checked) (P : MemberType → Prop) : Prop where
  /-- Its declaration has only such types. -/
  declared : k.declared.DeclaresOnly P
  /-- Its report hands down only such types. -/
  report : k.report.HandsDownOnly P

/-- Resolving an ancestor brings in types of the class it names. -/
theorem Ancestor.typesOnly_resolve {before : List Checked} {P : MemberType → Prop}
    (hbefore : ∀ k ∈ before, k.TypesOnly P) {a : Ancestor} (ha : ∀ m ∈ a.members, P m.type) :
    ∀ m ∈ (a.resolve before).members, P m.type := by
  unfold resolve
  split
  · next k hk =>
    have hchecked := hbefore k (List.mem_of_find?_eq_some hk)
    intro m hm
    rcases mem_or_mem_of_mem_addAllNew hm with hm | hm
    · exact hchecked.report m hm
    · rcases List.mem_append.mp (List.mem_filter.mp hm).1 with hm | hm
      · exact hchecked.declared.own m hm
      · exact ha m hm
  · exact ha

/-- A class declares no other types after it is resolved. -/
theorem ClassDecl.DeclaresOnly.resolve {before : List Checked} {P : MemberType → Prop}
    (hbefore : ∀ k ∈ before, k.TypesOnly P) {c : ClassDecl} (h : c.DeclaresOnly P) :
    (c.resolve before).DeclaresOnly P := by
  refine ⟨h.own, fun b hb => ?_⟩
  obtain ⟨a, ha, rfl⟩ := List.mem_map.mp hb
  exact Ancestor.typesOnly_resolve hbefore (h.inherited a ha)

/-- Checking one more class brings in no other types. -/
theorem ClassDecl.DeclaresOnly.checkAfter {before : List Checked} {P : MemberType → Prop}
    (hbefore : ∀ k ∈ before, k.TypesOnly P) {c : ClassDecl} (h : c.DeclaresOnly P)
    (o : Options) : (c.checkAfter before o).TypesOnly P :=
  ⟨h, (h.resolve hbefore).check o⟩

/-- Classes checked one after the other use no types but those declared. -/
theorem typesOnly_checkOnwards {P : MemberType → Prop} (o : Options) {before : List Checked}
    (hbefore : ∀ k ∈ before, k.TypesOnly P) {cs : List ClassDecl}
    (hcs : ∀ c ∈ cs, c.DeclaresOnly P) : ∀ k ∈ checkOnwards o before cs, k.TypesOnly P := by
  induction cs generalizing before with
  | nil => exact fun k hk => absurd hk List.not_mem_nil
  | cons c cs ih =>
    rw [List.forall_mem_cons] at hcs
    have hc := hcs.1.checkAfter hbefore o
    have hlonger : ∀ k ∈ before ++ [c.checkAfter before o], k.TypesOnly P :=
      List.forall_mem_append.mpr ⟨hbefore, List.forall_mem_singleton.mpr hc⟩
    exact List.forall_mem_cons.mpr ⟨hc, ih hlonger hcs.2⟩

/-- The reports hand down no types but those declared. -/
theorem handsDownOnly_checkAll {P : MemberType → Prop} {cs : List ClassDecl}
    (hcs : ∀ c ∈ cs, c.DeclaresOnly P) (o : Options) :
    ∀ r ∈ checkAll cs o, r.HandsDownOnly P := by
  intro r hr
  obtain ⟨c, hc, rfl⟩ := List.mem_map.mp hr
  exact (hcs c hc).check o

/-- A whole hierarchy hands down types that its classes and their ancestors declare. -/
theorem handsDownOnly_checkHierarchy {P : MemberType → Prop} {cs : List ClassDecl}
    (hcs : ∀ c ∈ cs, c.DeclaresOnly P) (o : Options) :
    ∀ r ∈ checkHierarchy cs o, r.HandsDownOnly P := by
  intro r hr
  obtain ⟨k, hk, rfl⟩ := List.mem_map.mp hr
  exact (typesOnly_checkOnwards o (fun _ h => absurd h List.not_mem_nil) hcs k hk).report

end ClassContract
