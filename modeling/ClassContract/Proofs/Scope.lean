import ClassContract.Proofs.Distinct
import ClassContract.Scope.Basic

/-!
# The declarations in scope under one name

The scope of a class has one group for each name. The group of a name holds what the nearest
ancestor that mentions the name passes on, and then what the class itself declares under it. The
statements of this module give the parts of a group directly in terms of the class:
`ownAbstract_groupOf` and `ownConcrete_groupOf` for the class itself, `filter_inheritedEntries`,
`inheritedAbstract_groupOf` and `inheritedConstraints_groupOf` for the ancestors.
-/

namespace ClassContract

/-- A declaration that forbids assignment, where `ms` are all declarations of its name that stand
beside it. -/
def Member.forbidsWritingAmong (ms : List Member) (m : Member) : Bool :=
  match m.kind with
  | .field => m.isReadonly
  | .getAccessor => !ms.any (·.kind == .setAccessor)
  | .method | .setAccessor => false

namespace Ancestor

/-- Whether a declaration forbids assignment depends on the declarations of its name alone. -/
theorem forbidsWriting_eq (a : Ancestor) (m : Member) :
    a.forbidsWriting m = m.forbidsWritingAmong (a.members.filter (·.name == m.name)) := by
  unfold forbidsWriting Member.forbidsWritingAmong
  cases m.kind with
  | getAccessor => simp only [List.any_filter]
  | _ => rfl

/-- Whether an ancestor declares anything under a name. -/
def mentions (a : Ancestor) (name : String) : Bool := a.members.any (·.name == name)

/-- The entries that an ancestor contributes for a name it is the nearest to mention. -/
def entriesFor (a : Ancestor) (name : String) : List Entry :=
  (a.members.filter fun m => m.name == name && (m.isAbstract || a.forbidsWriting m)).map
    (⟨·, .inherited a.name⟩)

/-- An ancestor that does not mention a name has no entries for it. -/
theorem entriesFor_eq_nil {a : Ancestor} {name : String} (h : a.mentions name = false) :
    a.entriesFor name = [] := by
  have hm : ∀ m ∈ a.members, (m.name == name) = false := by simpa [mentions] using h
  rw [entriesFor, List.map_eq_nil_iff, List.filter_eq_nil_iff]
  intro m hmem
  simp [hm m hmem]

/-- A name that no nearer ancestor speaks for is passed on in full. -/
theorem filter_passedOn (a : Ancestor) {name : String} {taken : List String} (h : name ∉ taken) :
    ((a.passedOn taken).map (⟨·, .inherited a.name⟩ : Member → Entry)).filter
      (·.member.name == name) = a.entriesFor name := by
  rw [List.filter_map, entriesFor, passedOn, List.filter_filter]
  congr 1
  apply List.filter_congr
  intro m _
  by_cases hm : m.name = name
  · simp [hm, h]
  · simp [beq_eq_false_iff_ne.mpr hm]

end Ancestor

/-- What ancestors declare under a name, as far as a class below them hears of it. -/
def heardFrom (as : List Ancestor) (name : String) : List Member :=
  ((as.find? (·.mentions name)).elim [] (·.members)).filter (·.name == name)

/-- Farther ancestors are heard where the nearer ones declare nothing. -/
theorem heardFrom_append (as bs : List Ancestor) (name : String) :
    heardFrom (as ++ bs) name =
      if heardFrom as name = [] then heardFrom bs name else heardFrom as name := by
  unfold heardFrom
  rw [List.find?_append]
  cases ha : as.find? (·.mentions name) with
  | none => simp
  | some a =>
    have hne : a.members.filter (·.name == name) ≠ [] := by
      have hm : a.mentions name = true := by simpa using List.find?_some ha
      simpa [Ancestor.mentions, List.filter_eq_nil_iff] using hm
    simp [hne]

namespace ClassDecl

/-- The ancestor that speaks for a name: the nearest that mentions it. -/
def spokesman? (c : ClassDecl) (name : String) : Option Ancestor :=
  c.ancestors.find? (·.mentions name)

/-- What the ancestors declare under a name, as far as the class hears of it. -/
def heard (c : ClassDecl) (name : String) : List Member :=
  ((c.spokesman? name).elim [] (·.members)).filter (·.name == name)

theorem heard_eq (c : ClassDecl) (name : String) : c.heard name = heardFrom c.ancestors name := rfl

/-- The abstract declarations of a name by the class itself. -/
def ownAbstract (c : ClassDecl) (name : String) : List Member :=
  c.members.filter fun m => m.name == name && m.isAbstract

/-- The implementations of a name by the class itself. -/
def ownConcrete (c : ClassDecl) (name : String) : List Member :=
  c.members.filter fun m => m.name == name && !m.isAbstract

/-- The abstract members of a class are abstract. -/
theorem isAbstract_of_mem_ownAbstract {c : ClassDecl} {name : String} {m : Member}
    (h : m ∈ c.ownAbstract name) : m.isAbstract = true :=
  (Bool.and_eq_true_iff.mp (List.mem_filter.mp h).2).2

/-- The concrete members of a class are not abstract. -/
theorem isAbstract_of_mem_ownConcrete {c : ClassDecl} {name : String} {m : Member}
    (h : m ∈ c.ownConcrete name) : m.isAbstract = false := by
  simpa using (Bool.and_eq_true_iff.mp (List.mem_filter.mp h).2).2

/-- A name that is taken is not inherited. -/
theorem filter_inheritedEntries_of_mem {name : String} {taken : List String} (h : name ∈ taken)
    (as : List Ancestor) : (inheritedEntries taken as).filter (·.member.name == name) = [] := by
  induction as generalizing taken with
  | nil => rfl
  | cons a farther ih =>
    rw [inheritedEntries, List.filter_append, ih (List.mem_append_left _ h), List.append_nil,
      List.filter_eq_nil_iff]
    intro e he
    obtain ⟨m, hm, rfl⟩ := List.mem_map.mp he
    have ht : m.name ∉ taken := by
      have := (List.mem_filter.mp hm).2
      simp only [Bool.and_eq_true, Bool.not_eq_true', List.contains_eq_mem] at this
      simpa using this.1
    simp only [beq_iff_eq]
    rintro rfl
    exact ht h

/-- Only the nearest ancestor that mentions a name contributes entries for it. -/
theorem filter_inheritedEntries {name : String} {taken : List String} (h : name ∉ taken)
    (as : List Ancestor) :
    (inheritedEntries taken as).filter (·.member.name == name) =
      (as.find? (·.mentions name)).elim [] (·.entriesFor name) := by
  induction as generalizing taken with
  | nil => rfl
  | cons a farther ih =>
    rw [inheritedEntries, List.filter_append, Ancestor.filter_passedOn a h]
    by_cases ha : a.mentions name = true
    · have hmem : name ∈ taken ++ a.members.map (·.name) := by
        simp only [Ancestor.mentions, List.any_eq_true, beq_iff_eq] at ha
        exact List.mem_append_right _ (List.mem_map.mpr ha)
      rw [filter_inheritedEntries_of_mem hmem, List.append_nil, List.find?_cons, ha]
      rfl
    · have hmem : name ∉ taken ++ a.members.map (·.name) := by
        simp only [Ancestor.mentions, List.any_eq_true, beq_iff_eq] at ha
        rw [List.mem_append, List.mem_map]
        exact fun h' => h'.elim h ha
      have ha := Bool.eq_false_iff.mpr ha
      rw [ih hmem, Ancestor.entriesFor_eq_nil ha, List.nil_append, List.find?_cons, ha]

/-- The entries of a name: those of the ancestor that speaks for it, then those of the class. -/
theorem entries_groupOf (c : ClassDecl) (name : String) :
    (c.groupOf name).entries = (c.spokesman? name).elim [] (·.entriesFor name)
      ++ (c.members.filter (·.name == name)).map (⟨·, .own⟩) := by
  rw [groupOf, entries, List.filter_append, filter_inheritedEntries List.not_mem_nil,
    List.filter_map]
  rfl

/-- The entries of a group have its name. -/
theorem name_of_mem_groupOf {c : ClassDecl} {name : String} {e : Entry}
    (h : e ∈ (c.groupOf name).entries) : e.member.name = name :=
  beq_iff_eq.mp (List.mem_filter.mp h).2

/-- Selecting from a group by a test that inherited entries fail selects own members. -/
theorem select_groupOf_own (c : ClassDecl) (name : String) {p : Entry → Bool}
    (hp : ∀ m a, p ⟨m, .inherited a⟩ = false) :
    (c.groupOf name).select p = c.members.filter fun m => m.name == name && p ⟨m, .own⟩ := by
  have hi : ((c.spokesman? name).elim [] (·.entriesFor name)).filter p = [] := by
    rw [List.filter_eq_nil_iff]
    intro e he
    cases hs : c.spokesman? name with
    | none => simp [hs] at he
    | some a =>
      rw [hs] at he
      obtain ⟨m, _, rfl⟩ := List.mem_map.mp he
      simp [hp]
  rw [Group.select, entries_groupOf, List.filter_append, hi, List.nil_append, List.filter_map,
    List.map_map, List.filter_filter]
  simp [Function.comp_def, Bool.and_comm]

/-- A group has the abstract members that the class itself declares. -/
theorem ownAbstract_groupOf (c : ClassDecl) (name : String) :
    (c.groupOf name).ownAbstract = c.ownAbstract name := by
  rw [Group.ownAbstract, select_groupOf_own]
  · rfl
  · intro m a
    rfl

/-- A group has the concrete members that the class itself declares. -/
theorem ownConcrete_groupOf (c : ClassDecl) (name : String) :
    (c.groupOf name).ownConcrete = c.ownConcrete name := by
  rw [Group.ownConcrete, select_groupOf_own]
  · rfl
  · intro m a
    rfl

/-- Selecting from a group by a test that own entries fail selects from what the class hears what
the ancestor passes on. -/
theorem select_groupOf_inherited (c : ClassDecl) (name : String) {p : Entry → Bool}
    {q : Member → Bool} (hown : ∀ m, p ⟨m, .own⟩ = false) (hp : ∀ m a, p ⟨m, .inherited a⟩ = q m) :
    (c.groupOf name).select p = (c.heard name).filter fun m =>
      q m && (m.isAbstract || m.forbidsWritingAmong (c.heard name)) := by
  have ho : ((c.members.filter (·.name == name)).map (⟨·, .own⟩ : Member → Entry)).filter p =
      [] := by
    rw [List.filter_eq_nil_iff]
    intro e he
    obtain ⟨m, _, rfl⟩ := List.mem_map.mp he
    simp [hown]
  rw [Group.select, entries_groupOf, List.filter_append, ho, List.append_nil, heard]
  cases c.spokesman? name with
  | none => rfl
  | some a =>
    simp only [Option.elim_some, Ancestor.entriesFor, List.filter_map, List.map_map,
      List.filter_filter]
    rw [show (Entry.member ∘ fun m : Member => (⟨m, .inherited a.name⟩ : Entry)) = id from rfl,
      List.map_id]
    apply List.filter_congr
    intro m _
    by_cases hm : m.name = name
    · rw [Ancestor.forbidsWriting_eq, hm]
      simp [hp]
    · simp [beq_eq_false_iff_ne.mpr hm]

/-- The abstract declarations that a class inherits are those it hears of. -/
theorem inheritedAbstract_groupOf (c : ClassDecl) (name : String) :
    (c.groupOf name).inheritedAbstract = (c.heard name).filter (·.isAbstract) := by
  rw [Group.inheritedAbstract, select_groupOf_inherited (q := (·.isAbstract))]
  · apply List.filter_congr
    intro m _
    cases m.isAbstract <;> rfl
  · intro m
    rfl
  · intro m a
    rfl

/-- The constraints that a class inherits are the concrete declarations it hears of that forbid
assignment. -/
theorem inheritedConstraints_groupOf (c : ClassDecl) (name : String) :
    (c.groupOf name).inheritedConstraints = (c.heard name).filter fun m =>
      !m.isAbstract && m.forbidsWritingAmong (c.heard name) := by
  rw [Group.inheritedConstraints, select_groupOf_inherited (q := (!·.isAbstract))]
  · apply List.filter_congr
    intro m _
    cases m.isAbstract <;> rfl
  · intro m
    rfl
  · intro m a
    rfl

/-- The names of a class are distinct. -/
theorem nodup_names (c : ClassDecl) : c.names.Nodup := nodup_distinct _

/-- A name is in scope when there is an entry for it. -/
theorem entries_groupOf_eq_nil {c : ClassDecl} {name : String} (h : name ∉ c.names) :
    (c.groupOf name).entries = [] := by
  rw [groupOf, List.filter_eq_nil_iff]
  intro e he hn
  have hmem : e.member.name ∈ c.names := mem_distinct.mpr (List.mem_map_of_mem he)
  exact h (beq_iff_eq.mp hn ▸ hmem)

end ClassDecl

end ClassContract
