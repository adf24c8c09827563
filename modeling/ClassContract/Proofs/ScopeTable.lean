import ClassContract.Proofs.Scope

/-!
# The scope of a class as a table

The scope is a table with one row for each name in which something is recorded. Read as a function
of the name it is given in closed form by `ClassDecl.tableEntries`: the nearest ancestor that
mentions the name contributes, and then the class itself. Read from top to bottom it is sorted by
places: `RecordedAt` says where a name is recorded, and a name whose first place is earlier stands
higher up. `scope_eq_table` says both.
-/

namespace ClassContract

/-- The name `a` occurs in a list before the name `b` does. -/
def EarlierIn (names : List String) (a b : String) : Prop :=
  ∃ before after, names = before ++ a :: after ∧ b ∉ before ∧ b ≠ a

/-- Names that are added behind do not change which of two is earlier. -/
theorem EarlierIn.append {names : List String} {a b : String} (h : EarlierIn names a b)
    (more : List String) : EarlierIn (names ++ more) a b := by
  obtain ⟨before, after, rfl, hb, hne⟩ := h
  exact ⟨before, after ++ more, by rw [List.append_assoc, List.cons_append], hb, hne⟩

/-- A name that occurs is earlier than one that does not occur yet. -/
theorem earlierIn_concat {names : List String} {a b : String} (ha : a ∈ names) (hb : b ∉ names) :
    EarlierIn (names ++ [b]) a b := by
  obtain ⟨before, after, rfl⟩ := List.append_of_mem ha
  have hbefore : b ∉ before := fun h => hb (List.mem_append_left _ h)
  have hne : b ≠ a := fun h => hb (h ▸ List.mem_append_right _ List.mem_cons_self)
  exact EarlierIn.append ⟨before, after, rfl, hbefore, hne⟩ [b]

/-- One more name keeps first occurrences in their order. -/
theorem pairwise_distinct_concat {names : List String}
    (h : (distinct names).Pairwise (EarlierIn names)) (x : String) :
    (distinct (names ++ [x])).Pairwise (EarlierIn (names ++ [x])) := by
  have hlonger : (distinct names).Pairwise (EarlierIn (names ++ [x])) :=
    h.imp fun hab => hab.append [x]
  rw [distinct_append]
  show (addNew (distinct names) x).Pairwise _
  unfold addNew
  split
  · exact hlonger
  · next hx =>
    have hfresh : x ∉ names := by simpa [mem_distinct] using hx
    refine List.pairwise_append.mpr ⟨hlonger, List.pairwise_singleton _ _, ?_⟩
    intro a ha b hb
    rw [List.mem_singleton.mp hb]
    exact earlierIn_concat (mem_distinct.mp ha) hfresh

/-- First occurrences stand in the order of the list. -/
theorem pairwise_distinct (names : List String) :
    (distinct names).Pairwise (EarlierIn names) := by
  suffices h : ∀ before, (distinct before).Pairwise (EarlierIn before) →
      (distinct (before ++ names)).Pairwise (EarlierIn (before ++ names)) from h [] .nil
  induction names with
  | nil => simp
  | cons x names ih =>
    intro before hbefore
    have hstep := ih (before ++ [x]) (pairwise_distinct_concat hbefore x)
    rwa [List.append_assoc] at hstep

/-- A declaration that an ancestor contributes: an abstract one, a readonly field, or a getter
without a setter of the same name beside it. -/
def Ancestor.Contributes (k : Ancestor) (m : Member) : Prop :=
  m.isAbstract = true ∨ (m.kind = .field ∧ m.isReadonly = true) ∨
    (m.kind = .getAccessor ∧ ∀ s ∈ k.members, s.name = m.name → s.kind ≠ .setAccessor)

instance (k : Ancestor) (m : Member) : Decidable (k.Contributes m) :=
  inferInstanceAs (Decidable (_ ∨ _ ∨ _))

/-- An ancestor contributes what is abstract and what it forbids to write to. -/
theorem Ancestor.contributes_iff {k : Ancestor} {m : Member} :
    k.Contributes m ↔ (m.isAbstract || k.forbidsWriting m) = true := by
  unfold Contributes forbidsWriting
  cases m.kind <;> simp

namespace ClassDecl

/-- The entries of a name: the declarations that the nearest ancestor mentioning it contributes, in
their order there, and then all own declarations of it in their order. -/
def tableEntries (c : ClassDecl) (name : String) : List Entry :=
  ((c.ancestors.find? (·.mentions name)).elim [] fun k =>
      (k.members.filter fun m => m.name = name ∧ k.Contributes m).map (⟨·, .inherited k.name⟩))
    ++ (c.members.filter fun m => m.name = name).map (⟨·, .own⟩)

/-- A name is recorded at the places of its entries. The first number of a place is that of the
ancestor, counted from the nearest on, or the number of all ancestors for the class itself; the
second number counts the members there. -/
def RecordedAt (c : ClassDecl) (name : String) (place : Nat × Nat) : Prop :=
  (∃ k m, c.ancestors[place.1]? = some k ∧ k.members[place.2]? = some m ∧ m.name = name ∧
      k.Contributes m ∧ ∀ a ∈ c.ancestors.take place.1, a.mentions name = false) ∨
    (place.1 = c.ancestors.length ∧ ∃ m, c.members[place.2]? = some m ∧ m.name = name)

/-- A declaration in scope and its place. -/
structure PlacedEntry where
  /-- Where the declaration stands. -/
  place : Nat × Nat
  /-- The declaration. -/
  entry : Entry

/-- The name of a placed declaration. -/
def PlacedEntry.name (e : PlacedEntry) : String := e.entry.member.name

/-- The declarations of a list that pass a test, placed under the number `i`. -/
def placedMembers (i : Nat) (origin : Origin) (p : Member → Bool) (ms : List Member) :
    List PlacedEntry :=
  (ms.zipIdx.filter fun m => p m.1).map fun m => ⟨(i, m.2), ⟨m.1, origin⟩⟩

/-- Without their places, the members of a declaration are its entries. -/
theorem map_entry_placedMembers (i : Nat) (origin : Origin) (p : Member → Bool)
    (ms : List Member) :
    (placedMembers i origin p ms).map PlacedEntry.entry = (ms.filter p).map (⟨·, origin⟩) := by
  have hfst : (ms.zipIdx.filter fun m => p m.1).map Prod.fst = ms.filter p := by
    have hmap := List.filter_map (f := Prod.fst) (p := p) (l := ms.zipIdx)
    rw [List.zipIdx_map_fst] at hmap
    exact hmap.symm
  rw [placedMembers, ← hfst, List.map_map, List.map_map]
  rfl

/-- A placed member stands in its declaration at its place. -/
theorem mem_placedMembers {i : Nat} {origin : Origin} {p : Member → Bool} {ms : List Member}
    {e : PlacedEntry} :
    e ∈ placedMembers i origin p ms ↔
      e.place.1 = i ∧ e.entry.origin = origin ∧ ms[e.place.2]? = some e.entry.member ∧
        p e.entry.member = true := by
  obtain ⟨⟨i', j⟩, ⟨m, origin'⟩⟩ := e
  simp only [placedMembers, List.mem_map, List.mem_filter, Prod.exists,
    List.mem_zipIdx_iff_getElem?, PlacedEntry.mk.injEq, Prod.mk.injEq, Entry.mk.injEq]
  constructor
  · rintro ⟨m', j', ⟨hm, hp⟩, ⟨rfl, rfl⟩, rfl, rfl⟩
    exact ⟨rfl, rfl, hm, hp⟩
  · rintro ⟨rfl, rfl, hm, hp⟩
    exact ⟨m, j, ⟨hm, hp⟩, ⟨rfl, rfl⟩, rfl, rfl⟩

/-- Inside one list the places rise. -/
theorem pairwise_placedMembers (i : Nat) (origin : Origin) (p : Member → Bool)
    (ms : List Member) :
    (placedMembers i origin p ms).Pairwise fun e f => e.place.lexLt f.place := by
  have hrise : ms.zipIdx.Pairwise fun a b => a.2 < b.2 := by
    have hindices : (ms.zipIdx.map Prod.snd).Pairwise (· < ·) := by
      rw [List.zipIdx_map_snd]
      exact List.pairwise_lt_range'
    exact List.pairwise_map.mp hindices
  exact List.pairwise_map.mpr ((hrise.filter _).imp fun h => .inr ⟨rfl, h⟩)

/-- The entries of ancestors with their places, where the first ancestor has the number `i`. -/
def placedInherited (i : Nat) (taken : List String) : List Ancestor → List PlacedEntry
  | [] => []
  | a :: farther =>
    placedMembers i (.inherited a.name)
        (fun m => !taken.contains m.name && (m.isAbstract || a.forbidsWriting m)) a.members
      ++ placedInherited (i + 1) (taken ++ a.members.map (·.name)) farther

/-- Without their places, inherited members are the inherited entries. -/
theorem map_entry_placedInherited (i : Nat) (taken : List String) (as : List Ancestor) :
    (placedInherited i taken as).map PlacedEntry.entry = inheritedEntries taken as := by
  induction as generalizing i taken with
  | nil => rfl
  | cons a farther ih =>
    rw [placedInherited, List.map_append, map_entry_placedMembers, ih, inheritedEntries]
    rfl

/-- An entry of an ancestor is a declaration that it contributes under a name that is not taken and
that no nearer ancestor mentions. -/
theorem mem_placedInherited {i : Nat} {taken : List String} {as : List Ancestor}
    {e : PlacedEntry} :
    e ∈ placedInherited i taken as ↔
      ∃ j k, e.place.1 = i + j ∧ as[j]? = some k ∧ e.entry.origin = .inherited k.name ∧
        k.members[e.place.2]? = some e.entry.member ∧ k.Contributes e.entry.member ∧
        e.name ∉ taken ∧ ∀ a ∈ as.take j, a.mentions e.name = false := by
  induction as generalizing i taken with
  | nil => simp [placedInherited]
  | cons a farther ih =>
    have hnear : e ∈ placedMembers i (.inherited a.name)
          (fun m => !taken.contains m.name && (m.isAbstract || a.forbidsWriting m)) a.members ↔
        e.place.1 = i ∧ e.entry.origin = .inherited a.name ∧
          a.members[e.place.2]? = some e.entry.member ∧ a.Contributes e.entry.member ∧
          e.name ∉ taken := by
      rw [mem_placedMembers, Ancestor.contributes_iff, Bool.and_eq_true, Bool.not_eq_true',
        List.contains_eq_mem, decide_eq_false_iff_not]
      exact and_congr_right fun _ => and_congr_right fun _ => and_congr_right fun _ => and_comm
    have htaken : e.name ∉ taken ++ a.members.map (·.name) ↔
        e.name ∉ taken ∧ a.mentions e.name = false := by
      simp [Ancestor.mentions]
    rw [placedInherited, List.mem_append, hnear, ih]
    constructor
    · rintro (⟨hi, horigin, hm, hk, hfree⟩ | ⟨j, k, hi, hk, horigin, hm, hcontributes, hfree, hfar⟩)
      · exact ⟨0, a, hi, rfl, horigin, hm, hk, hfree, by simp⟩
      · obtain ⟨hfree, hsilent⟩ := htaken.mp hfree
        refine ⟨j + 1, k, by omega, hk, horigin, hm, hcontributes, hfree, ?_⟩
        rw [List.take_succ_cons]
        exact List.forall_mem_cons.mpr ⟨hsilent, hfar⟩
    · rintro ⟨j, k, hi, hk, horigin, hm, hcontributes, hfree, hfar⟩
      cases j with
      | zero =>
        cases hk
        exact .inl ⟨hi, horigin, hm, hcontributes, hfree⟩
      | succ j =>
        rw [List.take_succ_cons, List.forall_mem_cons] at hfar
        exact .inr ⟨j, k, by omega, hk, horigin, hm, hcontributes,
          htaken.mpr ⟨hfree, hfar.1⟩, hfar.2⟩

/-- Inherited members are in the order of their places. -/
theorem pairwise_placedInherited (i : Nat) (taken : List String) (as : List Ancestor) :
    (placedInherited i taken as).Pairwise fun e f => e.place.lexLt f.place := by
  induction as generalizing i taken with
  | nil => exact .nil
  | cons a farther ih =>
    refine List.pairwise_append.mpr ⟨pairwise_placedMembers .., ih .., ?_⟩
    intro e he f hf
    have hfirst := (mem_placedMembers.mp he).1
    obtain ⟨j, k, hlater, _⟩ := mem_placedInherited.mp hf
    exact .inl (by omega)

/-- All entries in scope with their places. -/
def placedEntries (c : ClassDecl) : List PlacedEntry :=
  placedInherited 0 [] c.ancestors
    ++ placedMembers c.ancestors.length .own (fun _ => true) c.members

/-- Without their places, the members of a class are its entries. -/
theorem map_entry_placedEntries (c : ClassDecl) :
    c.placedEntries.map PlacedEntry.entry = c.entries := by
  rw [placedEntries, List.map_append, map_entry_placedInherited, map_entry_placedMembers,
    List.filter_eq_self.mpr fun _ _ => rfl]
  rfl

/-- The entries of a name stand at the places where the name is recorded. -/
theorem exists_placedEntries_iff {c : ClassDecl} {name : String} {place : Nat × Nat} :
    (∃ e ∈ c.placedEntries, e.place = place ∧ e.name = name) ↔ c.RecordedAt name place := by
  simp only [placedEntries, List.mem_append, mem_placedInherited, mem_placedMembers, RecordedAt,
    Nat.zero_add]
  constructor
  · rintro ⟨e, ⟨j, k, rfl, hk, _, hm, hcontributes, _, hfar⟩ | ⟨hi, _, hm, _⟩, rfl, rfl⟩
    · exact .inl ⟨k, e.entry.member, hk, hm, rfl, hcontributes, hfar⟩
    · exact .inr ⟨hi, e.entry.member, hm, rfl⟩
  · rintro (⟨k, m, hk, hm, rfl, hcontributes, hfar⟩ | ⟨hi, m, hm, rfl⟩)
    · exact ⟨⟨place, ⟨m, .inherited k.name⟩⟩, .inl ⟨place.1, k, rfl, hk, rfl, hm, hcontributes,
        List.not_mem_nil, hfar⟩, rfl, rfl⟩
    · exact ⟨⟨place, ⟨m, .own⟩⟩, .inr ⟨hi, rfl, hm, trivial⟩, rfl, rfl⟩

/-- Farther down in the scope stand later places. -/
theorem pairwise_placedEntries (c : ClassDecl) :
    c.placedEntries.Pairwise fun e f => e.place.lexLt f.place := by
  refine List.pairwise_append.mpr ⟨pairwise_placedInherited .., pairwise_placedMembers .., ?_⟩
  intro e he f hf
  obtain ⟨j, k, hplace, hk, _⟩ := mem_placedInherited.mp he
  have hlast := (mem_placedMembers.mp hf).1
  have hj := (List.getElem?_eq_some_iff.mp hk).1
  exact .inl (by omega)

/-- The table holds the entries of each group. -/
theorem tableEntries_eq (c : ClassDecl) (name : String) :
    c.tableEntries name = (c.groupOf name).entries := by
  have hentries : ∀ k : Ancestor,
      (k.members.filter fun m => m.name = name ∧ k.Contributes m).map
        (⟨·, .inherited k.name⟩ : Member → Entry) = k.entriesFor name := by
    intro k
    rw [Ancestor.entriesFor]
    congr 1
    apply List.filter_congr
    intro m _
    rw [Bool.eq_iff_iff]
    simp [Ancestor.contributes_iff]
  rw [entries_groupOf, tableEntries, spokesman?]
  simp only [hentries]
  congr 2

/-- The groups of a scope are named by the names of the class. -/
theorem map_name_scope (c : ClassDecl) : c.scope.map Group.name = c.names := by
  rw [scope, List.map_map]
  exact List.map_id _

/-- A class has the names under which its table holds something. -/
theorem mem_names_iff {c : ClassDecl} {name : String} :
    name ∈ c.names ↔ c.tableEntries name ≠ [] := by
  constructor
  · intro h
    obtain ⟨e, he, rfl⟩ := List.mem_map.mp (mem_distinct.mp h)
    rw [tableEntries_eq, groupOf]
    exact List.ne_nil_of_mem (List.mem_filter.mpr ⟨he, beq_self_eq_true _⟩)
  · intro h
    refine Decidable.byContradiction fun hname => h ?_
    rw [tableEntries_eq, entries_groupOf_eq_nil hname]

/-- A name has a row exactly if something is recorded for it. -/
theorem group?_eq (c : ClassDecl) (name : String) :
    c.group? name =
      if c.tableEntries name = [] then none else some ⟨name, c.tableEntries name⟩ := by
  rw [group?, scope, List.find?_map]
  have hfind : c.names.find? ((·.name == name) ∘ c.groupOf) =
      if c.tableEntries name = [] then none else some name := by
    split
    · next hnil =>
      refine List.find?_eq_none.mpr fun x hx hbeq => ?_
      have hxn : x = name := beq_iff_eq.mp hbeq
      exact mem_names_iff.mp hx (hxn ▸ hnil)
    · next hne =>
      refine List.find?_eq_some_iff_append.mpr ⟨beq_self_eq_true _, ?_⟩
      obtain ⟨before, after, hsplit, hfirst⟩ := List.eq_append_cons_of_mem (mem_names_iff.mpr hne)
      refine ⟨before, after, hsplit, fun x hx => ?_⟩
      have hxn : x ≠ name := fun h => hfirst (h ▸ hx)
      simpa [groupOf] using hxn
  rw [hfind, tableEntries_eq]
  split <;> rfl

/-- A name that stands higher up has a place before all places of the other. -/
theorem pairwise_names (c : ClassDecl) :
    c.names.Pairwise fun a b =>
      ∃ place, c.RecordedAt a place ∧ ∀ later, c.RecordedAt b later → place.lexLt later := by
  have hnames : c.names = distinct (c.placedEntries.map PlacedEntry.name) := by
    rw [names, ← map_entry_placedEntries, List.map_map]
    rfl
  rw [hnames]
  refine (pairwise_distinct _).imp ?_
  rintro a b ⟨before, after, hsplit, hbefore, hne⟩
  obtain ⟨higher, rest, hplaced, hhigher, hrest⟩ := List.map_eq_append_iff.mp hsplit
  obtain ⟨e, lower, rfl, rfl, hlower⟩ := List.map_eq_cons_iff.mp hrest
  have hsorted := c.pairwise_placedEntries
  rw [hplaced] at hsorted
  have hbelow := (List.pairwise_cons.mp (List.pairwise_append.mp hsorted).2.1).1
  refine ⟨e.place, exists_placedEntries_iff.mp ⟨e, ?_, rfl, rfl⟩, fun later hlater => ?_⟩
  · rw [hplaced]
    exact List.mem_append_right _ List.mem_cons_self
  · obtain ⟨f, hf, rfl, hname⟩ := exists_placedEntries_iff.mpr hlater
    rw [hplaced] at hf
    rcases List.mem_append.mp hf with hf | hf
    · exact absurd (hname ▸ hhigher ▸ List.mem_map_of_mem hf) hbefore
    · rcases List.mem_cons.mp hf with rfl | hf
      · exact absurd hname.symm hne
      · exact hbelow f hf

/-- The scope of a class as a table: a name has the row of its entries if it has entries at all, no
name has two rows, and the rows are sorted by the first places of their names. -/
theorem scope_eq_table (c : ClassDecl) :
    (∀ name, c.group? name =
        if c.tableEntries name = [] then none else some ⟨name, c.tableEntries name⟩) ∧
      (c.scope.map Group.name).Nodup ∧
      (c.scope.map Group.name).Pairwise fun a b =>
        ∃ place, c.RecordedAt a place ∧ ∀ later, c.RecordedAt b later → place.lexLt later := by
  rw [map_name_scope]
  exact ⟨c.group?_eq, c.nodup_names, c.pairwise_names⟩

end ClassDecl

end ClassContract
