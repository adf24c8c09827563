import ClassContract.Proofs.Interposed

/-!
# Requirements raised again

An abstract class that does not implement a name hands the declarations of the requirement down: the
field first, then the getter, then the setter. Its subclasses make up a requirement of them again. It
consists of the same declarations, but reports refer to the one that was handed down first, which
need not be the one that was declared first. `Requirement.raised_again_iff` says when it is, and that
the subclasses see the requirement as if it had been declared to them directly in these cases only.
-/

namespace ClassContract

open Finding

namespace MemberKind

/-- The place of a kind among the declarations that are handed down. Methods are handed down alone. -/
def place : MemberKind → Nat
  | .field => 0
  | .getAccessor => 1
  | .setAccessor => 2
  | .method => 3

/-- Kinds with the same place are the same. -/
theorem eq_of_place_eq {j k : MemberKind} (h : j.place = k.place) : j = k := by
  revert h
  cases j <;> cases k <;> decide

/-- Fields alone have the first place. -/
theorem one_le_place {k : MemberKind} (h : k ≠ .field) : 1 ≤ k.place := by
  revert h
  cases k <;> decide

/-- Fields and getters alone have the first two places. -/
theorem two_le_place {k : MemberKind} (h : k ≠ .field) (h' : k ≠ .getAccessor) : 2 ≤ k.place := by
  revert h h'
  cases k <;> decide

end MemberKind

/-- Declarations that begin with a method, or with a kind whose place is not after that of any
other. -/
def FirstInPlace : List Member → Prop
  | [] => True
  | first :: rest => first.kind = .method ∨ ∀ m ∈ rest, first.kind.place ≤ m.kind.place

instance : (ms : List Member) → Decidable (FirstInPlace ms)
  | [] => inferInstanceAs (Decidable True)
  | _ :: _ => inferInstanceAs (Decidable (_ ∨ _))

/-- The first member is in place if it is a method or none has an earlier place. -/
theorem firstInPlace_iff {ms : List Member} {first : Member} (h : ms.head? = some first) :
    FirstInPlace ms ↔ first.kind = .method ∨ ∀ m ∈ ms, first.kind.place ≤ m.kind.place := by
  obtain ⟨rest, rfl⟩ := List.head?_eq_some_iff.mp h
  rw [FirstInPlace, List.forall_mem_cons]
  simp only [Nat.le_refl, true_and]

namespace Requirement

variable {ms : List Member} {r r' : Requirement}

/-- What is handed down first has the least place. -/
theorem place_head_members_le {p : PropertyRequirement} (h : ofMembers? ms = some (.property p))
    {first m : Member} (hfirst : (property p).members.head? = some first) (hm : m ∈ ms) :
    first.kind.place ≤ m.kind.place := by
  have hp := (ofMembers?_property h).2
  rw [hp, members, PropertyRequirement.ofMembers] at hfirst
  cases hf : firstOfKind .field ms with
  | some f =>
    have hhead : first = f := by simpa [hf] using hfirst.symm
    have hplace : first.kind.place = 0 := by rw [hhead, kind_of_firstOfKind hf]; rfl
    omega
  | none =>
    have hfield : m.kind ≠ .field := firstOfKind_eq_none_iff.mp hf m hm
    cases hg : firstOfKind .getAccessor ms with
    | some g =>
      have hhead : first = g := by simpa [hf, hg] using hfirst.symm
      have hplace : first.kind.place = 1 := by rw [hhead, kind_of_firstOfKind hg]; rfl
      have hle := MemberKind.one_le_place hfield
      omega
    | none =>
      have hgetter : m.kind ≠ .getAccessor := firstOfKind_eq_none_iff.mp hg m hm
      have hsetter : firstOfKind .setAccessor ms = some first := by
        cases ht : firstOfKind .setAccessor ms with
        | some t => simpa [hf, hg, ht] using hfirst
        | none => simp [hf, hg, ht] at hfirst
      have hplace : first.kind.place = 2 := by rw [kind_of_firstOfKind hsetter]; rfl
      have hle := MemberKind.two_le_place hfield hgetter
      omega

/-- Where the first declaration is handed down first, the same requirement is raised again. -/
theorem eq_of_firstInPlace (h : ofMembers? ms = some r) (h' : ofMembers? r.members = some r')
    (hs : SameParts r r') (hms : FirstInPlace ms) : r' = r := by
  have hhead := head?_of_ofMembers? h
  have hhead' := head?_of_ofMembers? h'
  cases hs with
  | method m => rfl
  | property p first =>
    have hhead' : (property p).members.head? = some first := hhead'
    have hmem : first ∈ ms := mem_of_mem_members h (List.mem_of_head? hhead')
    have hmethod := (ofMembers?_property h).1
    have hle := ((firstInPlace_iff hhead).mp hms).resolve_left hmethod first hmem
    have hge := place_head_members_le h hhead' (primary_mem h)
    have hkind : first.kind = p.primary.kind := MemberKind.eq_of_place_eq (Nat.le_antisymm hge hle)
    have hcounted : firstOfKind first.kind ms = some first := by
      apply firstOfKind_of_mem_counted
      rw [counted_of_ofMembers? h]
      exact List.mem_of_head? hhead'
    have hprimary : firstOfKind p.primary.kind ms = some p.primary := by
      obtain ⟨rest, hms⟩ := List.head?_eq_some_iff.mp hhead
      rw [hms]
      exact firstOfKind_cons_self p.primary rest
    rw [hkind, hprimary] at hcounted
    rw [← Option.some.inj hcounted]

/-- If reports refer to the same kind of declaration, then the first one was handed down first. -/
theorem firstInPlace_of_kind_eq (h : ofMembers? ms = some r) (h' : ofMembers? r.members = some r')
    (hkind : r'.primary.kind = r.primary.kind) : FirstInPlace ms := by
  refine (firstInPlace_iff (head?_of_ofMembers? h)).mpr ?_
  cases r with
  | method m => exact .inl (kind_of_ofMembers?_method h)
  | property p =>
    refine .inr fun m hm => ?_
    rw [← hkind]
    exact place_head_members_le h (head?_of_ofMembers? h') hm

/-- Declarations that begin alike and agree in the first of every kind amount to the same. -/
theorem ofMembers?_congr {as bs : List Member} (hhead : as.head? = bs.head?)
    (hkinds : ∀ kind ≠ .method, firstOfKind kind as = firstOfKind kind bs) :
    ofMembers? as = ofMembers? bs := by
  cases as with
  | nil =>
    rw [List.head?_eq_none_iff.mp hhead.symm]
  | cons a as =>
    obtain ⟨bs, rfl⟩ := List.head?_eq_some_iff.mp hhead.symm
    rw [ofMembers?_cons, ofMembers?_cons, PropertyRequirement.ofMembers,
      PropertyRequirement.ofMembers, hkinds .field (by decide), hkinds .getAccessor (by decide),
      hkinds .setAccessor (by decide)]

/-- A method is required by whatever begins with it. -/
theorem ofMembers?_of_method {as : List Member} {m : Member} (hhead : as.head? = some m)
    (hm : m.kind = .method) : ofMembers? as = some (.method m) := by
  obtain ⟨rest, rfl⟩ := List.head?_eq_some_iff.mp hhead
  rw [ofMembers?_cons, if_pos hm]

/-- Declarations that come after all those that count change nothing. -/
theorem ofMembers?_distinct_counted_append (ms : List Member) :
    ofMembers? (distinct (counted ms ++ ms)) = ofMembers? (counted ms) := by
  cases hr : ofMembers? ms with
  | none =>
    rw [ofMembers?_eq_none_iff.mp hr]
    rfl
  | some r =>
    have hne := members_ne_nil hr
    have hhead : (distinct (r.members ++ ms)).head? = r.members.head? := by
      rw [head?_distinct, List.head?_append_of_ne_nil _ hne]
    rw [counted_of_ofMembers? hr]
    cases r with
    | method m =>
      have hm : m.kind = .method := kind_of_ofMembers?_method hr
      rw [ofMembers?_of_method hhead hm]
      exact (ofMembers?_of_method rfl hm).symm
    | property p =>
      refine ofMembers?_congr hhead fun kind hkind => ?_
      rw [firstOfKind_distinct, firstOfKind, List.find?_append]
      show (firstOfKind kind (property p).members).or (firstOfKind kind ms) = _
      rw [firstOfKind_members hr hkind, Option.or_self]

end Requirement

namespace ClassDecl

/-- What an abstract class leaves to its subclasses of a name that it does not implement amounts to
what the declarations amount to that it hands down. -/
theorem ofMembers?_pendingFor {c : ClassDecl} (hc : c.isAbstract = true) {name : String}
    (hoc : c.ownConcrete name = []) (o : Options) :
    Requirement.ofMembers? ((c.check o).pendingFor name) =
      Requirement.ofMembers? (Requirement.counted (c.groupOf name).demanded) := by
  have hdeferrals : deferrals ((c.groupOf name).findings (.ofClass c o)) =
      Requirement.counted (c.groupOf name).demanded :=
    Group.deferrals_findings_of_unimplemented (s := .ofClass c o) hc
      ((c.ownConcrete_groupOf name).trans hoc)
  rw [pendingFor_check, hdeferrals, if_pos hc]
  by_cases hoa : c.ownAbstract name = []
  · rw [hoa, List.append_nil, Requirement.distinct_counted]
  · have hdemanded : (c.groupOf name).demanded = c.ownAbstract name := by
      rw [Group.demanded, demand, ownAbstract_groupOf, if_neg (by simpa using hoa)]
    rw [hdemanded, Requirement.ofMembers?_distinct_counted_append]

end ClassDecl

/-- An ancestor declares a name abstract only, and its declarations amount to a requirement. -/
structure Ancestor.Requires (a : Ancestor) (name : String) (r : Requirement) : Prop where
  /-- What the declarations amount to. -/
  requirement : Requirement.ofMembers? (a.members.filter (·.name == name)) = some r
  /-- All of them are abstract. -/
  isAbstract : ∀ m ∈ a.members.filter (·.name == name), m.isAbstract = true

namespace ClassDecl

/-- The class with one more ancestor, which is the nearest. -/
def below (c : ClassDecl) (a : Ancestor) : ClassDecl := { c with ancestors := a :: c.ancestors }

/-- A name has the same report below either of two ancestors. -/
def SeesAlike (c : ClassDecl) (a b : Ancestor) (name : String) (o : Options) : Prop :=
  ((c.below a).check o).violationsFor name = ((c.below b).check o).violationsFor name
    ∧ ((c.below a).check o).pendingFor name = ((c.below b).check o).pendingFor name

end ClassDecl

namespace Ancestor.Requires

variable {a b : Ancestor} {name : String} {r r' : Requirement}

/-- The nearest ancestor is heard where it requires anything. -/
theorem heard_below (h : a.Requires name r) (c : ClassDecl) :
    (c.below a).heard name = a.members.filter (·.name == name) := by
  have hmentions : a.mentions name = true := by
    have hne : a.members.filter (·.name == name) ≠ [] := fun hnil => by
      have hr := h.requirement
      rw [hnil] at hr
      cases hr
    obtain ⟨m, hm⟩ := List.exists_mem_of_ne_nil _ hne
    exact List.any_eq_true.mpr ⟨m, List.mem_filter.mp hm⟩
  have hspokesman : (c.below a).spokesman? name = some a := List.find?_cons_of_pos hmentions
  rw [ClassDecl.heard, hspokesman]
  rfl

/-- A class below the ancestor has the requirement to meet unless it declares the name abstract
itself. -/
theorem requirement?_below (h : a.Requires name r) (c : ClassDecl) :
    ((c.below a).groupOf name).requirement? =
      if (c.ownAbstract name).isEmpty then some r
      else Requirement.ofMembers? (c.ownAbstract name) := by
  rw [Group.requirement?, ClassDecl.ownAbstract_groupOf, ClassDecl.inheritedAbstract_groupOf,
    h.heard_below, List.filter_eq_self.mpr h.isAbstract]
  show Requirement.ofMembers? (if (c.ownAbstract name).isEmpty then _ else _) = _
  split
  · exact h.requirement
  · rfl

/-- A class below one that requires a name inherits no constraint on it. -/
theorem inheritedConstraints_below (h : a.Requires name r) (c : ClassDecl) :
    ((c.below a).groupOf name).inheritedConstraints = [] := by
  apply ClassDecl.constraints_groupOf_of_abstract
  rw [h.heard_below]
  exact h.isAbstract

/-- Ancestors with the same requirement are seen alike. -/
theorem seesAlike (ha : a.Requires name r) (hb : b.Requires name r) (c : ClassDecl) (o : Options) :
    c.SeesAlike a b name o := by
  have hfindings : ((c.below a).groupOf name).findings (.ofClass c o) =
      ((c.below b).groupOf name).findings (.ofClass c o) := by
    simp only [Group.findings, ClassDecl.ownAbstract_groupOf, ClassDecl.ownConcrete_groupOf,
      ha.requirement?_below, hb.requirement?_below, ha.inheritedConstraints_below,
      hb.inheritedConstraints_below]
    rfl
  unfold ClassDecl.SeesAlike
  rw [ClassDecl.violationsFor_check, ClassDecl.violationsFor_check, ClassDecl.pendingFor_check,
    ClassDecl.pendingFor_check]
  exact ⟨congrArg violations hfindings, congrArg (fun fs => distinct (deferrals fs ++ _)) hfindings⟩

/-- A concrete class without members reports the requirement, under the kind and the owner of the
declaration that reports refer to. -/
theorem violationsFor_empty_below (h : a.Requires name r) (self : String) (o : Options) :
    (((ClassDecl.empty self).below a).check o).violationsFor name =
      [⟨name, Code.unimplemented.category, .unimplemented, self, some r.primary.owner,
        .kind r.primary.kind, .none⟩] := by
  have hrequirement : (((ClassDecl.empty self).below a).groupOf name).requirement? = some r :=
    h.requirement?_below (.empty self)
  have hoa : (((ClassDecl.empty self).below a).groupOf name).ownAbstract = [] := by
    rw [ClassDecl.ownAbstract_groupOf]
    rfl
  have hoc : (((ClassDecl.empty self).below a).groupOf name).ownConcrete = [] := by
    rw [ClassDecl.ownConcrete_groupOf]
    rfl
  rw [ClassDecl.violationsFor_check, Group.findings_eq, Group.unmet, Group.fullCheck, hrequirement,
    hoa, hoc, Subject.fullCheck_nil_nil]
  rfl

/-- Where all classes see two ancestors alike, reports refer to the same kind of declaration. -/
theorem kind_eq_of_seesAlike (ha : a.Requires name r') (hb : b.Requires name r) {o : Options}
    (h : ∀ c : ClassDecl, c.SeesAlike a b name o) : r'.primary.kind = r.primary.kind := by
  have hreports := (h (.empty "")).1
  rw [ha.violationsFor_empty_below, hb.violationsFor_empty_below] at hreports
  have hsame : r'.primary.owner = r.primary.owner ∧ r'.primary.kind = r.primary.kind := by
    simpa using hreports
  exact hsame.2

end Ancestor.Requires

/-- What an abstract class hands down of a requirement consists of the same declarations and amounts
to a requirement again. It is the same one exactly if the first declaration is a method, or of a kind
that is handed down before the kinds of all others; otherwise reports refer to another declaration.
An abstract class that does not implement the name leaves to its subclasses what amounts to the
requirement raised again, and all classes below it see what they would see if the declarations were
its own, exactly under the same condition. -/
theorem Requirement.raised_again_iff {ms : List Member} (hne : ms ≠ []) :
    ∃ r r', ofMembers? ms = some r ∧ ofMembers? r.members = some r' ∧ r.SameParts r'
      ∧ (r' = r ↔ FirstInPlace ms)
      ∧ ∀ (mid : ClassDecl) (name : String) (o : Options), mid.isAbstract = true →
        mid.ownConcrete name = [] → (mid.groupOf name).demanded = ms →
        ofMembers? ((mid.check o).pendingFor name) = some r'
          ∧ ((∀ c : ClassDecl, c.SeesAlike (mid.check o).asAncestor (.ofClass mid.name ms) name o)
            ↔ FirstInPlace ms) := by
  obtain ⟨r, hr⟩ := Option.ne_none_iff_exists'.mp (mt ofMembers?_eq_none_iff.mp hne)
  obtain ⟨r', hr', hparts⟩ := ofMembers?_members hr
  have hsame : FirstInPlace ms → r' = r := eq_of_firstInPlace hr hr' hparts
  have hfirst : r'.primary.kind = r.primary.kind → FirstInPlace ms := firstInPlace_of_kind_eq hr hr'
  refine ⟨r, r', hr, hr', hparts, ⟨fun h => hfirst (by rw [h]), hsame⟩, ?_⟩
  intro mid name o hmid hoc hdemanded
  have hms : ∀ m ∈ ms, m.name = name ∧ m.isAbstract = true :=
    fun m hm => ClassDecl.of_mem_demanded_groupOf (hdemanded ▸ hm)
  have hpending : ofMembers? ((mid.check o).pendingFor name) = some r' := by
    rw [ClassDecl.ofMembers?_pendingFor hmid hoc, hdemanded, counted_of_ofMembers? hr, hr']
  have hraised : (mid.check o).asAncestor.Requires name r' :=
    ⟨hpending, fun m hm => ClassDecl.isAbstract_of_mem_pendingFor hm⟩
  have hdirect : (Ancestor.ofClass mid.name ms).Requires name r := by
    have hall : ms.filter (·.name == name) = ms :=
      List.filter_eq_self.mpr fun m hm => beq_iff_eq.mpr (hms m hm).1
    refine ⟨hall.symm ▸ hr, fun m hm => (hms m (hall ▸ hm)).2⟩
  refine ⟨hpending, fun halike => hfirst (hraised.kind_eq_of_seesAlike hdirect halike), ?_⟩
  intro hplace c
  rw [hsame hplace] at hraised
  exact hraised.seesAlike hdirect c o

/-- An abstract class with a getter and a setter, in the order in which they are handed down. -/
def cistern : ClassDecl :=
  ⟨"Cistern", true,
    [.asAbstract (.concrete .getAccessor "Cistern" "level" (.keyword .number)),
      .asAbstract (.concrete .setAccessor "Cistern" "level" (.keyword .number))], []⟩

/-- The level of a cistern that was checked is seen below it as it was declared. -/
theorem cistern_level_raised_again :
    cistern.members ≠ [] ∧ FirstInPlace cistern.members
      ∧ ∃ r, Requirement.ofMembers? cistern.members = some r
        ∧ Requirement.ofMembers? r.members = some r
        ∧ ∀ c : ClassDecl, c.SeesAlike (cistern.check .initial).asAncestor
          (.ofClass "Cistern" cistern.members) "level" .initial := by
  have hne : cistern.members ≠ [] := List.cons_ne_nil _ _
  have hplace : FirstInPlace cistern.members := by decide
  obtain ⟨r, r', hr, hr', _, hsame, hbelow⟩ := Requirement.raised_again_iff hne
  obtain rfl := hsame.mpr hplace
  exact ⟨hne, hplace, r', hr, hr', (hbelow cistern "level" .initial rfl rfl rfl).2.mpr hplace⟩

/-- The same class with the setter first. -/
def turnedCistern : ClassDecl := { cistern with members := cistern.members.reverse }

/-- A requirement that does not come back: the setter is declared first, but a class below reports
the getter as missing, and would report the setter if the declarations were made to it directly. -/
theorem turnedCistern_level_raised_otherwise :
    (∃ r, Requirement.ofMembers? turnedCistern.members = some r
        ∧ Requirement.ofMembers? r.members ≠ some r)
      ∧ (checkHierarchy [turnedCistern, ⟨"Well", false, [], [.ofClass "Cistern" []]⟩]
          .initial).map (·.violations.map (·.expected)) = [[], [.kind .getAccessor]]
      ∧ (checkHierarchy [⟨"Well", false, [], [.ofClass "Cistern" turnedCistern.members]⟩]
          .initial).map (·.violations.map (·.expected)) = [[.kind .setAccessor]] := by
  refine ⟨⟨_, rfl, fun h => ?_⟩, rfl, rfl⟩
  have hkind := congrArg (Option.map (·.primary.kind)) h
  cases hkind

end ClassContract
