import ClassContract.Proofs.PerName
import ClassContract.Report.Hierarchy

/-!
# Chains of classes

In a chain every class extends all classes before it, the nearest first, and gives them by name
only. Where the classes before are abstract and have been checked, each ancestor is resolved to what
the class of its name hands on, so that a class hears of a name what the nearest class hands on that
hands on anything under it: `heard_resolve` and `heardAfter_concat`.
-/

namespace ClassContract

/-- A class extends the classes before it, the last of them first, and lists no members of them. -/
structure ClassDecl.Extends (c : ClassDecl) (before : List ClassDecl) : Prop where
  /-- None of them has the name of the class. -/
  fresh : c.name ∉ before.map (·.name)
  /-- Its ancestors are exactly these classes. -/
  names : c.ancestors.map (·.name) = (before.map (·.name)).reverse
  /-- They are given by name only. -/
  empty : ∀ a ∈ c.ancestors, a.members = []

/-- Classes that continue a chain. -/
def IsChainAfter (before : List ClassDecl) : List ClassDecl → Prop
  | [] => True
  | c :: cs => c.Extends before ∧ IsChainAfter (before ++ [c]) cs

/-- Classes of which each extends all that come before it. -/
def IsChain (cs : List ClassDecl) : Prop := IsChainAfter [] cs

instance (c : ClassDecl) (before : List ClassDecl) : Decidable (c.Extends before) :=
  decidable_of_iff (c.name ∉ before.map (·.name) ∧
      c.ancestors.map (·.name) = (before.map (·.name)).reverse ∧ ∀ a ∈ c.ancestors, a.members = [])
    ⟨fun ⟨hf, hn, he⟩ => ⟨hf, hn, he⟩, fun h => ⟨h.fresh, h.names, h.empty⟩⟩

instance decidableIsChainAfter :
    (before cs : List ClassDecl) → Decidable (IsChainAfter before cs)
  | _, [] => inferInstanceAs (Decidable True)
  | before, c :: cs =>
    have := decidableIsChainAfter (before ++ [c]) cs
    inferInstanceAs (Decidable (_ ∧ _))

instance (cs : List ClassDecl) : Decidable (IsChain cs) := decidableIsChainAfter [] cs

/-- Ancestors that stand for classes: they have their names, the last class first, and list no
members of them. -/
structure StandFor (as : List Ancestor) (cs : List ClassDecl) : Prop where
  /-- The names are those of the classes. -/
  names : as.map (·.name) = (cs.map (·.name)).reverse
  /-- They are given by name only. -/
  empty : ∀ a ∈ as, a.members = []

/-- The ancestors of a class in a chain stand for the classes before it. -/
theorem ClassDecl.Extends.standFor {c : ClassDecl} {before : List ClassDecl} (h : c.Extends before) :
    StandFor c.ancestors before := ⟨h.names, h.empty⟩

/-- A chain can be cut anywhere. -/
theorem isChainAfter_append {before cs ds : List ClassDecl} :
    IsChainAfter before (cs ++ ds) ↔ IsChainAfter before cs ∧ IsChainAfter (before ++ cs) ds := by
  induction cs generalizing before with
  | nil => simp [IsChainAfter]
  | cons c cs ih => simp [IsChainAfter, ih, and_assoc]

/-- Checking more classes at the end changes nothing for those before. -/
theorem checkOnwards_append (o : Options) (before : List Checked) (cs ds : List ClassDecl) :
    checkOnwards o before (cs ++ ds) =
      checkOnwards o before cs ++ checkOnwards o (before ++ checkOnwards o before cs) ds := by
  induction cs generalizing before with
  | nil => simp [checkOnwards]
  | cons c cs ih => simp [checkOnwards, ih]

/-- Checking a list of classes keeps the list. -/
theorem declared_checkOnwards (o : Options) (before : List Checked) (cs : List ClassDecl) :
    (checkOnwards o before cs).map (·.declared) = cs := by
  induction cs generalizing before with
  | nil => rfl
  | cons c cs ih => rw [checkOnwards, List.map_cons, ih]; rfl

/-- A property of declarations holds of a checked class when it holds of a declared one. -/
theorem exists_mem_checkOnwards {P : ClassDecl → Prop} {o : Options} {before : List Checked}
    {cs : List ClassDecl} : (∃ k ∈ checkOnwards o before cs, P k.declared) ↔ ∃ c ∈ cs, P c := by
  constructor
  · rintro ⟨k, hk, hP⟩
    exact ⟨k.declared, declared_checkOnwards o before cs ▸ List.mem_map_of_mem hk, hP⟩
  · rintro ⟨c, hc, hP⟩
    rw [← declared_checkOnwards o before cs] at hc
    obtain ⟨k, hk, rfl⟩ := List.mem_map.mp hc
    exact ⟨k, hk, hP⟩

/-- The last report is that on the last class, checked after all others. -/
theorem getLast?_checkHierarchy (cs : List ClassDecl) (c : ClassDecl) (o : Options) :
    (checkHierarchy (cs ++ [c]) o).getLast? =
      some ((c.resolve (checkOnwards o [] cs)).check o) := by
  rw [checkHierarchy, checkOnwards_append, List.map_append, List.nil_append]
  exact List.getLast?_concat

/-- Every class has its report at its own place. -/
theorem getElem?_checkHierarchy (before : List ClassDecl) (c : ClassDecl) (after : List ClassDecl)
    (o : Options) :
    (checkHierarchy (before ++ c :: after) o)[before.length]? =
      some ((c.resolve (checkOnwards o [] before)).check o) := by
  have hlen : before.length = ((checkOnwards o [] before).map (·.report)).length := by
    conv => lhs; rw [← declared_checkOnwards o [] before]
    simp
  rw [checkHierarchy, checkOnwards_append, List.map_append, List.nil_append, hlen,
    List.getElem?_append_right (Nat.le_refl _), Nat.sub_self]
  rfl

/-- Checked classes to which ancestors can be resolved by name. -/
structure Lineage (ks : List Checked) : Prop where
  /-- Their names are different. -/
  nodup : (ks.map (·.declared.name)).Nodup
  /-- All of them are abstract. -/
  isAbstract : ∀ k ∈ ks, k.report.isAbstract = true
  /-- The reports are about them. -/
  className : ∀ k ∈ ks, k.report.className = k.declared.name

namespace Lineage

variable {ks : List Checked}

/-- Before the first class there is a lineage. -/
theorem nil : Lineage [] := ⟨List.nodup_nil, nofun, nofun⟩

/-- A lineage goes on with any abstract class of a new name. -/
theorem concat_of_fresh (h : Lineage ks) {c : ClassDecl} (hc : c.isAbstract = true)
    (hfresh : c.name ∉ ks.map (·.declared.name)) (o : Options) :
    Lineage (ks ++ [c.checkAfter ks o]) where
  nodup := by
    rw [List.map_append, List.nodup_append]
    refine ⟨h.nodup, by simp, ?_⟩
    intro a ha b hb hab
    rw [hab, List.mem_singleton.mp hb] at ha
    exact hfresh ha
  isAbstract := by
    intro k hk
    rcases List.mem_append.mp hk with hk | hk
    · exact h.isAbstract k hk
    · exact List.mem_singleton.mp hk ▸ hc
  className := by
    intro k hk
    rcases List.mem_append.mp hk with hk | hk
    · exact h.className k hk
    · exact List.mem_singleton.mp hk ▸ rfl

/-- A lineage goes on with an abstract class that extends all of it. -/
theorem concat (h : Lineage ks) {c : ClassDecl} (hc : c.isAbstract = true)
    (he : c.Extends (ks.map (·.declared))) (o : Options) : Lineage (ks ++ [c.checkAfter ks o]) :=
  h.concat_of_fresh hc (by simpa using he.fresh) o

/-- What holds of the classes checked so far, and goes on to hold with every further abstract class
of a chain, holds of all of them. -/
theorem invariant (h : Lineage ks) {P : List Checked → Prop} (hP : P ks) {o : Options}
    {cs : List ClassDecl} (hc : ∀ c ∈ cs, c.isAbstract = true)
    (hchain : IsChainAfter (ks.map (·.declared)) cs)
    (step : ∀ {ks : List Checked} {c : ClassDecl}, c ∈ cs → Lineage ks →
      c.Extends (ks.map (·.declared)) → P ks → P (ks ++ [c.checkAfter ks o])) :
    Lineage (ks ++ checkOnwards o ks cs) ∧ P (ks ++ checkOnwards o ks cs) := by
  induction cs generalizing ks with
  | nil =>
    rw [checkOnwards, List.append_nil]
    exact ⟨h, hP⟩
  | cons c cs ih =>
    obtain ⟨he, hchain⟩ := hchain
    have hk := h.concat (hc c List.mem_cons_self) he o
    rw [checkOnwards, List.append_cons]
    refine ih hk (step List.mem_cons_self h he hP) (fun d hd => hc d (List.mem_cons_of_mem c hd)) ?_
      fun hd => step (List.mem_cons_of_mem c hd)
    rw [List.map_append]
    exact hchain

/-- A class is found by its name. -/
theorem find?_eq (h : Lineage ks) {k : Checked} (hk : k ∈ ks) :
    ks.find? (fun x => x.report.isAbstract && x.report.className == k.declared.name) = some k := by
  obtain ⟨xs, ys, rfl⟩ := List.append_of_mem hk
  refine List.find?_eq_some_iff_append.mpr ⟨?_, xs, ys, rfl, fun x hx => ?_⟩
  · rw [h.isAbstract k hk, h.className k hk, beq_self_eq_true]
    rfl
  · have hmem : x ∈ xs ++ k :: ys := List.mem_append_left _ hx
    have hne : x.declared.name ≠ k.declared.name := by
      have hn := h.nodup
      rw [List.map_append, List.nodup_append] at hn
      exact hn.2.2 _ (List.mem_map_of_mem hx) _ (List.mem_map_of_mem List.mem_cons_self)
    simp [h.className x hmem, hne]

end Lineage

/-- What a checked class hands on: what it leaves to its subclasses, and its implementations. -/
def Checked.handedOn (k : Checked) : List Member :=
  addAllNew k.report.pending (k.declared.members.filter (!·.isAbstract))

/-- What a class after the given ones hears of a name: all that the nearest class hands on under it
that hands on anything. -/
def heardAfter (ks : List Checked) (name : String) : List Member :=
  ((ks.reverse.map (·.handedOn)).find? (·.any (·.name == name))).elim [] (·.filter (·.name == name))

/-- A class that hands on nothing under a name is passed over. -/
theorem heardAfter_concat (ks : List Checked) (k : Checked) (name : String) :
    heardAfter (ks ++ [k]) name =
      if k.handedOn.filter (·.name == name) = [] then heardAfter ks name
      else k.handedOn.filter (·.name == name) := by
  rw [heardAfter, List.reverse_append, List.reverse_singleton, List.singleton_append,
    List.map_cons, List.find?_cons]
  by_cases h : k.handedOn.any (·.name == name) = true
  · have hne : k.handedOn.filter (·.name == name) ≠ [] := by
      simpa [List.filter_eq_nil_iff, List.any_eq_true] using h
    rw [h, if_neg hne]
    rfl
  · have heq : k.handedOn.filter (·.name == name) = [] := by
      simpa [List.filter_eq_nil_iff, List.any_eq_true] using h
    rw [Bool.eq_false_iff.mpr h, if_pos heq]
    rfl

/-- Ancestors that stand for checked classes are resolved to what these hand on. -/
theorem StandFor.members_resolve {ks : List Checked} (h : Lineage ks) {as : List Ancestor}
    (hs : StandFor as (ks.map (·.declared))) :
    (as.map (·.resolve ks)).map (·.members) = ks.reverse.map (·.handedOn) := by
  let found : String → List Member := fun name =>
    (ks.find? fun k => k.report.isAbstract && k.report.className == name).elim [] (·.handedOn)
  have hfound : ∀ a ∈ as, (a.resolve ks).members = found a.name := by
    intro a ha
    have hm := hs.empty a ha
    dsimp only [Ancestor.resolve, Ancestor.checked?, found]
    cases ks.find? fun k => k.report.isAbstract && k.report.className == a.name with
    | none => exact hm
    | some k => simp [Ancestor.resolvedMembers, Checked.handedOn, hm]
  calc (as.map (·.resolve ks)).map (·.members)
      = as.map fun a => found a.name := by
        rw [List.map_map]
        exact List.map_congr_left hfound
    _ = (as.map (·.name)).map found := by rw [List.map_map]; rfl
    _ = ks.reverse.map fun k => found k.declared.name := by
        rw [hs.names, List.map_map, ← List.map_reverse, List.map_map]
        rfl
    _ = ks.reverse.map (·.handedOn) := by
        refine List.map_congr_left fun k hk => ?_
        dsimp only [found]
        rw [h.find?_eq (List.mem_reverse.mp hk)]
        rfl

/-- What is heard from ancestors that stand for checked classes. -/
theorem StandFor.heardFrom_resolve {ks : List Checked} (h : Lineage ks) {as : List Ancestor}
    (hs : StandFor as (ks.map (·.declared))) (name : String) :
    heardFrom (as.map (·.resolve ks)) name = heardAfter ks name := by
  rw [heardAfter, ← hs.members_resolve h, List.find?_map, heardFrom]
  show _ = Option.elim (((as.map (·.resolve ks)).find? (·.mentions name)).map _) _ _
  cases (as.map (·.resolve ks)).find? (·.mentions name) with
  | none => rfl
  | some a => rfl

/-- An ancestor that names none of the checked classes stays as it is. -/
theorem Lineage.resolve_eq_self {ks : List Checked} (h : Lineage ks) {a : Ancestor}
    (ha : a.name ∉ ks.map (·.declared.name)) : a.resolve ks = a := by
  have hnone : a.checked? ks = none := by
    refine List.find?_eq_none.mpr fun k hk => ?_
    have hne : k.declared.name ≠ a.name := fun he => ha (List.mem_map.mpr ⟨k, hk, he⟩)
    simp [h.className k hk, hne]
  rw [Ancestor.resolve, hnone]

/-- Ancestors of other names are not resolved. -/
theorem Lineage.map_resolve_eq_self {ks : List Checked} (h : Lineage ks) {as : List Ancestor}
    (has : ∀ a ∈ as, a.name ∉ ks.map (·.declared.name)) : as.map (·.resolve ks) = as := by
  conv => rhs; rw [← List.map_id as]
  exact List.map_congr_left fun a ha => h.resolve_eq_self (has a ha)

namespace ClassDecl

/-- With no class checked before, a class stays as it is. -/
theorem resolve_nil (c : ClassDecl) : c.resolve [] = c := by
  rw [resolve, Lineage.nil.map_resolve_eq_self fun _ _ => List.not_mem_nil]

/-- What a class at the end of a chain hears of a name. -/
theorem heard_resolve {ks : List Checked} (h : Lineage ks) {c : ClassDecl}
    (he : c.Extends (ks.map (·.declared))) (name : String) :
    (c.resolve ks).heard name = heardAfter ks name :=
  he.standFor.heardFrom_resolve h name

/-- What a class hears of a name that extends checked classes on top of other ancestors: what the
checked classes hand on, if anything, and else what the other ancestors declare. -/
theorem heard_resolve_append {ks : List Checked} (h : Lineage ks) {c : ClassDecl}
    {near base : List Ancestor} (hc : c.ancestors = near ++ base)
    (hnear : StandFor near (ks.map (·.declared)))
    (hbase : ∀ a ∈ base, a.name ∉ ks.map (·.declared.name)) (name : String) :
    (c.resolve ks).heard name =
      if heardAfter ks name = [] then heardFrom base name else heardAfter ks name := by
  rw [heard_eq, resolve, hc, List.map_append, h.map_resolve_eq_self hbase, heardFrom_append,
    hnear.heardFrom_resolve h]

end ClassDecl

end ClassContract
