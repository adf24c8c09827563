import ClassContract.Proofs.Chain
import ClassContract.Proofs.Deferral

/-!
# What is owed at the end of a chain

`Owed` says that a class after the given ones hears of an abstract declaration of a name. One more
abstract class that implements nothing under the name adds its own abstract declarations and keeps
what was owed (`owed_concat_iff`); whatever a class implements, it makes nothing owed that was neither
owed before nor declared by it (`owed_of_owed_concat`). Both give, along a whole chain, what the
concrete class at its end has to answer for: `unimplemented_of_chain` for names that nothing
implements, and `silent_of_chain_iff` for a name that one class of the chain implements in full.
-/

namespace ClassContract

open Finding

namespace ClassDecl

theorem asAbstract_eq {c : ClassDecl} (h : c.isAbstract = true) : c.asAbstract = c := by
  cases c
  cases h
  rfl

theorem asConcrete_eq {c : ClassDecl} (h : c.isAbstract = false) : c.asConcrete = c := by
  cases c
  cases h
  rfl

/-- A class that does not declare a name has no declarations of it. -/
theorem own_eq_nil {c : ClassDecl} {name : String} (h : ∀ m ∈ c.members, m.name ≠ name) :
    c.ownAbstract name = [] ∧ c.ownConcrete name = [] := by
  simp only [ownAbstract, ownConcrete, List.filter_eq_nil_iff]
  exact ⟨fun m hm => by simp [h m hm], fun m hm => by simp [h m hm]⟩

/-- A class leaves open only what is demanded of it. -/
theorem demanded_of_pendingFor {c : ClassDecl} {o : Options} {name : String}
    (h : (c.check o).pendingFor name ≠ []) : (c.groupOf name).demanded ≠ [] := by
  intro hd
  have hnone := (Group.allWithin_findings_of_demanded_eq_nil hd (.ofClass c o)).deferrals_eq_nil
    (by decide)
  rw [pendingFor_check, hnone, (demanded_groupOf_eq_nil_iff.mp hd).1, ite_self] at h
  exact h rfl

/-- An abstract class that implements nothing under a name leaves open what is demanded of it. -/
theorem pendingFor_of_demanded {c : ClassDecl} (hc : c.isAbstract = true) {name : String}
    (hoc : c.ownConcrete name = []) (hd : (c.groupOf name).demanded ≠ []) (o : Options) :
    (c.check o).pendingFor name ≠ [] := by
  have hp := pendingFor_of_unimplemented (exists_unimplemented hd hoc o)
  rwa [asAbstract_eq hc] at hp

/-- A class reports as unimplemented only what is demanded of it. -/
theorem demanded_of_unimplemented {c : ClassDecl} {o : Options} {v : Violation}
    (hv : v ∈ (c.check o).violations) (hu : v.code = .unimplemented) :
    (c.groupOf v.member).demanded ≠ [] := by
  intro hd
  have hv : v ∈ (c.check o).violationsFor v.member := List.mem_filter.mpr ⟨hv, beq_self_eq_true _⟩
  rw [violationsFor_check] at hv
  have hm := ((Group.allWithin_findings_of_demanded_eq_nil hd (.ofClass c o)).violation hv).2.1
  rw [hu] at hm
  exact absurd hm (by decide)

/-- A concrete class that implements nothing under a name has nothing to report under it exactly when
nothing is demanded of it. -/
theorem violationsFor_eq_nil_iff_demanded {c : ClassDecl} (hc : c.isAbstract = false)
    {name : String} (hoc : c.ownConcrete name = []) (o : Options) :
    (c.check o).violationsFor name = [] ↔ (c.groupOf name).demanded = [] := by
  constructor
  · intro h
    refine Decidable.byContradiction fun hd => ?_
    obtain ⟨v, hv, _⟩ := exists_unimplemented hd hoc o
    rw [asConcrete_eq hc, h] at hv
    exact nomatch hv
  · intro hd
    rw [violationsFor_check]
    exact Group.violations_findings_eq_nil hd (c.ownConcrete_groupOf name ▸ hoc) _

end ClassDecl

open ClassDecl

/-- A class after the given ones hears of an abstract declaration of a name. -/
def Owed (ks : List Checked) (name : String) : Prop :=
  ∃ m ∈ heardAfter ks name, m.isAbstract = true

instance (ks : List Checked) (name : String) : Decidable (Owed ks name) :=
  inferInstanceAs (Decidable (∃ m ∈ heardAfter ks name, m.isAbstract = true))

/-- Nothing is owed before the first class. -/
theorem not_owed_nil (name : String) : ¬ Owed [] name := fun ⟨_, hm, _⟩ => nomatch hm

section Step

variable {ks : List Checked} {c : ClassDecl} {name : String}

/-- What is demanded of a class at the end of a chain. -/
theorem demanded_resolve_eq_nil_iff (h : Lineage ks) (he : c.Extends (ks.map (·.declared))) :
    ((c.resolve ks).groupOf name).demanded = [] ↔ c.ownAbstract name = [] ∧ ¬ Owed ks name := by
  have hown : (c.resolve ks).ownAbstract name = c.ownAbstract name := rfl
  rw [demanded_groupOf_eq_nil_iff, heard_resolve h he, hown]
  simp [Owed]

/-- A class has to meet what it declares abstract itself and what the classes before it owe. -/
theorem demanded_resolve_ne_nil_iff (h : Lineage ks) (he : c.Extends (ks.map (·.declared))) :
    ((c.resolve ks).groupOf name).demanded ≠ [] ↔ c.ownAbstract name ≠ [] ∨ Owed ks name := by
  rw [ne_eq, demanded_resolve_eq_nil_iff h he, Decidable.not_and_iff_or_not,
    Decidable.not_not]

/-- What a class hands on under a name: what it leaves open, then what it implements. -/
theorem filter_handedOn (ks : List Checked) (c : ClassDecl) (o : Options) (name : String) :
    (c.checkAfter ks o).handedOn.filter (·.name == name) =
      addAllNew (((c.resolve ks).check o).pendingFor name) (c.ownConcrete name) := by
  rw [Checked.handedOn, filter_addAllNew (Member.name_beq_of_beq name), List.filter_filter]
  rfl

/-- A class makes nothing owed that was neither owed before nor declared abstract by it. -/
theorem owed_of_owed_concat (h : Lineage ks) (he : c.Extends (ks.map (·.declared))) {o : Options}
    (hk : Owed (ks ++ [c.checkAfter ks o]) name) : c.ownAbstract name ≠ [] ∨ Owed ks name := by
  obtain ⟨m, hm, ha⟩ := hk
  rw [heardAfter_concat, filter_handedOn] at hm
  split at hm
  · exact .inr ⟨m, hm, ha⟩
  · rcases mem_or_mem_of_mem_addAllNew hm with hm | hm
    · exact (demanded_resolve_ne_nil_iff h he).mp (demanded_of_pendingFor (List.ne_nil_of_mem hm))
    · exact absurd ((isAbstract_of_mem_ownConcrete hm).symm.trans ha) Bool.false_ne_true

/-- An abstract class that implements nothing under a name keeps what was owed and adds its own
abstract declarations. -/
theorem owed_concat_iff (h : Lineage ks) (hc : c.isAbstract = true)
    (he : c.Extends (ks.map (·.declared))) (hoc : c.ownConcrete name = []) (o : Options) :
    Owed (ks ++ [c.checkAfter ks o]) name ↔ c.ownAbstract name ≠ [] ∨ Owed ks name := by
  refine ⟨owed_of_owed_concat h he, fun hor => ?_⟩
  have hd := (demanded_resolve_ne_nil_iff h he).mpr hor
  have hp : ((c.resolve ks).check o).pendingFor name ≠ [] :=
    pendingFor_of_demanded (c := c.resolve ks) hc hoc hd o
  have hhand : (c.checkAfter ks o).handedOn.filter (·.name == name) =
      ((c.resolve ks).check o).pendingFor name := by
    rw [filter_handedOn, hoc]
    rfl
  obtain ⟨m, hm⟩ := List.exists_mem_of_ne_nil _ hp
  refine ⟨m, ?_, isAbstract_of_mem_pending (List.mem_filter.mp hm).1⟩
  rw [heardAfter_concat, hhand, if_neg hp]
  exact hm

/-- After an abstract class that has an implementation of a name, and as a concrete class would have
nothing to report under it, only its own abstract declarations of the name are owed. -/
theorem owed_concat_of_met (hc : c.isAbstract = true) (hoc : c.ownConcrete name ≠ []) {o : Options}
    (hmet : ((c.resolve ks).asConcrete.check o).violationsFor name = []) :
    Owed (ks ++ [c.checkAfter ks o]) name ↔ c.ownAbstract name ≠ [] := by
  have hp : ((c.resolve ks).check o).pendingFor name = distinct (c.ownAbstract name) := by
    have hp := pendingFor_of_silent hmet
    rwa [asAbstract_eq (c := c.resolve ks) hc] at hp
  have hne : addAllNew (distinct (c.ownAbstract name)) (c.ownConcrete name) ≠ [] := fun h =>
    hoc (addAllNew_eq_nil_iff.mp h).2
  rw [Owed, heardAfter_concat, filter_handedOn, hp, if_neg hne]
  constructor
  · rintro ⟨m, hm, ha⟩
    rcases mem_or_mem_of_mem_addAllNew hm with hm | hm
    · exact List.ne_nil_of_mem (mem_of_mem_distinct hm)
    · exact absurd ((isAbstract_of_mem_ownConcrete hm).symm.trans ha) Bool.false_ne_true
  · intro hoa
    obtain ⟨m, hm⟩ := List.exists_mem_of_ne_nil _ (mt distinct_eq_nil_iff.mp hoa)
    exact ⟨m, mem_addAllNew_of_mem hm _, isAbstract_of_mem_ownAbstract (mem_of_mem_distinct hm)⟩

end Step

/-- The classes of a chain, all of them abstract, as they are checked one after the other. -/
theorem IsChain.lineage {cs : List ClassDecl} (h : IsChain cs) (hc : ∀ c ∈ cs, c.isAbstract = true)
    (o : Options) : Lineage (checkOnwards o [] cs) :=
  (Lineage.nil.invariant (P := fun _ => True) trivial hc h fun _ _ _ _ => trivial).1

/-- The last class of a chain extends the others as they were checked. -/
theorem IsChain.extends_checkOnwards {above : List ClassDecl} {leaf : ClassDecl}
    (h : IsChain (above ++ [leaf])) (o : Options) :
    leaf.Extends ((checkOnwards o [] above).map (·.declared)) := by
  rw [declared_checkOnwards]
  exact (isChainAfter_append.mp h).2.1

/-- What holds after some class of a chain, and goes on to hold with every later class, holds at the
end. -/
theorem IsChain.invariant_from {before after : List ClassDecl} {c : ClassDecl}
    (h : IsChain (before ++ c :: after)) (ha : ∀ d ∈ before ++ c :: after, d.isAbstract = true)
    {o : Options} {P : List Checked → Prop}
    (base : P (checkOnwards o [] before ++ [c.checkAfter (checkOnwards o [] before) o]))
    (step : ∀ {ks : List Checked} {d : ClassDecl}, d ∈ after → Lineage ks →
      d.Extends (ks.map (·.declared)) → P ks → P (ks ++ [d.checkAfter ks o])) :
    P (checkOnwards o [] (before ++ c :: after)) := by
  obtain ⟨hbefore, he, hchain⟩ := isChainAfter_append.mp h
  have hlineage := IsChain.lineage hbefore (fun d hd => ha d (List.mem_append_left _ hd)) o
  have hca : c.isAbstract = true := ha c (List.mem_append_right _ List.mem_cons_self)
  have hextends : c.Extends ((checkOnwards o [] before).map (·.declared)) := by
    rw [declared_checkOnwards]
    exact he
  have hrun : checkOnwards o [] (before ++ c :: after) =
      (checkOnwards o [] before ++ [c.checkAfter (checkOnwards o [] before) o])
        ++ checkOnwards o
          (checkOnwards o [] before ++ [c.checkAfter (checkOnwards o [] before) o]) after := by
    rw [checkOnwards_append, List.nil_append, checkOnwards, List.append_cons]
  rw [hrun]
  refine ((hlineage.concat hca hextends o).invariant base ?_ ?_ step).2
  · exact fun d hd => ha d (List.mem_append_right _ (List.mem_cons_of_mem c hd))
  · rw [List.map_append, declared_checkOnwards]
    exact hchain

/-- Along a chain nothing is owed that no class declares abstract. -/
theorem IsChain.exists_of_owed {cs : List ClassDecl} (h : IsChain cs)
    (hc : ∀ c ∈ cs, c.isAbstract = true) {o : Options} {name : String}
    (ho : Owed (checkOnwards o [] cs) name) : ∃ c ∈ cs, c.ownAbstract name ≠ [] := by
  -- The invariant speaks of the classes as they were checked; they are those of the chain.
  rw [← exists_mem_checkOnwards (o := o)]
  revert ho
  refine (Lineage.nil.invariant
    (P := fun ks => Owed ks name → ∃ k ∈ ks, k.declared.ownAbstract name ≠ []) ?_ hc h ?_).2
  · exact fun ho => absurd ho (not_owed_nil name)
  · intro ks c _ hl he ih hk
    rcases owed_of_owed_concat hl he hk with hown | hks
    · exact ⟨_, List.mem_append_right _ (List.mem_singleton_self _), hown⟩
    · obtain ⟨k, hk, hown⟩ := ih hks
      exact ⟨k, List.mem_append_left _ hk, hown⟩

/-- Along a chain that implements nothing under a name, what a class declares abstract is owed. -/
theorem IsChain.owed_of_exists {cs : List ClassDecl} (h : IsChain cs)
    (hc : ∀ c ∈ cs, c.isAbstract = true) {name : String} (hoc : ∀ c ∈ cs, c.ownConcrete name = [])
    (hex : ∃ c ∈ cs, c.ownAbstract name ≠ []) (o : Options) :
    Owed (checkOnwards o [] cs) name := by
  rw [← exists_mem_checkOnwards (o := o)] at hex
  revert hex
  refine (Lineage.nil.invariant
    (P := fun ks => (∃ k ∈ ks, k.declared.ownAbstract name ≠ []) → Owed ks name) ?_ hc h ?_).2
  · exact fun ⟨_, hk, _⟩ => nomatch hk
  · rintro ks c hmem hl he ih ⟨k, hk, hown⟩
    refine (owed_concat_iff hl (hc c hmem) he (hoc c hmem) o).mpr ?_
    rcases List.mem_append.mp hk with hk | hk
    · exact .inr (ih ⟨k, hk, hown⟩)
    · rw [List.mem_singleton.mp hk] at hown
      exact .inl hown

/-- No obligation is lost or invented along a chain of abstract classes that ends in a concrete one.
A name that some class declares abstract and none implements is reported once at the end, and every
name reported as unimplemented there is declared abstract by some class. -/
theorem unimplemented_of_chain {above : List ClassDecl} {leaf : ClassDecl}
    (h : IsChain (above ++ [leaf])) (ha : ∀ c ∈ above, c.isAbstract = true)
    (hl : leaf.isAbstract = false) (o : Options) :
    ∃ r, (checkHierarchy (above ++ [leaf]) o).getLast? = some r ∧
      (∀ name, (∃ c ∈ above ++ [leaf], c.ownAbstract name ≠ []) →
        (∀ c ∈ above ++ [leaf], c.ownConcrete name = []) →
        ((r.violationsFor name).filter (·.code == .unimplemented)).length = 1) ∧
      ∀ v ∈ r.violations, v.code = .unimplemented →
        ∃ c ∈ above ++ [leaf], c.ownAbstract v.member ≠ [] := by
  have habove : IsChain above := (isChainAfter_append.mp h).1
  have hks := habove.lineage ha o
  have he := h.extends_checkOnwards o
  refine ⟨_, getLast?_checkHierarchy above leaf o, ?_, ?_⟩
  · intro name hex hoc
    have hd : ((leaf.resolve (checkOnwards o [] above)).groupOf name).demanded ≠ [] := by
      rw [demanded_resolve_ne_nil_iff hks he]
      obtain ⟨c, hmem, hown⟩ := hex
      rcases List.mem_append.mp hmem with hmem | hmem
      · exact .inr (habove.owed_of_exists ha (fun c hc => hoc c (List.mem_append_left _ hc))
          ⟨c, hmem, hown⟩ o)
      · exact .inl (List.mem_singleton.mp hmem ▸ hown)
    have hleaf : leaf.ownConcrete name = [] :=
      hoc leaf (List.mem_append_right _ (List.mem_singleton_self _))
    obtain ⟨v, hv⟩ := Group.unimplemented_of_unmet
      (s := .ofClass (leaf.resolve (checkOnwards o [] above)) o) hl hd
      ((ownConcrete_groupOf _ name).trans hleaf)
    rw [violationsFor_check, hv]
    rfl
  · intro v hv hu
    rcases (demanded_resolve_ne_nil_iff hks he).mp (demanded_of_unimplemented hv hu) with hown | ho
    · exact ⟨leaf, List.mem_append_right _ (List.mem_singleton_self _), hown⟩
    · obtain ⟨c, hmem, hown⟩ := habove.exists_of_owed ha ho
      exact ⟨c, List.mem_append_left _ hmem, hown⟩

/-- A class that demands a method. -/
def vehicle : ClassDecl :=
  ⟨"Vehicle", true, [(Member.concrete .method "Vehicle" "start" (.keyword .void)).asAbstract], []⟩

/-- An abstract class in between, with the given members. -/
def car (members : List Member) : ClassDecl := ⟨"Car", true, members, [.ofClass "Vehicle" []]⟩

/-- A concrete class at the end, without members. -/
def taxi : ClassDecl := ⟨"Taxi", false, [], [.ofClass "Car" [], .ofClass "Vehicle" []]⟩

/-- The taxi has to implement what the vehicle required and the car left open. -/
theorem taxi_start_unimplemented :
    IsChain [vehicle, car [], taxi] ∧
      ∃ r, (checkHierarchy [vehicle, car [], taxi] .initial).getLast? = some r ∧
        ((r.violationsFor "start").filter (·.code == .unimplemented)).length = 1 := by
  have h : IsChain ([vehicle, car []] ++ [taxi]) := by decide
  obtain ⟨r, hr, hone, _⟩ := unimplemented_of_chain h (by decide) rfl .initial
  exact ⟨h, r, hr, hone "start" (by decide) (by decide)⟩

/-- After a class that implements a name in full, classes that do not declare it leave what is owed
as it was: the own abstract declarations of that class. -/
theorem IsChain.owed_iff_of_met {before after : List ClassDecl} {c : ClassDecl}
    (h : IsChain (before ++ c :: after)) (ha : ∀ d ∈ before ++ c :: after, d.isAbstract = true)
    {o : Options} {name : String} (hoc : c.ownConcrete name ≠ [])
    (hafter : ∀ d ∈ after, ∀ m ∈ d.members, m.name ≠ name)
    (hmet : ((c.resolve (checkOnwards o [] before)).asConcrete.check o).violationsFor name = []) :
    Owed (checkOnwards o [] (before ++ c :: after)) name ↔ c.ownAbstract name ≠ [] := by
  have hca : c.isAbstract = true := ha c (List.mem_append_right _ List.mem_cons_self)
  refine h.invariant_from ha (P := fun ks => Owed ks name ↔ c.ownAbstract name ≠ [])
    (owed_concat_of_met hca hoc hmet) ?_
  intro ks d hmem hl hd ih
  obtain ⟨hoa, hoc⟩ := own_eq_nil (hafter d hmem)
  have hda := ha d (List.mem_append_right _ (List.mem_cons_of_mem c hmem))
  rw [owed_concat_iff hl hda hd hoc o, hoa, ih]
  simp

/-- Let a class of a chain implement a name so that it would have nothing to report under it as a
concrete class, and let no later class declare the name. Then the concrete class at the end has
nothing to report under the name exactly when the implementing class does not also declare it
abstract: its abstract declarations stay owed, whatever stands next to them. -/
theorem silent_of_chain_iff {before after : List ClassDecl} {c leaf : ClassDecl}
    (h : IsChain (before ++ c :: after ++ [leaf]))
    (ha : ∀ d ∈ before ++ c :: after, d.isAbstract = true) (hl : leaf.isAbstract = false)
    (o : Options) (name : String) (hoc : c.ownConcrete name ≠ [])
    (hafter : ∀ d ∈ after ++ [leaf], ∀ m ∈ d.members, m.name ≠ name)
    (hmet : ∃ r, (checkHierarchy (before ++ [c.asConcrete]) o).getLast? = some r ∧
      r.violationsFor name = []) :
    ∃ r, (checkHierarchy (before ++ c :: after ++ [leaf]) o).getLast? = some r ∧
      (r.violationsFor name = [] ↔ c.ownAbstract name = []) := by
  have habove : IsChain (before ++ c :: after) := (isChainAfter_append.mp h).1
  obtain ⟨hoa, hleaf⟩ := own_eq_nil
    (hafter leaf (List.mem_append_right _ (List.mem_singleton_self _)))
  have hsilent : ((c.resolve (checkOnwards o [] before)).asConcrete.check o).violationsFor name =
      [] := by
    obtain ⟨r, hr, hnone⟩ := hmet
    rw [getLast?_checkHierarchy] at hr
    cases hr
    exact hnone
  have howed := habove.owed_iff_of_met ha hoc
    (fun d hd => hafter d (List.mem_append_left _ hd)) hsilent
  refine ⟨_, getLast?_checkHierarchy (before ++ c :: after) leaf o, ?_⟩
  rw [violationsFor_eq_nil_iff_demanded (c := leaf.resolve _) hl hleaf,
    demanded_resolve_eq_nil_iff (habove.lineage ha o) (h.extends_checkOnwards o), howed, hoa]
  simp

/-- The taxi owes nothing that the car has implemented. -/
theorem taxi_start_silent :
    IsChain [vehicle, car [.concrete .method "Car" "start" (.keyword .void)], taxi] ∧
      ∃ r, (checkHierarchy [vehicle, car [.concrete .method "Car" "start" (.keyword .void)], taxi]
        .initial).getLast? = some r ∧ r.violationsFor "start" = [] := by
  have h : IsChain ([vehicle] ++ car [.concrete .method "Car" "start" (.keyword .void)] :: []
      ++ [taxi]) := by decide
  obtain ⟨r, hr, hiff⟩ := silent_of_chain_iff h (by decide) rfl .initial "start" (by decide)
    (by decide) ⟨_, rfl, by decide⟩
  exact ⟨h, r, hr, hiff.mpr (by decide)⟩

/-- A class that declares a method abstract and implements it. -/
def machine : ClassDecl :=
  ⟨"Machine", true, [(Member.concrete .method "Machine" "run" (.keyword .void)).asAbstract,
    .concrete .method "Machine" "run" (.keyword .void)], []⟩

/-- A concrete class that relies on the implementation. -/
def drill : ClassDecl := ⟨"Drill", false, [], [.ofClass "Machine" []]⟩

/-- A method that a class both declares abstract and implements is reported in its subclass, though
the class itself has nothing to report. -/
theorem drill_run_reported :
    IsChain [machine, drill] ∧ machine.ownConcrete "run" ≠ [] ∧
      (∃ r, (checkHierarchy [machine.asConcrete] .initial).getLast? = some r ∧
        r.violationsFor "run" = []) ∧
      ∃ r, (checkHierarchy [machine, drill] .initial).getLast? = some r ∧
        r.violationsFor "run" ≠ [] :=
  ⟨by decide, by decide, ⟨_, rfl, by decide⟩, ⟨_, rfl, by decide⟩⟩

end ClassContract
