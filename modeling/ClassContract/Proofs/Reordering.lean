import ClassContract.Proofs.Chain
import Mathlib.Data.List.Nodup

/-!
# The order of a hierarchy

Classes may be checked in any order in which the abstract classes that a class names stay on the
same side of it. The check of a class depends on the classes before it only through the abstract
ones that it names, and these are checked alike in both orders, by induction on the number of
classes before it: `Reordering.checkAfter_eq`. So every class has the same report in both orders.
-/

namespace ClassContract

/-- The class named `y` comes before the class named `x`. -/
def ComesBefore (cs : List ClassDecl) (y x : String) : Prop := [y, x].Sublist (cs.map (·.name))

instance (cs : List ClassDecl) (y x : String) : Decidable (ComesBefore cs y x) :=
  inferInstanceAs (Decidable ([y, x].Sublist _))

/-- Two orders of classes with different names that keep every class on the same side of the
abstract classes it names. -/
structure Reordering (cs ds : List ClassDecl) : Prop where
  /-- They have the same classes. -/
  perm : cs.Perm ds
  /-- The names are different. -/
  nodup : (cs.map (·.name)).Nodup
  /-- An abstract class stays on its side of the classes that name it. -/
  order : ∀ x ∈ cs, ∀ y ∈ cs, y.isAbstract = true → y.name ∈ x.ancestors.map (·.name) →
    (ComesBefore cs y.name x.name ↔ ComesBefore ds y.name x.name)

/-- Where names are different, what comes before a class is what stands in front of it. -/
theorem comesBefore_iff {before after : List ClassDecl} {x : ClassDecl}
    (h : ((before ++ x :: after).map (·.name)).Nodup) (y : String) :
    ComesBefore (before ++ x :: after) y x.name ↔ y ∈ before.map (·.name) := by
  rw [List.map_append, List.map_cons] at h
  obtain ⟨_, htail, _⟩ := List.nodup_append.mp h
  have hafter : x.name ∉ after.map (·.name) := (List.nodup_cons.mp htail).1
  rw [ComesBefore, List.map_append, List.map_cons]
  constructor
  · intro hsub
    obtain ⟨front, back, hsplit, hfront, hback⟩ := List.sublist_append_iff.mp hsub
    cases front with
    | nil =>
      rw [List.nil_append] at hsplit
      rw [← hsplit] at hback
      have hmem : x.name ∈ after.map (·.name) := by
        rcases List.sublist_cons_iff.mp hback with hback | ⟨rest, hrest, hback⟩
        · exact hback.subset (by simp)
        · rw [← (List.cons.inj hrest).2] at hback
          exact hback.subset (by simp)
      exact absurd hmem hafter
    | cons z front =>
      rw [(List.cons.inj hsplit).1]
      exact hfront.subset List.mem_cons_self
  · intro hy
    exact (List.singleton_sublist.mpr hy).append (List.cons_sublist_cons.mpr (List.nil_sublist _))

/-- Where at most one item of a list passes a test, the search for it depends only on which items
that pass it are there. -/
theorem find?_eq_of_unique {p : α → Bool} {xs ys : List α}
    (hmem : ∀ a, p a = true → (a ∈ xs ↔ a ∈ ys))
    (huniq : ∀ a ∈ xs, ∀ b ∈ xs, p a = true → p b = true → a = b) : xs.find? p = ys.find? p := by
  cases hx : xs.find? p with
  | none =>
    refine (List.find?_eq_none.mpr fun b hb hpb => ?_).symm
    exact List.find?_eq_none.mp hx b ((hmem b hpb).mpr hb) hpb
  | some a =>
    have ha := List.mem_of_find?_eq_some hx
    have hpa := List.find?_some hx
    cases hy : ys.find? p with
    | none => exact absurd hpa (List.find?_eq_none.mp hy a ((hmem a hpa).mp ha))
    | some b =>
      have hpb := List.find?_some hy
      have hb := (hmem b hpb).mpr (List.mem_of_find?_eq_some hy)
      rw [huniq a ha b hb hpa hpb]

/-- The checked classes are the classes of the list, each checked after those in front of it. -/
theorem mem_checkOnwards {o : Options} {ks : List Checked} {cs : List ClassDecl} {k : Checked} :
    k ∈ checkOnwards o ks cs ↔
      ∃ before y after, cs = before ++ y :: after ∧
        k = y.checkAfter (ks ++ checkOnwards o ks before) o := by
  constructor
  · intro hk
    induction cs generalizing ks with
    | nil => cases hk
    | cons c cs ih =>
      rcases List.mem_cons.mp hk with rfl | hk
      · exact ⟨[], c, cs, rfl, by rw [checkOnwards, List.append_nil]⟩
      · obtain ⟨before, y, after, rfl, rfl⟩ := ih hk
        refine ⟨c :: before, y, after, rfl, ?_⟩
        rw [checkOnwards, ← List.append_cons]
  · rintro ⟨before, y, after, rfl, rfl⟩
    rw [checkOnwards_append, checkOnwards]
    exact List.mem_append_right _ List.mem_cons_self

/-- The report on a checked class is about that class. -/
theorem report_of_mem_checkOnwards {o : Options} {ks : List Checked} {cs : List ClassDecl}
    {k : Checked} (h : k ∈ checkOnwards o ks cs) :
    k.report.className = k.declared.name ∧ k.report.isAbstract = k.declared.isAbstract := by
  obtain ⟨_, y, _, _, rfl⟩ := mem_checkOnwards.mp h
  exact ⟨rfl, rfl⟩

/-- Two orders find the same checked class for an ancestor when they have the same abstract classes
of its name before. -/
theorem checked?_eq_of_mem_iff {o : Options} {before before' : List ClassDecl} {a : Ancestor}
    (hnodup : (before.map (·.name)).Nodup)
    (h : ∀ k : Checked, k.report.isAbstract = true → k.report.className = a.name →
      (k ∈ checkOnwards o [] before ↔ k ∈ checkOnwards o [] before')) :
    a.checked? (checkOnwards o [] before) = a.checked? (checkOnwards o [] before') := by
  have hnames : ((checkOnwards o [] before).map (·.declared.name)).Nodup := by
    rw [← declared_checkOnwards o [] before, List.map_map] at hnodup
    exact hnodup
  refine find?_eq_of_unique (fun k hk => ?_) fun k hk l hl hpk hpl => ?_
  · obtain ⟨habs, hname⟩ := Bool.and_eq_true_iff.mp hk
    exact h k habs (beq_iff_eq.mp hname)
  · have hkname := beq_iff_eq.mp (Bool.and_eq_true_iff.mp hpk).2
    have hlname := beq_iff_eq.mp (Bool.and_eq_true_iff.mp hpl).2
    apply List.inj_on_of_nodup_map hnames hk hl
    rw [← (report_of_mem_checkOnwards hk).1, ← (report_of_mem_checkOnwards hl).1, hkname, hlname]

namespace Reordering

variable {cs ds : List ClassDecl}

/-- The names are distinct in the second order too. -/
theorem nodup_right (h : Reordering cs ds) : (ds.map (·.name)).Nodup :=
  (h.perm.map _).nodup_iff.mp h.nodup

/-- A reordering may be undone. -/
theorem symm (h : Reordering cs ds) : Reordering ds cs where
  perm := h.perm.symm
  nodup := h.nodup_right
  order := fun x hx y hy ha hn =>
    (h.order x (h.perm.mem_iff.mpr hx) y (h.perm.mem_iff.mpr hy) ha hn).symm

/-- An abstract ancestor that comes before a class does so in both orders. -/
theorem mem_before_of_mem (h : Reordering cs ds) {before after before' after' : List ClassDecl}
    {x y : ClassDecl} (hc : cs = before ++ x :: after) (hd : ds = before' ++ x :: after')
    (ha : y.isAbstract = true) (hn : y.name ∈ x.ancestors.map (·.name)) (hy : y ∈ before) :
    y ∈ before' := by
  have hxc : x ∈ cs := by rw [hc]; exact List.mem_append_right _ List.mem_cons_self
  have hyc : y ∈ cs := by rw [hc]; exact List.mem_append_left _ hy
  have hbefore : ComesBefore cs y.name x.name := by
    rw [hc]
    exact (comesBefore_iff (hc ▸ h.nodup) y.name).mpr (List.mem_map_of_mem hy)
  have hbefore' := (h.order x hxc y hyc ha hn).mp hbefore
  rw [hd, comesBefore_iff (hd ▸ h.nodup_right)] at hbefore'
  obtain ⟨z, hz, hname⟩ := List.mem_map.mp hbefore'
  have hzd : z ∈ ds := by rw [hd]; exact List.mem_append_left _ hz
  exact List.inj_on_of_nodup_map h.nodup_right hzd (h.perm.mem_iff.mp hyc) hname ▸ hz

/-- An abstract class that a class names stands in front of it in both orders or in none. -/
theorem mem_before_iff (h : Reordering cs ds) {before after before' after' : List ClassDecl}
    {x y : ClassDecl} (hc : cs = before ++ x :: after) (hd : ds = before' ++ x :: after')
    (ha : y.isAbstract = true) (hn : y.name ∈ x.ancestors.map (·.name)) :
    y ∈ before ↔ y ∈ before' :=
  ⟨h.mem_before_of_mem hc hd ha hn, h.symm.mem_before_of_mem hd hc ha hn⟩

/-- Where the classes that stand in front of `x` in both orders are checked alike, an ancestor of `x`
is resolved to the same class. -/
theorem checked?_eq (h : Reordering cs ds) {o : Options}
    {before after before' after' : List ClassDecl} {x : ClassDecl}
    (hc : cs = before ++ x :: after) (hd : ds = before' ++ x :: after')
    (halike : ∀ {front back front' back' : List ClassDecl} {y : ClassDecl},
      before = front ++ y :: back → before' = front' ++ y :: back' →
      y.checkAfter (checkOnwards o [] front) o = y.checkAfter (checkOnwards o [] front') o)
    {a : Ancestor} (ha : a ∈ x.ancestors) :
    a.checked? (checkOnwards o [] before) = a.checked? (checkOnwards o [] before') := by
  have hnodup : (before.map (·.name)).Nodup := by
    have hcs := h.nodup
    rw [hc, List.map_append] at hcs
    exact (List.nodup_append.mp hcs).1
  have hfront : ∀ y : ClassDecl, y.isAbstract = true → y.name = a.name →
      (y ∈ before ↔ y ∈ before') := fun y habs hname =>
    h.mem_before_iff hc hd habs (List.mem_map.mpr ⟨a, ha, hname.symm⟩)
  refine checked?_eq_of_mem_iff hnodup fun k habs hname => ⟨fun hk => ?_, fun hk => ?_⟩
  · obtain ⟨front, y, back, hbefore, rfl⟩ := mem_checkOnwards.mp hk
    have hy : y ∈ before' := (hfront y habs hname).mp (by rw [hbefore]; simp)
    obtain ⟨front', back', hbefore'⟩ := List.append_of_mem hy
    exact mem_checkOnwards.mpr ⟨front', y, back', hbefore', halike hbefore hbefore'⟩
  · obtain ⟨front', y, back', hbefore', rfl⟩ := mem_checkOnwards.mp hk
    have hy : y ∈ before := (hfront y habs hname).mpr (by rw [hbefore']; simp)
    obtain ⟨front, back, hbefore⟩ := List.append_of_mem hy
    exact mem_checkOnwards.mpr ⟨front, y, back, hbefore, (halike hbefore hbefore').symm⟩

/-- A class is checked alike in both orders. -/
theorem checkAfter_eq (h : Reordering cs ds) (o : Options)
    {before after before' after' : List ClassDecl} {x : ClassDecl}
    (hc : cs = before ++ x :: after) (hd : ds = before' ++ x :: after') :
    x.checkAfter (checkOnwards o [] before) o = x.checkAfter (checkOnwards o [] before') o := by
  -- The classes in front of `x` have fewer classes in front of them than `x`.
  induction hlen : before.length using Nat.strongRecOn
    generalizing before after before' after' x with
  | _ n ih =>
    have halike : ∀ {front back front' back' : List ClassDecl} {y : ClassDecl},
        before = front ++ y :: back → before' = front' ++ y :: back' →
        y.checkAfter (checkOnwards o [] front) o = y.checkAfter (checkOnwards o [] front') o := by
      intro front back front' back' y hbefore hbefore'
      have hlt : front.length < n := by
        rw [← hlen, hbefore, List.length_append, List.length_cons]
        omega
      have hcy : cs = front ++ y :: (back ++ x :: after) := by rw [hc, hbefore]; simp
      have hdy : ds = front' ++ y :: (back' ++ x :: after') := by rw [hd, hbefore']; simp
      exact ih front.length hlt hcy hdy rfl
    have hresolve : ∀ a ∈ x.ancestors,
        a.resolve (checkOnwards o [] before) = a.resolve (checkOnwards o [] before') :=
      fun a ha => by rw [Ancestor.resolve, Ancestor.resolve, h.checked?_eq hc hd halike ha]
    have hx : x.resolve (checkOnwards o [] before) = x.resolve (checkOnwards o [] before') := by
      rw [ClassDecl.resolve, ClassDecl.resolve, List.map_congr_left hresolve]
    rw [ClassDecl.checkAfter, ClassDecl.checkAfter, hx]

end Reordering

/-- An element with an index splits the list there. -/
theorem exists_append_of_getElem? {xs : List α} {i : Nat} {a : α} (h : xs[i]? = some a) :
    ∃ before after, xs = before ++ a :: after ∧ before.length = i := by
  obtain ⟨hi, ha⟩ := List.getElem?_eq_some_iff.mp h
  refine ⟨xs.take i, xs.drop (i + 1), ?_, List.length_take_of_le (Nat.le_of_lt hi)⟩
  rw [← ha, ← List.drop_eq_getElem_cons hi, List.take_append_drop]

/-- The check of a hierarchy does not depend on which order is chosen, as long as every class stays
on the same side of the abstract classes it names: each class has the same report in both orders. -/
theorem checkHierarchy_of_reordering {cs ds : List ClassDecl} (h : Reordering cs ds) (o : Options)
    {i j : Nat} {c : ClassDecl} (hi : cs[i]? = some c) (hj : ds[j]? = some c) :
    ∃ r, (checkHierarchy cs o)[i]? = some r ∧ (checkHierarchy ds o)[j]? = some r := by
  obtain ⟨before, after, hc, rfl⟩ := exists_append_of_getElem? hi
  obtain ⟨before', after', hd, rfl⟩ := exists_append_of_getElem? hj
  have hsame := congrArg Checked.report (h.checkAfter_eq o hc hd)
  refine ⟨(c.checkAfter (checkOnwards o [] before) o).report, ?_, ?_⟩
  · rw [hc]
    exact getElem?_checkHierarchy before c after o
  · rw [hsame, hd]
    exact getElem?_checkHierarchy before' c after' o

/-- An abstract class with a method that its subclasses have to implement. -/
def engine : ClassDecl :=
  ⟨"Engine", true, [(Member.concrete .method "Engine" "start" (.keyword .void)).asAbstract], []⟩

/-- An abstract class that names another one and adds a method of its own. -/
def turbine : ClassDecl :=
  ⟨"Turbine", true, [(Member.concrete .method "Turbine" "stop" (.keyword .void)).asAbstract],
    [.ofClass "Engine" []]⟩

/-- An abstract class on its own. -/
def gauge : ClassDecl :=
  ⟨"Gauge", true, [(Member.concrete .getAccessor "Gauge" "value" (.keyword .number)).asAbstract], []⟩

/-- A concrete class that names all of them and implements nothing. -/
def plant : ClassDecl :=
  ⟨"Plant", false, [], [.ofClass "Turbine" [], .ofClass "Gauge" [], .ofClass "Engine" []]⟩

/-- The plant is reported alike wherever the gauge stands. -/
theorem plant_reordered :
    Reordering [engine, turbine, gauge, plant] [gauge, engine, turbine, plant] ∧
      ∃ r, (checkHierarchy [engine, turbine, gauge, plant] .initial)[3]? = some r ∧
        (checkHierarchy [gauge, engine, turbine, plant] .initial)[3]? = some r ∧
        r.violations.map (·.member) = ["start", "stop", "value"] := by
  have hperm : ([engine, turbine] ++ gauge :: [plant]).Perm
      (gauge :: ([engine, turbine] ++ [plant])) := List.perm_middle
  have h : Reordering [engine, turbine, gauge, plant] [gauge, engine, turbine, plant] :=
    ⟨hperm, by decide, by decide⟩
  obtain ⟨r, hr, hr'⟩ := checkHierarchy_of_reordering h .initial (i := 3) (j := 3) rfl rfl
  refine ⟨h, r, hr, hr', ?_⟩
  have hmembers : ((checkHierarchy [engine, turbine, gauge, plant] .initial)[3]?).map
      (·.violations.map (·.member)) = some ["start", "stop", "value"] := by decide
  rw [hr] at hmembers
  exact Option.some.inj hmembers

end ClassContract
