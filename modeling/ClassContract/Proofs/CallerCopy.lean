import ClassContract.Proofs.Interchange
import ClassContract.Proofs.Reordering

/-!
# Copies of a checked class

An ancestor that names an abstract class checked before is resolved to what that class leaves open
and implements, and then to further implementations that the caller listed. So a list without
further implementations is as good as none, `resolvedMembers_listing`. The classes that follow get to
know of a checked class only its report and its own members, so that nothing changes for them
either: `checkHierarchy_listing`.
-/

namespace ClassContract

/-- The class has every implementation of a list. -/
def ClassDecl.Covers (c : ClassDecl) (ms : List Member) : Prop :=
  ∀ m ∈ ms, m.isAbstract = false → ∃ d ∈ c.members, d.isAbstract = false ∧ (m == d) = true

namespace Ancestor

/-- The ancestor with other members listed for it. -/
def listing (a : Ancestor) (ms : List Member) : Ancestor := { a with members := ms }

/-- The class that an ancestor is resolved to: the first abstract class of its name. -/
def named? (before : List ClassDecl) (a : Ancestor) : Option ClassDecl :=
  before.find? fun c => c.isAbstract && c.name == a.name

/-- An ancestor is resolved to the class that it names. -/
theorem declared_checked? (o : Options) (ks : List Checked) (cs : List ClassDecl) (a : Ancestor) :
    (a.checked? (checkOnwards o ks cs)).map (·.declared) = a.named? cs := by
  induction cs generalizing ks with
  | nil => rfl
  | cons c cs ih =>
    have hreport : ((c.checkAfter ks o).report.isAbstract
        && (c.checkAfter ks o).report.className == a.name) =
        (c.isAbstract && c.name == a.name) := rfl
    rw [checkOnwards, checked?, named?, List.find?_cons, List.find?_cons, hreport]
    cases c.isAbstract && c.name == a.name with
    | true => rfl
    | false => exact ih _

/-- Implementations that the class has itself add nothing to what an ancestor is resolved to. -/
theorem resolvedMembers_listing {k : Checked} {ms : List Member} (h : k.declared.Covers ms)
    (a : Ancestor) : (a.listing ms).resolvedMembers k = (a.listing []).resolvedMembers k := by
  have hempty : (a.listing []).resolvedMembers k = k.handedOn := by
    rw [resolvedMembers, listing, List.append_nil, Checked.handedOn]
  rw [hempty, resolvedMembers, listing, List.filter_append, addAllNew_append]
  refine addAllNew_eq_self fun m hm => ?_
  obtain ⟨hm, habs⟩ := List.mem_filter.mp hm
  obtain ⟨d, hd, hdabs, hmd⟩ := h m hm (by simpa using habs)
  have hown : d ∈ k.declared.members.filter (!·.isAbstract) :=
    List.mem_filter.mpr ⟨hd, by simp [hdabs]⟩
  obtain ⟨b, hb, hdb⟩ := exists_mem_addAllNew hown k.report.pending
  have hmb : (m == b) = true := by
    rcases hdb with rfl | hdb
    · exact hmd
    · exact BEq.trans hmd hdb
  exact List.contains_iff_exists_mem_beq.mpr ⟨b, hb, hmb⟩

end Ancestor

/-- What later classes get to know of a checked class: its report and its own members. -/
def Checked.known (k : Checked) : Report × List Member := (k.report, k.declared.members)

/-- Resolution asks for nothing else. -/
theorem Ancestor.resolve_eq_of_known {ks ls : List Checked}
    (h : ks.map Checked.known = ls.map Checked.known) (a : Ancestor) :
    a.resolve ks = a.resolve ls := by
  have hresolve : ∀ ks : List Checked, a.resolve ks =
      ((ks.map Checked.known).find? fun k => k.1.isAbstract && k.1.className == a.name).elim a
        fun k => a.listing (addAllNew k.1.pending ((k.2 ++ a.members).filter (!·.isAbstract))) := by
    intro ks
    rw [List.find?_map, resolve]
    show _ = Option.elim (Option.map _ (a.checked? ks)) _ _
    cases a.checked? ks with
    | none => rfl
    | some k => rfl
  rw [hresolve, hresolve, h]

/-- Resolving an ancestor needs no more of checked classes than what is known of them. -/
theorem ClassDecl.resolve_eq_of_known {ks ls : List Checked}
    (h : ks.map Checked.known = ls.map Checked.known) (c : ClassDecl) :
    c.resolve ks = c.resolve ls := by
  rw [resolve, resolve, List.map_congr_left fun a _ => a.resolve_eq_of_known h]

/-- The classes that follow are checked alike after classes of which they know the same. -/
theorem known_checkOnwards (o : Options) {ks ls : List Checked}
    (h : ks.map Checked.known = ls.map Checked.known) (cs : List ClassDecl) :
    (checkOnwards o ks cs).map Checked.known = (checkOnwards o ls cs).map Checked.known := by
  induction cs generalizing ks ls with
  | nil => rfl
  | cons c cs ih =>
    have hc : c.checkAfter ks o = c.checkAfter ls o := by
      rw [ClassDecl.checkAfter, ClassDecl.checkAfter, c.resolve_eq_of_known h]
    have hlonger : (ks ++ [c.checkAfter ks o]).map Checked.known =
        (ls ++ [c.checkAfter ls o]).map Checked.known := by
      rw [List.map_append, List.map_append, h, hc]
    rw [checkOnwards, checkOnwards, List.map_cons, List.map_cons]
    exact congrArg₂ List.cons (congrArg Checked.known hc) (ih hlonger)

/-- Two classes of which later ones know the same when they are checked have the same effect in a
hierarchy. -/
theorem checkHierarchy_eq_of_known {o : Options} {before after : List ClassDecl} {c d : ClassDecl}
    (h : (c.checkAfter (checkOnwards o [] before) o).known =
      (d.checkAfter (checkOnwards o [] before) o).known) :
    checkHierarchy (before ++ c :: after) o = checkHierarchy (before ++ d :: after) o := by
  have hlonger : (checkOnwards o [] before ++ [c.checkAfter (checkOnwards o [] before) o]).map
      Checked.known = (checkOnwards o [] before ++ [d.checkAfter (checkOnwards o [] before) o]).map
      Checked.known := by
    simp only [List.map_append, List.map_cons, List.map_nil, h]
  have hrun : (checkOnwards o [] (before ++ c :: after)).map Checked.known =
      (checkOnwards o [] (before ++ d :: after)).map Checked.known := by
    simp only [checkOnwards_append, checkOnwards, List.nil_append, List.map_append, List.map_cons,
      h, known_checkOnwards o hlonger]
  have hreports : ∀ cs, checkHierarchy cs o =
      ((checkOnwards o [] cs).map Checked.known).map (·.1) := fun cs => by
    rw [checkHierarchy, List.map_map]
    rfl
  rw [hreports, hreports, hrun]

/-- The class with other members listed for its ancestor at a place. -/
def ClassDecl.listing (c : ClassDecl) (j : Nat) (ms : List Member) : ClassDecl :=
  { c with ancestors := c.ancestors.modify j (·.listing ms) }

/-- Where a member list without further implementations is put in the place of another one, the
class is resolved alike. -/
theorem ClassDecl.resolve_listing {c : ClassDecl} {j : Nat} {a : Ancestor} {ks : List Checked}
    {k : Checked} (ha : c.ancestors[j]? = some a) (hk : a.checked? ks = some k) {ms : List Member}
    (hms : k.declared.Covers ms) : (c.listing j ms).resolve ks = (c.listing j []).resolve ks := by
  obtain ⟨front, back, hc, rfl⟩ := exists_append_of_getElem? ha
  have hlisting : ∀ ms, c.ancestors.modify front.length (·.listing ms) =
      front ++ a.listing ms :: back := fun ms => by simp [hc, List.modify_eq_take_drop]
  have hresolve : ∀ ms, (a.listing ms).resolve ks =
      { a with members := (a.listing ms).resolvedMembers k } := fun ms => by
    have hk : (a.listing ms).checked? ks = some k := hk
    rw [Ancestor.resolve, hk]
    rfl
  have hsame : (a.listing ms).resolve ks = (a.listing []).resolve ks := by
    rw [hresolve, hresolve, Ancestor.resolvedMembers_listing hms]
  simp only [resolve, listing, hlisting, List.map_append, List.map_cons, hsame]

/-- What the caller lists for an ancestor that names an abstract class checked before does not
matter, as long as it has no implementation that the class does not have: all classes have the
reports that they have when nothing is listed. -/
theorem checkHierarchy_listing {cs : List ClassDecl} {i j : Nat} {x y : ClassDecl} {a : Ancestor}
    (hx : cs[i]? = some x) (ha : x.ancestors[j]? = some a) (hy : a.named? (cs.take i) = some y)
    {ms : List Member} (hms : y.Covers ms) (o : Options) :
    checkHierarchy (cs.modify i (·.listing j ms)) o =
      checkHierarchy (cs.modify i (·.listing j [])) o := by
  obtain ⟨before, after, rfl, rfl⟩ := exists_append_of_getElem? hx
  rw [List.take_left] at hy
  rw [← a.declared_checked? o []] at hy
  obtain ⟨k, hk, rfl⟩ := Option.map_eq_some_iff.mp hy
  have hlisting : ∀ ms, (before ++ x :: after).modify before.length (·.listing j ms) =
      before ++ x.listing j ms :: after := fun ms => by simp [List.modify_eq_take_drop]
  rw [hlisting, hlisting]
  apply checkHierarchy_eq_of_known
  rw [ClassDecl.checkAfter, ClassDecl.checkAfter, ClassDecl.resolve_listing ha hk hms]
  rfl

/-- An abstract class with a readonly field, which leaves a method to its subclasses. -/
def parcel : ClassDecl :=
  ⟨"Parcel", true,
    [.asReadonly (.concrete .field "Parcel" "code" (.keyword .string)),
      .asAbstract (.concrete .method "Parcel" "route" (.keyword .void))], []⟩

/-- A copy of its members with the field twice and another method. -/
def parcelCopy : List Member :=
  [.asReadonly (.concrete .field "Parcel" "code" (.keyword .string)),
    .asAbstract (.concrete .method "Parcel" "weigh" (.keyword .number)),
    .asReadonly (.concrete .field "Parcel" "code" (.keyword .string))]

/-- An abstract class below it, which makes the field assignable. -/
def crate : ClassDecl :=
  ⟨"Crate", true, [.concrete .field "Crate" "code" (.keyword .string)], [.ofClass "Parcel" []]⟩

/-- A concrete class below both. -/
def pallet : ClassDecl :=
  ⟨"Pallet", false, [], [.ofClass "Crate" [], .ofClass "Parcel" []]⟩

/-- A stale copy of the parcel makes no difference to the crate or to the pallet below it. -/
theorem crate_copy_of_parcel :
    (Ancestor.ofClass "Parcel" []).named? [parcel] = some parcel ∧ parcel.Covers parcelCopy
      ∧ checkHierarchy ([parcel, crate, pallet].modify 1 (·.listing 0 parcelCopy)) .initial =
        checkHierarchy ([parcel, crate, pallet].modify 1 (·.listing 0 [])) .initial
      ∧ (checkHierarchy [parcel, crate, pallet] .initial).map (·.codes) =
        [[], [.readonlyViolation], [.unimplemented]] := by
  have hcovers : parcel.Covers parcelCopy := by
    intro m hm habs
    refine ⟨_, List.mem_cons_self, rfl, ?_⟩
    simp only [parcelCopy, List.mem_cons, List.not_mem_nil, or_false] at hm
    rcases hm with rfl | rfl | rfl
    · rfl
    · cases habs
    · rfl
  exact ⟨rfl, hcovers, checkHierarchy_listing rfl rfl rfl hcovers .initial, by decide⟩

end ClassContract
