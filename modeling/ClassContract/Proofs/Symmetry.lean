import ClassContract.Proofs.Interchange
import Mathlib.Data.Fintype.EquivFin

/-!
# When identity is symmetric

A union is found identical to another of the same length if each of its members has a partner there.
Where no two of its members are identical, different members have different partners, so that all
members of the other union are taken and identity holds in the other direction too. Hence identity
is an equivalence on types without repeated members (`isIdentical_equivalence`).

A repeated member frees a place in the other union, which may then hold anything, such as a new name
(`Replacement`). So each type with a repeated member is identical to a type without repeated members
that is not identical to it, and identity is symmetric on the types without repeated members and on
no larger class of types (`isIdentical_comm_iff`).
-/

namespace ClassContract

namespace MemberType

/-- No union of the type, however deep, has identical members at two places. -/
inductive Irredundant : MemberType → Prop
  | keyword (k : Keyword) : Irredundant (.keyword k)
  | literal (l : Literal) : Irredundant (.literal l)
  | named (x : String) : Irredundant (.named x)
  | union {ms : List MemberType}
    (hne : ms.Pairwise fun a b => a.isIdentical b = false ∧ b.isIdentical a = false)
    (hms : ∀ m ∈ ms, Irredundant m) : Irredundant (.union ms)
  | function {ps : List MemberType} {r : MemberType} (hps : ∀ p ∈ ps, Irredundant p)
    (hr : Irredundant r) : Irredundant (.function ps r)

/-- Types of which neither is identical to the other within `n` levels. -/
def Apart (n : Nat) (a b : MemberType) : Prop :=
  (identical n a b).holds = false ∧ (identical n b a).holds = false

instance (n : Nat) (a b : MemberType) : Decidable (Apart n a b) :=
  inferInstanceAs (Decidable (_ ∧ _))

/-- No union of the type has members at two places that are identical within the levels left for
them. Where no level is left for the members, they are not compared and none counts as repeated. -/
def IrredundantWithin : Nat → MemberType → Prop
  | n + 1, .union ms => (0 < n → ms.Pairwise (Apart n)) ∧ ∀ m ∈ ms, IrredundantWithin n m
  | n + 1, .function ps r => (∀ p ∈ ps, IrredundantWithin n p) ∧ IrredundantWithin n r
  | _, _ => True

instance decidableIrredundantWithin :
    (n : Nat) → (t : MemberType) → Decidable (IrredundantWithin n t)
  | 0, _ => .isTrue trivial
  | n + 1, .union ms =>
    @instDecidableAnd _ _ inferInstance
      (@List.decidableBAll _ _ (decidableIrredundantWithin n) ms)
  | n + 1, .function ps r =>
    @instDecidableAnd _ _ (@List.decidableBAll _ _ (decidableIrredundantWithin n) ps)
      (decidableIrredundantWithin n r)
  | _ + 1, .keyword _ => .isTrue trivial
  | _ + 1, .literal _ => .isTrue trivial
  | _ + 1, .named _ => .isTrue trivial

/-- Whether a type is identical to another shows within any number of levels above its height. -/
theorem isIdentical_eq_holds {a : MemberType} {n : Nat} (ha : a.height < n) (hn : n ≤ maxDepth)
    (b : MemberType) : a.isIdentical b = (identical n a b).holds := by
  refine Bool.eq_iff_iff.mpr ⟨fun h => ?_, fun h => ?_⟩
  · have halike : alike a b = true := alike_of_holds_identical (Nat.lt_of_lt_of_le ha hn) h
    exact holds_identical_of_alike halike n
  · exact holds_identical_of_alike (alike_of_holds_identical ha h) maxDepth

/-- The two notions agree where there are more levels than the type is high. -/
theorem irredundant_iff_within {t : MemberType} {n : Nat} (ht : t.height < n) (hn : n ≤ maxDepth) :
    Irredundant t ↔ IrredundantWithin n t := by
  induction n generalizing t with
  | zero => omega
  | succ n ih =>
    have hn : n ≤ maxDepth := by omega
    cases t with
    | keyword k => exact iff_of_true (.keyword k) trivial
    | literal l => exact iff_of_true (.literal l) trivial
    | named x => exact iff_of_true (.named x) trivial
    | union ms =>
      have hpos : 0 < n := by
        rw [height] at ht
        omega
      have hlt : ∀ m ∈ ms, m.height < n := fun m hm => by
        have := height_lt_of_mem_union hm
        omega
      have hpair : (ms.Pairwise fun a b => a.isIdentical b = false ∧ b.isIdentical a = false) ↔
          ms.Pairwise (Apart n) :=
        List.Pairwise.iff_of_mem fun {a b} ha hb => by
          rw [Apart, isIdentical_eq_holds (hlt a ha) hn, isIdentical_eq_holds (hlt b hb) hn]
      constructor
      · intro h
        cases h with
        | union hne hms =>
          exact ⟨fun _ => hpair.mp hne, fun m hm => (ih (hlt m hm) hn).mp (hms m hm)⟩
      · rintro ⟨hne, hms⟩
        exact .union (hpair.mpr (hne hpos)) fun m hm => (ih (hlt m hm) hn).mpr (hms m hm)
    | function ps r =>
      have hps : ∀ p ∈ ps, p.height < n := fun p hp => by
        have := height_lt_of_mem_params hp r
        omega
      have hr : r.height < n := by
        have := height_result_lt ps r
        omega
      constructor
      · intro h
        cases h with
        | function hparams hresult =>
          exact ⟨fun p hp => (ih (hps p hp) hn).mp (hparams p hp), (ih hr hn).mp hresult⟩
      · rintro ⟨hparams, hresult⟩
        exact .function (fun p hp => (ih (hps p hp) hn).mpr (hparams p hp))
          ((ih hr hn).mpr hresult)

/-- If there are as many partners as items and no partner serves two items, then every partner
serves one. -/
theorem exists_served {R : α → β → Prop} {ls : List α} {rs : List β}
    (hlen : ls.length = rs.length) (h : ∀ l ∈ ls, ∃ r ∈ rs, R l r)
    (hne : ls.Pairwise fun l l' => ∀ r, R l r → ¬R l' r) : ∀ r ∈ rs, ∃ l ∈ ls, R l r := by
  induction ls generalizing rs with
  | nil =>
    obtain rfl : rs = [] := List.length_eq_zero_iff.mp hlen.symm
    simp
  | cons l ls ih =>
    obtain ⟨hl, hne⟩ := List.pairwise_cons.mp hne
    obtain ⟨r₀, hr₀, hlr₀⟩ := h l List.mem_cons_self
    obtain ⟨front, back, rfl⟩ := List.append_of_mem hr₀
    have hothers : ∀ l' ∈ ls, ∃ r ∈ front ++ back, R l' r := fun l' hl' => by
      obtain ⟨r, hr, hlr⟩ := h l' (List.mem_cons_of_mem l hl')
      rcases List.mem_cons.mp (List.perm_middle.mem_iff.mp hr) with rfl | hr
      · exact absurd hlr (hl l' hl' r hlr₀)
      · exact ⟨r, hr, hlr⟩
    have hlen : ls.length = (front ++ back).length := by
      simp only [List.length_cons, List.length_append] at hlen ⊢
      omega
    have hserved := ih hlen hothers hne
    intro r hr
    rcases List.mem_cons.mp (List.perm_middle.mem_iff.mp hr) with rfl | hr
    · exact ⟨l, List.mem_cons_self, hlr₀⟩
    · obtain ⟨l', hl', hlr⟩ := hserved r hr
      exact ⟨l', List.mem_cons_of_mem l hl', hlr⟩

/-- Interchangeable types are identical. -/
theorem Interchangeable.identical {n : Nat} {a b : MemberType} (h : Interchangeable n a b) :
    (identical n a b).holds = true :=
  (Interchangeable.refl n a).holds_identical h (holds_identical_self n a)

/-- A type without repeated members is interchangeable with every type that it is identical to. -/
theorem interchangeable_of_identical {n : Nat} {a b : MemberType} (ha : IrredundantWithin n a)
    (h : (identical n a b).holds = true) : Interchangeable n a b := by
  induction n generalizing a b with
  | zero => trivial
  | succ n ih =>
    rw [holds_identical_succ] at h
    cases h with
    | keyword | named => exact .refl _ _
    | literal h => exact ⟨.literal h, .literal (BEq.symm h)⟩
    | @union ls rs hlen h =>
      obtain ⟨hne, hls⟩ := ha
      have hforth : ∀ l ∈ ls, ∃ r ∈ rs, Interchangeable n l r := fun l hl => by
        obtain ⟨r, hr, hlr⟩ := h l hl
        exact ⟨r, hr, ih (hls l hl) hlr⟩
      refine ⟨.union hlen hforth, .union hlen.symm ?_⟩
      cases n with
      | zero =>
        intro r hr
        have hpos : 0 < ls.length := hlen ▸ List.length_pos_of_mem hr
        exact ⟨ls[0], List.getElem_mem hpos, trivial⟩
      | succ n =>
        refine exists_served hlen hforth ((hne n.succ_pos).imp fun {l l'} hll' r hlr hlr' => ?_)
        have hident := holds_identical_trans hlr.identical hlr'.symm.identical
        rw [hll'.1] at hident
        cases hident
    | @function ps qs r s hparams hresult =>
      obtain ⟨hps, hr⟩ := ha
      have hparams : List.Forall₂ (Interchangeable n) ps qs :=
        ((List.forall₂_and_left ps qs).mpr ⟨hps, hparams⟩).imp fun _ _ h => ih h.1 h.2
      have hresult : Interchangeable n r s := ih hr hresult
      exact ⟨.function hparams hresult, .function hparams.flip hresult⟩

/-- On types that are at most 63 high and have no repeated members, identity is an equivalence. -/
theorem isIdentical_equivalence :
    Equivalence fun a b : {t : MemberType // t.height ≤ 63 ∧ t.Irredundant} =>
      a.val.isIdentical b.val = true where
  refl a := holds_identical_self maxDepth a.val
  symm {a b} h := by
    have ha : IrredundantWithin maxDepth a.val :=
      (irredundant_iff_within (Nat.lt_succ_of_le a.property.1) (Nat.le_refl _)).mp a.property.2
    exact (interchangeable_of_identical ha h).symm.identical
  trans h h' := holds_identical_trans h h'

/-- A look-up by a text or a number. -/
def lookup : MemberType :=
  .function [.union [.keyword .string, .keyword .number]]
    (.union [.named "Entry", .function [] (.union [.keyword .null, .keyword .undefined])])

/-- The same look-up with the members of its unions in another order. -/
def lookupReordered : MemberType :=
  .function [.union [.keyword .number, .keyword .string]]
    (.union [.function [] (.union [.keyword .undefined, .keyword .null]), .named "Entry"])

/-- The reordered lookup is identical to the lookup. -/
theorem lookup_identical_back :
    lookup.Irredundant ∧ lookupReordered.Irredundant ∧
      lookupReordered.isIdentical lookup = true := by
  have h : lookup.Irredundant :=
    (irredundant_iff_within (by decide) (Nat.le_refl maxDepth)).mpr (by decide)
  have h' : lookupReordered.Irredundant :=
    (irredundant_iff_within (by decide) (Nat.le_refl maxDepth)).mpr (by decide)
  have hforth : lookup.isIdentical lookupReordered = true := by decide
  exact ⟨h, h', @Equivalence.symm _ _ isIdentical_equivalence ⟨lookup, by decide, h⟩
    ⟨lookupReordered, by decide, h'⟩ hforth⟩

mutual

/-- The names of the classes and interfaces that a type mentions. -/
def names : MemberType → List String
  | .named x => [x]
  | .union ms => namesIn ms
  | .function ps r => namesIn ps ++ names r
  | _ => []

/-- The names that the types of a list mention. -/
def namesIn : List MemberType → List String
  | [] => []
  | t :: ts => names t ++ namesIn ts

end

/-- The names of a type are among those of a list that it is in. -/
theorem mem_namesIn {x : String} {t : MemberType} {ts : List MemberType} (ht : t ∈ ts)
    (hx : x ∈ t.names) : x ∈ namesIn ts := by
  induction ts with
  | nil => cases ht
  | cons u ts ih =>
    rw [namesIn]
    rcases List.mem_cons.mp ht with rfl | ht
    · exact List.mem_append_left _ hx
    · exact List.mem_append_right _ (ih ht)

/-- Within `n` levels the type is identical only to types that mention the name. -/
def Marked (x : String) (n : Nat) (t : MemberType) : Prop :=
  ∀ u, (identical n t u).holds = true → x ∈ u.names

namespace Marked

variable {x : String} {n : Nat}

/-- A name is marked by itself. -/
theorem named (x : String) (n : Nat) : Marked x (n + 1) (.named x) := by
  intro u h
  rw [holds_identical_succ] at h
  cases h
  exact List.mem_singleton.mpr rfl

/-- A union is marked by a marked member. -/
theorem union {m : MemberType} {ms : List MemberType} (hm : m ∈ ms) (h : Marked x n m) :
    Marked x (n + 1) (.union ms) := by
  intro u hu
  rw [holds_identical_succ] at hu
  cases hu with
  | union _ hu =>
    obtain ⟨r, hr, hmr⟩ := hu m hm
    exact mem_namesIn hr (h r hmr)

/-- A function is marked by a marked parameter. -/
theorem param {p : MemberType} {ps : List MemberType} (hp : p ∈ ps) (h : Marked x n p)
    (r : MemberType) : Marked x (n + 1) (.function ps r) := by
  intro u hu
  rw [holds_identical_succ] at hu
  cases hu with
  | function hparams _ =>
    obtain ⟨q, hq, hpq⟩ := exists_mem_of_forall₂ hparams hp
    exact List.mem_append_left _ (mem_namesIn hq (h q hpq))

/-- A function is marked by a marked result. -/
theorem result {r : MemberType} (h : Marked x n r) (ps : List MemberType) :
    Marked x (n + 1) (.function ps r) := by
  intro u hu
  rw [holds_identical_succ] at hu
  cases hu with
  | function _ hresult => exact List.mem_append_right _ (h _ hresult)

/-- What is identical to a marked type is marked. -/
theorem of_identical {a b : MemberType} (ha : Marked x n a) (h : (identical n a b).holds = true) :
    Marked x n b :=
  fun u hu => ha u (holds_identical_trans h hu)

end Marked

/-- A type is apart from a name that does not occur in it. -/
theorem apart_named {x : String} {m : MemberType} {n : Nat} (hx : x ∉ m.names) :
    Apart (n + 1) (.named x) m := by
  constructor
  · exact Bool.eq_false_iff.mpr fun h => hx (Marked.named x n m h)
  · refine Bool.eq_false_iff.mpr fun h => hx ?_
    rw [holds_identical_succ] at h
    cases h
    exact List.mem_singleton.mpr rfl

/-- A type is identical to a type without repeated members unless the two are apart. -/
theorem identical_of_not_apart {n : Nat} {a b : MemberType} (hb : IrredundantWithin n b)
    (h : ¬Apart n a b) : (identical n a b).holds = true := by
  simp only [Apart, not_and_or, Bool.not_eq_false] at h
  rcases h with h | h
  · exact h
  · exact (interchangeable_of_identical hb h).symm.identical

/-- Members `ms` that can take the places of the members `ls` of a union and are not repeated. -/
structure Replacement (n : Nat) (avoid : List String) (ls ms : List MemberType) : Prop where
  /-- There are as many as before. -/
  length_eq : ls.length = ms.length
  /-- They have no repeated members themselves. -/
  irredundant : ∀ m ∈ ms, IrredundantWithin n m
  /-- No two of them are identical. -/
  apart : ms.Pairwise (Apart n)
  /-- Each of the old members has a partner among them. -/
  covers : ∀ l ∈ ls, ∃ m ∈ ms, (identical n l m).holds = true
  /-- If an old member was repeated, a new name has its place. -/
  named : ¬ls.Pairwise (Apart n) → ∃ x, x ∉ avoid ∧ .named x ∈ ms

namespace Replacement

variable {n : Nat} {avoid : List String} {l m : MemberType} {ls ms : List MemberType}

/-- Nothing replaces nothing. -/
theorem nil : Replacement n avoid [] [] :=
  ⟨rfl, by simp, .nil, by simp, fun h => absurd .nil h⟩

/-- One more type is covered by one more replacement. -/
theorem covers_cons (h : Replacement n avoid ls ms) (k : MemberType)
    (hl : ∃ m ∈ k :: ms, (identical n l m).holds = true) :
    ∀ l' ∈ l :: ls, ∃ m ∈ k :: ms, (identical n l' m).holds = true := by
  refine List.forall_mem_cons.mpr ⟨hl, fun l' hl' => ?_⟩
  obtain ⟨m, hm, hlm⟩ := h.covers l' hl'
  exact ⟨m, List.mem_cons_of_mem k hm, hlm⟩

/-- A member that is identical to none of the others keeps its place. -/
theorem keep (h : Replacement n avoid ls ms) (hls : ∀ l' ∈ l :: ls, IrredundantWithin n l')
    (hnew : ∀ m ∈ ms, Apart n l m) : Replacement n avoid (l :: ls) (l :: ms) := by
  obtain ⟨hl, hls⟩ := List.forall_mem_cons.mp hls
  have hfirst : ∀ l' ∈ ls, Apart n l l' := fun l' hl' => by
    by_contra hnot
    obtain ⟨m, hm, hlm⟩ := h.covers l' hl'
    have hident := holds_identical_trans (identical_of_not_apart (hls l' hl') hnot) hlm
    rw [(hnew m hm).1] at hident
    cases hident
  constructor
  · exact congrArg (· + 1) h.length_eq
  · exact List.forall_mem_cons.mpr ⟨hl, h.irredundant⟩
  · exact List.pairwise_cons.mpr ⟨hnew, h.apart⟩
  · exact h.covers_cons l ⟨l, List.mem_cons_self, holds_identical_self n l⟩
  · intro hrep
    obtain ⟨x, hx, hmem⟩ := h.named fun hp => hrep (List.pairwise_cons.mpr ⟨hfirst, hp⟩)
    exact ⟨x, hx, List.mem_cons_of_mem l hmem⟩

/-- A member that is identical to another gives its place to a new name. -/
theorem rename (h : Replacement (n + 1) avoid ls ms) (hm : m ∈ ms)
    (hlm : (identical (n + 1) l m).holds = true) :
    ∃ x, Replacement (n + 1) avoid (l :: ls) (.named x :: ms) := by
  obtain ⟨x, hx⟩ := Infinite.exists_notMem_finset (avoid ++ namesIn ms).toFinset
  simp only [List.mem_toFinset, List.mem_append, not_or] at hx
  have hname : ∀ m ∈ ms, Apart (n + 1) (.named x) m := fun m hm =>
    apart_named fun h => hx.2 (mem_namesIn hm h)
  refine ⟨x, ?_⟩
  constructor
  · exact congrArg (· + 1) h.length_eq
  · exact List.forall_mem_cons.mpr ⟨trivial, h.irredundant⟩
  · exact List.pairwise_cons.mpr ⟨hname, h.apart⟩
  · exact h.covers_cons (.named x) ⟨m, List.mem_cons_of_mem _ hm, hlm⟩
  · exact fun _ => ⟨x, hx.1, List.mem_cons_self⟩

end Replacement

/-- Members without repetitions inside them have a replacement. -/
theorem exists_replacement {n : Nat} {ls : List MemberType}
    (hls : ∀ l ∈ ls, IrredundantWithin (n + 1) l) (avoid : List String) :
    ∃ ms, Replacement (n + 1) avoid ls ms := by
  induction ls with
  | nil => exact ⟨[], .nil⟩
  | cons l ls ih =>
    obtain ⟨ms, h⟩ := ih (List.forall_mem_cons.mp hls).2
    by_cases hnew : ∀ m ∈ ms, Apart (n + 1) l m
    · exact ⟨l :: ms, h.keep hls hnew⟩
    · simp only [not_forall] at hnew
      obtain ⟨m, hm, hnot⟩ := hnew
      obtain ⟨x, hx⟩ := h.rename hm (identical_of_not_apart (h.irredundant m hm) hnot)
      exact ⟨.named x :: ms, hx⟩

/-- If the members of a union are identical to ones that are repeated or marked, then the union is
identical to one without repeated members that is marked. -/
theorem exists_marked_union {n : Nat} {ks ls : List MemberType} (hlen : ks.length = ls.length)
    (hls : ∀ l ∈ ls, IrredundantWithin (n + 1) l)
    (hks : ∀ k ∈ ks, ∃ l ∈ ls, (identical (n + 1) k l).holds = true) {avoid : List String}
    (h : ¬ls.Pairwise (Apart (n + 1)) ∨ ∃ x, x ∉ avoid ∧ ∃ l ∈ ls, Marked x (n + 1) l) :
    ∃ b, (identical (n + 2) (.union ks) b).holds = true ∧ IrredundantWithin (n + 2) b ∧
      ∃ x, x ∉ avoid ∧ Marked x (n + 2) b := by
  obtain ⟨ms, hms⟩ := exists_replacement hls avoid
  have hcover : ∀ k ∈ ks, ∃ m ∈ ms, (identical (n + 1) k m).holds = true := fun k hk => by
    obtain ⟨l, hl, hkl⟩ := hks k hk
    obtain ⟨m, hm, hlm⟩ := hms.covers l hl
    exact ⟨m, hm, holds_identical_trans hkl hlm⟩
  refine ⟨.union ms, holds_identical_succ.mpr (.union (hlen.trans hms.length_eq) hcover),
    ⟨fun _ => hms.apart, hms.irredundant⟩, ?_⟩
  rcases h with h | ⟨x, hx, l, hl, hmark⟩
  · obtain ⟨x, hx, hmem⟩ := hms.named h
    exact ⟨x, hx, .union hmem (.named x n)⟩
  · obtain ⟨m, hm, hlm⟩ := hms.covers l hl
    exact ⟨x, hx, .union hm (hmark.of_identical hlm)⟩

/-- A type with a repeated member is identical to a type without repeated members that is identical
only to types with some new name. -/
theorem exists_marked {n : Nat} {a : MemberType} (h : ¬IrredundantWithin n a)
    (avoid : List String) :
    ∃ b, (identical n a b).holds = true ∧ IrredundantWithin n b ∧
      ∃ x, x ∉ avoid ∧ Marked x n b := by
  induction n generalizing a with
  | zero => exact absurd trivial h
  | succ n ih =>
    have hparts : ∀ t, ∃ u, (identical n t u).holds = true ∧ IrredundantWithin n u ∧
        (¬IrredundantWithin n t → ∃ x, x ∉ avoid ∧ Marked x n u) := fun t => by
      by_cases ht : IrredundantWithin n t
      · exact ⟨t, holds_identical_self n t, ht, absurd ht⟩
      · obtain ⟨u, htu, hu, hmark⟩ := ih ht
        exact ⟨u, htu, hu, fun _ => hmark⟩
    -- Every part gives way to a type without repeated members, and a part that had one to a marked
    -- one.
    choose f hf hirr hmark using hparts
    have hall : ∀ ts : List MemberType, ∀ u ∈ ts.map f, IrredundantWithin n u := fun ts u hu => by
      obtain ⟨t, _, rfl⟩ := List.mem_map.mp hu
      exact hirr t
    cases a with
    | keyword | literal | named => exact absurd trivial h
    | union ms =>
      cases n with
      | zero => exact absurd ⟨fun h => absurd h (Nat.lt_irrefl 0), fun _ _ => trivial⟩ h
      | succ n =>
        by_cases hms : ∀ m ∈ ms, IrredundantWithin (n + 1) m
        · have hrep : ¬ms.Pairwise (Apart (n + 1)) := fun hp => h ⟨fun _ => hp, hms⟩
          exact exists_marked_union rfl hms (fun m hm => ⟨m, hm, holds_identical_self _ m⟩)
            (.inl hrep)
        · simp only [not_forall] at hms
          obtain ⟨m, hm, hrep⟩ := hms
          obtain ⟨x, hx, hmarked⟩ := hmark m hrep
          have hmem : ∀ {m : MemberType}, m ∈ ms → f m ∈ ms.map f := List.mem_map_of_mem
          exact exists_marked_union (List.length_map f).symm (hall ms)
            (fun m hm => ⟨f m, hmem hm, hf m⟩) (.inr ⟨x, hx, f m, hmem hm, hmarked⟩)
    | function ps r =>
      have hparams : List.Forall₂ (fun p q => (identical n p q).holds = true) ps (ps.map f) :=
        List.forall₂_map_right_iff.mpr (List.forall₂_same.mpr fun p _ => hf p)
      refine ⟨.function (ps.map f) (f r), holds_identical_succ.mpr (.function hparams (hf r)),
        ⟨hall ps, hirr r⟩, ?_⟩
      rcases not_and_or.mp h with h | h
      · simp only [not_forall] at h
        obtain ⟨p, hp, hrep⟩ := h
        obtain ⟨x, hx, hmarked⟩ := hmark p hrep
        exact ⟨x, hx, .param (List.mem_map_of_mem hp) hmarked (f r)⟩
      · obtain ⟨x, hx, hmarked⟩ := hmark r h
        exact ⟨x, hx, hmarked.result (ps.map f)⟩

/-- A type that is identical to another is assignable to it. -/
theorem isAssignable_of_isIdentical {a b : MemberType} (h : a.isIdentical b = true) :
    a.isAssignable b = true :=
  holds_assignable_of_identical (holds_identical_of_succ h)

/-- Exactly the types without repeated members get the same answer in both directions against all
types without repeated members, and are mutually assignable with those they are identical to. -/
theorem isIdentical_comm_iff (a : MemberType) :
    a.IrredundantWithin maxDepth ↔
      ∀ b : MemberType, b.IrredundantWithin maxDepth →
        a.isIdentical b = b.isIdentical a ∧
          (a.isIdentical b = true → a.isAssignable b = true ∧ b.isAssignable a = true) := by
  have hsymm : ∀ {a b : MemberType}, a.IrredundantWithin maxDepth → a.isIdentical b = true →
      b.isIdentical a = true := fun ha h => (interchangeable_of_identical ha h).symm.identical
  constructor
  · intro ha b hb
    refine ⟨Bool.eq_iff_iff.mpr ⟨hsymm ha, hsymm hb⟩, fun h => ?_⟩
    exact ⟨isAssignable_of_isIdentical h, isAssignable_of_isIdentical (hsymm ha h)⟩
  · intro h
    by_contra ha
    obtain ⟨b, hab, hb, x, hx, hmark⟩ := exists_marked ha a.names
    have hab : a.isIdentical b = true := hab
    have hba : b.isIdentical a = true := (h b hb).1 ▸ hab
    exact hx (hmark a hba)

/-- The lookup and the reordered one may be exchanged. -/
theorem lookup_comm :
    lookup.IrredundantWithin maxDepth ∧ lookupReordered.IrredundantWithin maxDepth ∧
      lookup.isIdentical lookupReordered = lookupReordered.isIdentical lookup ∧
      lookupReordered.isAssignable lookup = true := by
  have h : lookup.IrredundantWithin maxDepth := by decide
  have h' : lookupReordered.IrredundantWithin maxDepth := by decide
  have hforth : lookup.isIdentical lookupReordered = true := by decide
  obtain ⟨hcomm, hback⟩ := (isIdentical_comm_iff lookup).mp h lookupReordered h'
  exact ⟨h, h', hcomm, (hback hforth).2⟩

/-- A repeated member leaves a place for any other, also where the repetition is one up to order and
stays in a normalised union. -/
theorem repeated_member_one_way :
    ((MemberType.union [.keyword .string, .keyword .string]).isIdentical
        (.union [.keyword .string, .keyword .number]) = true ∧
      (MemberType.union [.keyword .string, .keyword .number]).isIdentical
        (.union [.keyword .string, .keyword .string]) = false ∧
      (MemberType.union [.keyword .string, .keyword .number]).isAssignable
        (.union [.keyword .string, .keyword .string]) = false) ∧
    ((unionOf [lookup, lookupReordered]).isIdentical (unionOf [lookup, .keyword .null]) = true ∧
      (unionOf [lookup, .keyword .null]).isIdentical (unionOf [lookup, lookupReordered]) = false ∧
      (unionOf [lookup, .keyword .null]).isAssignable (unionOf [lookup, lookupReordered]) =
        false) := by
  decide

end MemberType

end ClassContract
