import ClassContract.Proofs.Distinct
import ClassContract.Proofs.Interchange

/-!
# Normalised unions and widened types

A type is `Narrower` than another when it accepts less and is accepted by more. In this order a
union is the least type above its members, and so is the normalised union, however its members are
merged, dropped or joined with equal ones. Hence both are assignable to and from the same types
(`isAssignable_unionOf`). A widened union is the normalised union of its widened members, so that
every derivation can be followed after widening: a type is assignable to the widened one, and what
is assignable stays so when both types are widened (`isAssignable_widen`).
-/

namespace ClassContract

namespace MemberType

/-- Among types that are not too high, those are assignable that can be derived. -/
theorem isAssignable_iff {s t : MemberType} (h : s.height + t.height ≤ 62) :
    s.isAssignable t = true ↔ Derivable s t := by
  have hn : s.height + t.height + 2 ≤ maxDepth := by
    rw [maxDepth]
    omega
  exact ⟨derivable_of_holds_assignable hn, fun h => h.holds_assignable maxDepth⟩

/-- What can be derived is assignable. -/
theorem Derivable.isAssignable {s t : MemberType} (h : Derivable s t) : s.isAssignable t = true :=
  h.holds_assignable maxDepth

/-- Every type can be derived from itself. -/
theorem derivable_refl (a : MemberType) : Derivable a a :=
  .identical (alike_of_holds_identical (Nat.lt_succ_self _) (holds_identical_self _ a))

/-- The rules do not tell types apart that are interchangeable at every level. -/
theorem Derivable.congr {s t s' t' : MemberType} (hs : ∀ n, Interchangeable n s s')
    (ht : ∀ n, Interchangeable n t t') (h : Derivable s t) : Derivable s' t' :=
  derivable_of_holds_assignable (Nat.le_refl _)
    ((hs _).holds_assignable (ht _) (h.holds_assignable _))

/-- The members of a source union are derivable one by one. -/
theorem derivable_union_iff {ms : List MemberType} {t : MemberType} :
    Derivable (.union ms) t ↔ ∀ m ∈ ms, Derivable m t :=
  ⟨fun h _ hm => h.of_mem_union hm, .fromUnion⟩

/-- To compare two targets it is enough to look at sources that are no unions. -/
theorem derivable_of_plain {a b : MemberType}
    (h : ∀ s : MemberType, s.isUnion = false → Derivable s a → Derivable s b) {s : MemberType}
    (hs : Derivable s a) : Derivable s b := by
  induction hn : s.height using Nat.strongRecOn generalizing s with
  | ind n ih =>
    subst hn
    cases s with
    | union ls =>
      refine .fromUnion fun l hl => ?_
      exact ih l.height (height_lt_of_mem_union hl) (hs.of_mem_union hl) rfl
    | _ => exact h _ rfl hs

/-- Whatever is assignable to the first type is so to the second, and what the second is assignable
to, the first is. -/
structure Narrower (a b : MemberType) : Prop where
  /-- The second type accepts what the first accepts. -/
  accepts : ∀ {s : MemberType}, Derivable s a → Derivable s b
  /-- The first type fits where the second fits. -/
  fits : ∀ {t : MemberType}, Derivable b t → Derivable a t

namespace Narrower

variable {a b c : MemberType} {ms : List MemberType}

/-- Every type is narrower than itself. -/
theorem refl (a : MemberType) : Narrower a a := ⟨id, id⟩

/-- To be narrower is transitive. -/
theorem trans (h : Narrower a b) (h' : Narrower b c) : Narrower a c :=
  ⟨fun hs => h'.accepts (h.accepts hs), fun ht => h.fits (h'.fits ht)⟩

/-- A narrower type can be assigned to a wider one. -/
theorem derivable (h : Narrower a b) : Derivable a b := h.accepts (derivable_refl a)

/-- Equal types are narrower than each other. -/
theorem of_beq (h : (a == b) = true) : Narrower a b := by
  have hab : ∀ n, Interchangeable n a b := interchangeable_of_beq h
  exact ⟨.congr (fun n => .refl n _) hab, .congr (fun n => (hab n).symm) fun n => .refl n _⟩

/-- What is assignable to `never` is assignable to everything. -/
theorem never_below (a : MemberType) : Narrower (.keyword .never) a := by
  refine ⟨derivable_of_plain fun s hs h => ?_, fun _ => .fromNever _⟩
  rcases h.decides with ha | hd
  · cases s with
    | keyword k =>
      obtain rfl : k = .never := beq_iff_eq.mp ha
      exact .fromNever a
    | _ => simp [alike] at ha
  · cases hd with
    | fromAny => exact .fromAny a
    | fromNever => exact .fromNever a
    | @literal l _ h => cases l <;> cases h
    | fromUnion => cases hs

/-- A union is above its members. -/
theorem below_union {m : MemberType} (hm : m ∈ ms) : Narrower m (.union ms) :=
  ⟨.toUnion hm, fun h => h.of_mem_union hm⟩

/-- A union is below whatever its members are below. -/
theorem union_below (h : ∀ m ∈ ms, Narrower m a) : Narrower (.union ms) a := by
  refine ⟨derivable_of_plain fun s hs hd => ?_, fun ht => .fromUnion fun m hm => (h m hm).fits ht⟩
  rcases hd.decides with ha | hd
  · cases s with
    | union => cases hs
    | _ => simp [alike] at ha
  · cases hd with
    | fromAny => exact .fromAny a
    | fromNever => exact .fromNever a
    | literal h => cases h
    | fromUnion => cases hs
    | toUnion _ hm hd => exact (h _ hm).accepts hd

/-- A part is narrower than the whole. -/
theorem part_below {m x : MemberType} (hx : x ∈ m.unionParts) : Narrower x m := by
  unfold unionParts at hx
  split at hx
  · exact below_union hx
  · cases hx
  · exact List.mem_singleton.mp hx ▸ refl x

/-- A whole is as narrow as its parts. -/
theorem below_of_parts {m : MemberType} (h : ∀ x ∈ m.unionParts, Narrower x a) : Narrower m a := by
  unfold unionParts at h
  split at h
  · exact union_below h
  · exact never_below a
  · exact h m List.mem_cons_self

/-- A part is narrower than the union of all. -/
theorem below_ofParts {x : MemberType} {xs : List MemberType} (hx : x ∈ xs) :
    Narrower x (ofParts xs) := by
  unfold ofParts
  split
  · cases hx
  · exact List.mem_singleton.mp hx ▸ refl x
  · exact below_union hx

/-- A union of parts is as narrow as they are. -/
theorem ofParts_below {xs : List MemberType} (h : ∀ x ∈ xs, Narrower x a) :
    Narrower (ofParts xs) a := by
  unfold ofParts
  split
  · exact never_below a
  · exact h _ List.mem_cons_self
  · exact union_below h

/-- A normalised union is above its members. -/
theorem below_unionOf {m : MemberType} (hm : m ∈ ms) : Narrower m (unionOf ms) := by
  refine below_of_parts fun x hx => ?_
  have hflat : x ∈ ms.flatMap unionParts := List.mem_flatMap.mpr ⟨m, hm, hx⟩
  obtain ⟨y, hy, hxy⟩ := exists_mem_addAllNew hflat []
  have hle : Narrower x y := by
    rcases hxy with rfl | hxy
    · exact refl y
    · exact of_beq hxy
  exact hle.trans (below_ofParts hy)

/-- A normalised union is below whatever its members are below. -/
theorem unionOf_below (h : ∀ m ∈ ms, Narrower m a) : Narrower (unionOf ms) a := by
  refine ofParts_below fun x hx => ?_
  obtain ⟨m, hm, hxm⟩ := List.mem_flatMap.mp (mem_of_mem_distinct hx)
  exact (part_below hxm).trans (h m hm)

end Narrower

/-- A normalised union is no wider than the union. -/
theorem unionOf_narrower_union (ms : List MemberType) : Narrower (unionOf ms) (.union ms) :=
  .unionOf_below fun _ => .below_union

/-- A normalised union is no narrower than the union. -/
theorem union_narrower_unionOf (ms : List MemberType) : Narrower (.union ms) (unionOf ms) :=
  .union_below fun _ => .below_unionOf

/-- A part is no higher than the whole. -/
theorem height_le_of_mem_unionParts {m x : MemberType} (hx : x ∈ m.unionParts) :
    x.height ≤ m.height := by
  unfold unionParts at hx
  split at hx
  · exact Nat.le_of_lt (height_lt_of_mem_union hx)
  · cases hx
  · exact List.mem_singleton.mp hx ▸ Nat.le_refl _

/-- Types are as high as the highest of them. -/
theorem maxHeight_le {ts : List MemberType} {k : Nat} (h : ∀ t ∈ ts, t.height ≤ k) :
    maxHeight ts ≤ k := by
  induction ts with
  | nil => exact Nat.zero_le k
  | cons t ts ih =>
    obtain ⟨ht, hts⟩ := List.forall_mem_cons.mp h
    exact Nat.max_le.mpr ⟨ht, ih hts⟩

/-- Normalisation makes a union no higher. -/
theorem height_unionOf_le (ms : List MemberType) : (unionOf ms).height ≤ (union ms).height := by
  have hparts : ∀ x ∈ distinct (ms.flatMap unionParts), x.height ≤ maxHeight ms := fun x hx => by
    obtain ⟨m, hm, hxm⟩ := List.mem_flatMap.mp (mem_of_mem_distinct hx)
    exact Nat.le_trans (height_le_of_mem_unionParts hxm) (height_le_maxHeight hm)
  rw [unionOf, height]
  unfold ofParts
  split
  · exact Nat.zero_le _
  · next h =>
    have := hparts _ (h ▸ List.mem_cons_self)
    omega
  · rw [height]
    have := maxHeight_le hparts
    omega

/-- A normalised union is assignable to and from the same types as the union of its members, which
is assignable to what all members are assignable to; and it accepts each of its members, at any
depth. -/
theorem isAssignable_unionOf (ms : List MemberType) :
    (∀ t : MemberType, (union ms).height + t.height ≤ 62 →
      (unionOf ms).isAssignable t = (union ms).isAssignable t ∧
      (union ms).isAssignable t = ms.all (fun m => m.isAssignable t) ∧
      t.isAssignable (unionOf ms) = t.isAssignable (union ms)) ∧
    ∀ m ∈ ms, m.isAssignable (unionOf ms) = true := by
  constructor
  · intro t h
    have hle := height_unionOf_le ms
    have hforth := unionOf_narrower_union ms
    have hback := union_narrower_unionOf ms
    refine ⟨?_, ?_, ?_⟩
    · rw [Bool.eq_iff_iff, isAssignable_iff (by omega), isAssignable_iff h]
      exact ⟨hback.fits, hforth.fits⟩
    · rw [Bool.eq_iff_iff, isAssignable_iff h, derivable_union_iff, List.all_eq_true]
      refine forall₂_congr fun m hm => ?_
      have := height_lt_of_mem_union hm
      exact (isAssignable_iff (by omega)).symm
    · rw [Bool.eq_iff_iff, isAssignable_iff (by omega), isAssignable_iff (by omega)]
      exact ⟨hforth.accepts, hback.accepts⟩
  · exact fun m hm => (Narrower.below_unionOf hm).derivable.isAssignable

/-- Unions inside a union, `never` and repeated members. -/
def scraps : List MemberType :=
  [.union [.literal (.string "on"), .keyword .never], .keyword .never, .literal (.string "on"),
    .union [.union [.keyword .number], .literal (.string "on")]]

/-- The scraps may be compared as they are. -/
theorem scraps_gathered :
    ((union scraps).height + (union [.keyword .string, .keyword .number]).height ≤ 62 ∧
      (unionOf scraps).isAssignable (.union [.keyword .string, .keyword .number]) =
        scraps.all (fun m => m.isAssignable (.union [.keyword .string, .keyword .number])) ∧
      (union [.keyword .string, .keyword .number]).isAssignable (unionOf scraps) =
        (union [.keyword .string, .keyword .number]).isAssignable (.union scraps)) ∧
    (literal (.string "on")).isAssignable (unionOf scraps) = true := by
  have hheight :
      (union scraps).height + (union [.keyword .string, .keyword .number]).height ≤ 62 := by
    decide
  obtain ⟨hunion, hall, htarget⟩ := (isAssignable_unionOf scraps).1 _ hheight
  have hmem : literal (.string "on") ∈ scraps := by simp [scraps]
  exact ⟨⟨hheight, hunion.trans hall, htarget⟩, (isAssignable_unionOf scraps).2 _ hmem⟩

/-- A union is widened in each of its members. -/
theorem widen_union (ms : List MemberType) : widen (.union ms) = unionOf (ms.map widen) := by
  rw [widen, widenList_eq_map]

/-- The widened members of a union are below the widened union. -/
theorem widen_below_widen_union {m : MemberType} {ms : List MemberType} (hm : m ∈ ms) :
    Narrower m.widen (widen (.union ms)) := by
  rw [widen_union]
  exact .below_unionOf (List.mem_map_of_mem hm)

/-- A widened union is derivable to what its widened members are derivable to. -/
theorem derivable_widen_union {ms : List MemberType} {t : MemberType}
    (h : ∀ m ∈ ms, Derivable m.widen t) : Derivable (widen (.union ms)) t := by
  rw [widen_union]
  refine (unionOf_narrower_union _).fits (.fromUnion fun w hw => ?_)
  obtain ⟨m, hm, rfl⟩ := List.mem_map.mp hw
  exact h m hm

/-- Every type can be assigned to what it is widened to. -/
theorem derivable_widen (t : MemberType) : Derivable t t.widen := by
  induction hn : t.height using Nat.strongRecOn generalizing t with
  | ind n ih =>
    subst hn
    cases t with
    | literal l => exact .literalToKeyword l
    | union ms =>
      refine .fromUnion fun m hm => (widen_below_widen_union hm).accepts ?_
      exact ih m.height (height_lt_of_mem_union hm) m rfl
    | keyword | named | function => exact derivable_refl _

/-- A literal that fits a type still fits when both are widened. -/
theorem derivable_widen_of_fits {l : Literal} {t : MemberType} (h : literalFits l t = true) :
    Derivable (widen (.literal l)) t.widen := by
  rw [widen]
  cases t with
  | literal m =>
    have hk : l.keyword = m.keyword := Literal.keyword_eq_of_beq h
    rw [widen, hk]
    exact derivable_refl _
  | keyword k =>
    have hk : l.keyword = k := beq_iff_eq.mp h
    rw [hk]
    exact derivable_refl _
  | _ => cases h

/-- Identical types are still derivable after widening, if their members are. -/
theorem derivable_widen_of_alike {s t : MemberType} (h : alike s t = true)
    (ih : ∀ a b : MemberType, a.height + b.height < s.height + t.height → Derivable a b →
      Derivable a.widen b.widen) : Derivable s.widen t.widen := by
  cases s with
  | union ls =>
    obtain ⟨rs, rfl⟩ := exists_union_of_alike h
    refine derivable_widen_union fun l hl => ?_
    obtain ⟨r, hr, hlr⟩ := (alike_union_iff.mp h).2 l hl
    have hl := height_lt_of_mem_union hl
    have hr' := height_lt_of_mem_union hr
    exact (widen_below_widen_union hr).accepts (ih l r (by omega) (.identical hlr))
  | literal l =>
    cases t with
    | literal m => exact derivable_widen_of_fits h
    | _ => simp [alike] at h
  | keyword | named | function =>
    cases t with
    | union | literal => simp [alike] at h
    | _ => exact .identical h

/-- Whatever the rules derive, they derive for the widened types. -/
theorem Derivable.widen {s t : MemberType} (h : Derivable s t) : Derivable s.widen t.widen := by
  induction hn : s.height + t.height using Nat.strongRecOn generalizing s t with
  | ind n ih =>
    subst hn
    rcases h.decides with ha | hd
    · exact derivable_widen_of_alike ha fun a b hlt hab => ih _ hlt hab rfl
    · cases hd with
      | fromAny => exact .fromAny _
      | toAny => exact .toAny _
      | toUnknown => exact .toUnknown _
      | fromNever => exact .fromNever _
      | undefinedToVoid => exact .undefinedToVoid
      | literal hl => exact derivable_widen_of_fits hl
      | fromUnion hms =>
        refine derivable_widen_union fun m hm => ?_
        have := height_lt_of_mem_union hm
        exact ih _ (by omega) (hms m hm) rfl
      | toUnion _ hm hsm =>
        have := height_lt_of_mem_union hm
        exact (widen_below_widen_union hm).accepts (ih _ (by omega) hsm rfl)
      | function => exact h

/-- Every type is assignable to the widened type, and types that are together at most 62 high stay
assignable when both are widened. -/
theorem isAssignable_widen :
    (∀ t : MemberType, t.isAssignable t.widen = true) ∧
      ∀ s t : MemberType, s.height + t.height ≤ 62 → s.isAssignable t = true →
        s.widen.isAssignable t.widen = true := by
  constructor
  · exact fun t => (derivable_widen t).isAssignable
  · exact fun s t hh h => ((isAssignable_iff hh).mp h).widen.isAssignable

/-- A state, or a function that returns it. -/
def switchState : MemberType :=
  .union [.literal (.string "on"), .function [] (.literal (.string "on"))]

/-- Either state, or a function whose result is not used. -/
def switchInput : MemberType :=
  .union [.function [] (.keyword .void),
    .union [.literal (.string "off"), .literal (.string "on")]]

/-- Two states collapse to one keyword type, and functions are left alone. -/
theorem switch_widened :
    switchState.isAssignable switchInput = true ∧
      switchState.widen.isAssignable switchInput.widen = true := by
  have h : switchState.isAssignable switchInput = true := by decide
  exact ⟨h, isAssignable_widen.2 _ _ (by decide) h⟩

end MemberType

end ClassContract
