import ClassContract.Proofs.Unions

/-!
# Normal forms

A type is `Normalised` when it is no union, or a union of at least two different members of which
none is a union or `never`. A normalised type is rebuilt from its parts (`Normalised.ofParts_eq`), so
that it is not changed by building it again.

Widening gives a normalised type without literals, however the type is nested
(`widen_normalised`), since a union is built from members that are widened before it.
`MemberType.unionOf` merges the unions among its members, but it takes the members of these as they
are. So it gives a normalised type if and only if no union or `never` stands inside one of those
unions, or there is only one part to build from and it is normalised itself
(`unionOf_normalised_iff`).
-/

namespace ClassContract

namespace MemberType

/-- Whether a type may be a member of a normalised union: it is no union and not `never`. -/
def isPart : MemberType → Bool
  | .union _ => false
  | .keyword .never => false
  | _ => true

/-- A type that is no union, or a union of at least two different members of which none is a union
or `never`. -/
def Normalised : MemberType → Prop
  | .union ms =>
    2 ≤ ms.length ∧ (ms.Pairwise fun a b => (a == b) = false) ∧ ∀ m ∈ ms, m.isPart = true
  | _ => True

instance decidableNormalised : (t : MemberType) → Decidable t.Normalised
  | .union _ => inferInstanceAs (Decidable (_ ∧ _ ∧ _))
  | .keyword _ => .isTrue trivial
  | .literal _ => .isTrue trivial
  | .named _ => .isTrue trivial
  | .function _ _ => .isTrue trivial

/-- A part contributes itself to a union. -/
theorem unionParts_of_isPart {t : MemberType} (h : t.isPart = true) : t.unionParts = [t] := by
  cases t with
  | union ms => cases h
  | keyword k =>
    cases k with
    | never => cases h
    | _ => rfl
  | literal | named | function => rfl

/-- A part is normalised. -/
theorem normalised_of_isPart {t : MemberType} (h : t.isPart = true) : t.Normalised := by
  cases t with
  | union ms => cases h
  | _ => trivial

/-- A type that equals a part is a part. -/
theorem isPart_of_beq {a b : MemberType} (h : (a == b) = true) (hb : b.isPart = true) :
    a.isPart = true := by
  cases (agrees_of_same h).1 with
  | keyword | named => exact hb
  | literal | function => rfl
  | union => cases hb

/-- Parts contribute themselves to a union. -/
theorem flatMap_unionParts {ms : List MemberType} (h : ∀ m ∈ ms, m.isPart = true) :
    ms.flatMap unionParts = ms := by
  induction ms with
  | nil => rfl
  | cons m ms ih =>
    obtain ⟨hm, hms⟩ := List.forall_mem_cons.mp h
    rw [List.flatMap_cons, unionParts_of_isPart hm, ih hms, List.singleton_append]

/-- What is put together from parts falls apart into them. -/
theorem unionParts_ofParts {xs : List MemberType} (h : ∀ x ∈ xs, x.isPart = true) :
    (ofParts xs).unionParts = xs := by
  unfold ofParts
  split
  · rfl
  · next t => exact unionParts_of_isPart (h t List.mem_cons_self)
  · rfl

/-- Different parts give a normalised type. -/
theorem normalised_ofParts {xs : List MemberType} (h : ∀ x ∈ xs, x.isPart = true)
    (hne : xs.Pairwise fun a b => (a == b) = false) : (ofParts xs).Normalised := by
  unfold ofParts
  split
  · trivial
  · next t => exact normalised_of_isPart (h t List.mem_cons_self)
  · next hnil hone =>
    refine ⟨?_, hne, h⟩
    cases xs with
    | nil => exact absurd rfl hnil
    | cons a xs =>
      cases xs with
      | nil => exact absurd rfl (hone a)
      | cons b xs =>
        simp only [List.length_cons]
        omega

namespace Normalised

variable {t : MemberType}

/-- A normalised type contributes parts to a union. -/
theorem isPart_of_mem (h : t.Normalised) {x : MemberType} (hx : x ∈ t.unionParts) :
    x.isPart = true := by
  cases t with
  | union ms => exact h.2.2 x hx
  | keyword k =>
    cases k with
    | never => cases hx
    | _ =>
      rw [List.mem_singleton.mp hx]
      rfl
  | literal | named | function =>
    rw [List.mem_singleton.mp hx]
    rfl

/-- A normalised type is rebuilt from its parts. -/
theorem ofParts_eq (h : t.Normalised) : ofParts (distinct t.unionParts) = t := by
  cases t with
  | union ms =>
    obtain ⟨hlen, hne, _⟩ := h
    have hself : distinct ms = ms :=
      distinct_eq_self (hne.imp fun {a b} hne => BEq.comm.trans hne)
    rw [unionParts, hself]
    unfold ofParts
    split
    · simp at hlen
    · simp at hlen
    · rfl
  | keyword k => cases k <;> rfl
  | literal | named | function => rfl

/-- The union of one normalised type is that type. -/
theorem unionOf_singleton (h : t.Normalised) : unionOf [t] = t := by
  have hparts : [t].flatMap unionParts = t.unionParts := by simp
  rw [unionOf, hparts]
  exact h.ofParts_eq

/-- The union of the members of a normalised union is that union. -/
theorem unionOf_members {ms : List MemberType} (h : (union ms).Normalised) :
    unionOf ms = union ms := by
  rw [unionOf, flatMap_unionParts h.2.2]
  exact h.ofParts_eq

end Normalised

/-- Where the parts of the members are neither unions nor `never`, their union is normalised. -/
theorem normalised_unionOf {ms : List MemberType}
    (h : ∀ x ∈ ms.flatMap unionParts, x.isPart = true) : (unionOf ms).Normalised := by
  have hne : (distinct (ms.flatMap unionParts)).Pairwise fun a b => (a == b) = false :=
    (pairwise_ne_distinct _).imp fun {a b} hne => BEq.comm.trans hne
  exact normalised_ofParts (fun x hx => h x (mem_of_mem_distinct hx)) hne

/-- A type that is no literal, or a union without literals among its members. -/
def LiteralFree : MemberType → Prop
  | .union ms => ∀ m ∈ ms, m.isLiteral = false
  | t => t.isLiteral = false

/-- A type is free of literals if all that it contributes to a union is. -/
theorem literalFree_iff {t : MemberType} :
    t.LiteralFree ↔ ∀ x ∈ t.unionParts, x.isLiteral = false := by
  cases t with
  | union ms => exact Iff.rfl
  | keyword k => cases k <;> simp [LiteralFree, unionParts, isLiteral]
  | _ => simp [LiteralFree, unionParts]

/-- The parts of a widened type are no unions and no literals, and `never` is none of them. -/
theorem part_of_widen {t x : MemberType} (hx : x ∈ t.widen.unionParts) :
    x.isPart = true ∧ x.isLiteral = false := by
  induction hn : t.height using Nat.strongRecOn generalizing t x with
  | ind n ih =>
    subst hn
    cases t with
    | union ms =>
      -- The members are widened before they are merged, so no union is left among their parts.
      have hparts : ∀ y ∈ distinct ((ms.map widen).flatMap unionParts),
          y.isPart = true ∧ y.isLiteral = false := fun y hy => by
        obtain ⟨w, hw, hy⟩ := List.mem_flatMap.mp (mem_of_mem_distinct hy)
        obtain ⟨m, hm, rfl⟩ := List.mem_map.mp hw
        exact ih m.height (height_lt_of_mem_union hm) hy rfl
      rw [widen_union, unionOf, unionParts_ofParts fun y hy => (hparts y hy).1] at hx
      exact hparts x hx
    | keyword | literal | named | function =>
      refine ⟨Normalised.isPart_of_mem ?_ hx, literalFree_iff.mp ?_ x hx⟩
      · trivial
      · rfl

/-- Widening normalises every type. -/
theorem normalised_widen (t : MemberType) : t.widen.Normalised := by
  cases t with
  | union ms =>
    rw [widen_union]
    refine normalised_unionOf fun x hx => ?_
    obtain ⟨w, hw, hx⟩ := List.mem_flatMap.mp hx
    obtain ⟨m, _, rfl⟩ := List.mem_map.mp hw
    exact (part_of_widen hx).1
  | _ => trivial

/-- Widening leaves no literal. -/
theorem literalFree_widen (t : MemberType) : t.widen.LiteralFree :=
  literalFree_iff.mpr fun _ hx => (part_of_widen hx).2

/-- A part that is no literal is not widened. -/
theorem widen_of_isPart {t : MemberType} (h : t.isPart = true) (hl : t.isLiteral = false) :
    t.widen = t := by
  cases t with
  | literal l => cases hl
  | union ms => cases h
  | keyword | named | function => rfl

/-- A normalised type without literals is not changed by widening. -/
theorem widen_eq_self {t : MemberType} (h : t.Normalised) (hl : t.LiteralFree) : t.widen = t := by
  cases t with
  | literal l => cases hl
  | union ms =>
    have hmembers : ms.map widen = ms :=
      (List.map_congr_left fun m hm => widen_of_isPart (h.2.2 m hm) (hl m hm)).trans (List.map_id ms)
    rw [widen_union, hmembers, h.unionOf_members]
  | keyword | named | function => rfl

/-- A widened type is normalised and has no literals, and widening it again does not change it. -/
theorem widen_normalised (t : MemberType) :
    t.widen.Normalised ∧ t.widen.LiteralFree ∧ t.widen.widen = t.widen := by
  have hnormal : t.widen.Normalised := t.normalised_widen
  have hliterals : t.widen.LiteralFree := t.literalFree_widen
  exact ⟨hnormal, hliterals, widen_eq_self hnormal hliterals⟩

/-- The unions among the members hold no unions and not `never`. -/
def Shallow (ms : List MemberType) : Prop :=
  ∀ ns : List MemberType, .union ns ∈ ms → ∀ n ∈ ns, n.isPart = true

/-- The parts of all members are one up to equality, and it is normalised. -/
def OnePart (ms : List MemberType) : Prop :=
  ∃ t rest, ms.flatMap unionParts = t :: rest ∧ (∀ x ∈ rest, (x == t) = true) ∧ t.Normalised

/-- Types are shallow if all that they contribute to a union are parts. -/
theorem shallow_iff {ms : List MemberType} :
    Shallow ms ↔ ∀ x ∈ ms.flatMap unionParts, x.isPart = true := by
  constructor
  · intro h x hx
    obtain ⟨m, hm, hx⟩ := List.mem_flatMap.mp hx
    cases m with
    | union ns => exact h ns hm x hx
    | keyword | literal | named | function =>
      refine Normalised.isPart_of_mem ?_ hx
      trivial
  · exact fun h ns hns n hn => h n (List.mem_flatMap.mpr ⟨.union ns, hns, hn⟩)

/-- Where all contributions are one, the union is normalised. -/
theorem OnePart.normalised_unionOf {ms : List MemberType} (h : OnePart ms) :
    (unionOf ms).Normalised := by
  obtain ⟨t, rest, hparts, hrest, hnormal⟩ := h
  have hone : distinct (ms.flatMap unionParts) = [t] :=
    distinct_eq_singleton_iff.mpr ⟨rest, hparts, hrest⟩
  rw [unionOf, hone]
  exact hnormal

/-- A normalised union has been built from parts that are no unions and not `never`, or from one. -/
theorem parts_of_normalised_unionOf {ms : List MemberType} (h : (unionOf ms).Normalised) :
    Shallow ms ∨ OnePart ms := by
  rw [unionOf] at h
  unfold ofParts at h
  split at h
  · next hnone =>
    left
    rw [shallow_iff, distinct_eq_nil_iff.mp hnone]
    simp
  · next t hone =>
    obtain ⟨rest, hparts, hrest⟩ := distinct_eq_singleton_iff.mp hone
    exact .inr ⟨t, rest, hparts, hrest, h⟩
  · left
    rw [shallow_iff]
    intro x hx
    obtain ⟨y, hy, hxy⟩ := exists_mem_addAllNew hx []
    have hpart : y.isPart = true := h.2.2 y hy
    rcases hxy with rfl | hxy
    · exact hpart
    · exact isPart_of_beq hxy hpart

/-- The union that is built from members is normalised, and building it again does not change it, if
and only if the unions among the members hold no unions and not `never`, or all parts of the members
are equal to one that is normalised. -/
theorem unionOf_normalised_iff (ms : List MemberType) :
    ((unionOf ms).Normalised ∧ unionOf [unionOf ms] = unionOf ms) ↔ Shallow ms ∨ OnePart ms := by
  constructor
  · exact fun h => parts_of_normalised_unionOf h.1
  · intro h
    have hnormal : (unionOf ms).Normalised := by
      rcases h with hshallow | hone
      · exact normalised_unionOf (shallow_iff.mp hshallow)
      · exact hone.normalised_unionOf
    exact ⟨hnormal, hnormal.unionOf_singleton⟩

/-- A union of one type, inside a union. -/
def wrapped : MemberType := .union [.union [.keyword .string]]

/-- Two unions deep, a union is kept, even one of a single member that the next union would merge;
and so is `never` in a union. -/
theorem nested_unions_kept :
    (¬(unionOf [wrapped]).Normalised ∧ unionOf [unionOf [wrapped]] ≠ unionOf [wrapped]) ∧
      ¬(unionOf [.union [.keyword .string, .union [.keyword .number, .keyword .null]]]).Normalised ∧
      ¬(unionOf [.union [.keyword .string, .keyword .never]]).Normalised := by
  refine ⟨⟨by decide, fun h => ?_⟩, by decide, by decide⟩
  have hunion : (unionOf [unionOf [wrapped]]).isUnion = (unionOf [wrapped]).isUnion := by rw [h]
  revert hunion
  decide

end MemberType

end ClassContract
