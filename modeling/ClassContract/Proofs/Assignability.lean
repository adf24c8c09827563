import ClassContract.Proofs.Identity

/-!
# Assignability as a relation

`Derivable` states the rules of assignability without an order among them and without a depth limit:
a source is assignable to a target if some rules together say so. The function `assignable` tries the
rules in a fixed order, where the first that fits two types decides, and within a number of levels.
`Decides` says what one level of it decides. The order loses nothing, since a union source can always
be taken apart first (`Derivable.of_mem_union`), so that every derivation ends in the rule that
decides (`Derivable.decides`); and the limit only turns answers into yes.
-/

namespace ClassContract

namespace MemberType

mutual

/-- The rules of assignability of a source to a target, in no order. -/
inductive Derivable : MemberType → MemberType → Prop
  | identical {s t : MemberType} (h : alike s t = true) : Derivable s t
  | fromAny (t : MemberType) : Derivable (.keyword .any) t
  | toAny (s : MemberType) : Derivable s (.keyword .any)
  | toUnknown (s : MemberType) : Derivable s (.keyword .unknown)
  | fromNever (t : MemberType) : Derivable (.keyword .never) t
  | undefinedToVoid : Derivable (.keyword .undefined) (.keyword .void)
  /-- A literal fits the keyword type of its values. -/
  | literalToKeyword (l : Literal) : Derivable (.literal l) (.keyword l.keyword)
  | equalLiterals {l m : Literal} (h : (l == m) = true) : Derivable (.literal l) (.literal m)
  /-- All members of a source union have to fit. -/
  | fromUnion {ms : List MemberType} {t : MemberType} (h : ∀ m ∈ ms, Derivable m t) :
    Derivable (.union ms) t
  /-- One member of a target union has to accept the source. -/
  | toUnion {s m : MemberType} {ms : List MemberType} (hm : m ∈ ms) (h : Derivable s m) :
    Derivable s (.union ms)
  | function {ps qs : List MemberType} {r r' : MemberType} (hlen : ps.length ≤ qs.length)
    (hparams : ∀ pq ∈ ps.zip qs, Comparable pq.1 pq.2) (hresult : Derivable r r') :
    Derivable (.function ps r) (.function qs r')
  /-- A target that returns `void` accepts every result. -/
  | functionToVoid {ps qs : List MemberType} {r : MemberType} (hlen : ps.length ≤ qs.length)
    (hparams : ∀ pq ∈ ps.zip qs, Comparable pq.1 pq.2) :
    Derivable (.function ps r) (.function qs (.keyword .void))

/-- Two types of which at least one is assignable to the other. -/
inductive Comparable : MemberType → MemberType → Prop
  | forth {s t : MemberType} (h : Derivable s t) : Comparable s t
  | back {s t : MemberType} (h : Derivable t s) : Comparable s t

end

/-- Types are comparable if one can be derived to the other. -/
theorem comparable_iff {s t : MemberType} : Comparable s t ↔ Derivable t s ∨ Derivable s t := by
  constructor
  · rintro (h | h)
    · exact .inr h
    · exact .inl h
  · rintro (h | h)
    · exact .back h
    · exact .forth h

/-- Whether a type is a union. -/
def isUnion : MemberType → Bool
  | .union _ => true
  | _ => false

/-- What one level of `assignable` decides about types that it does not find identical, where `R`
answers for the parts of the types. A target union is looked into only where the source is no
union. -/
inductive Decides (R : MemberType → MemberType → Prop) : MemberType → MemberType → Prop
  | fromAny (t : MemberType) : Decides R (.keyword .any) t
  | toAny (s : MemberType) : Decides R s (.keyword .any)
  | toUnknown (s : MemberType) : Decides R s (.keyword .unknown)
  | fromNever (t : MemberType) : Decides R (.keyword .never) t
  | undefinedToVoid : Decides R (.keyword .undefined) (.keyword .void)
  | literal {l : Literal} {t : MemberType} (h : literalFits l t = true) : Decides R (.literal l) t
  | fromUnion {ms : List MemberType} {t : MemberType} (h : ∀ m ∈ ms, R m t) :
    Decides R (.union ms) t
  | toUnion {s m : MemberType} {ms : List MemberType} (hs : s.isUnion = false) (hm : m ∈ ms)
    (h : R s m) : Decides R s (.union ms)
  | function {ps qs : List MemberType} {r r' : MemberType} (hlen : ps.length ≤ qs.length)
    (hparams : ∀ pq ∈ ps.zip qs, R pq.2 pq.1 ∨ R pq.1 pq.2) (hresult : r'.isVoid = true ∨ R r r') :
    Decides R (.function ps r) (.function qs r')

/-- A positive answer comes from identity or from the rule that decides. -/
theorem decides_of_holds_assignable {n : Nat} {s t : MemberType}
    (h : (assignable (n + 1) s t).holds = true) :
    (identical n s t).holds = true ∨ Decides (fun a b => (assignable n a b).holds = true) s t := by
  unfold assignable at h
  rw [Verdict.holds_or, Bool.or_eq_true] at h
  rcases h with h | h
  · exact .inl h
  right
  split at h
  · exact .fromAny _
  · exact .toAny _
  · exact .toUnknown _
  · exact .fromNever _
  · exact .fromUnion (by simpa using h)
  · next ms _ _ hs =>
    have hu : s.isUnion = false := by
      cases s with
      | union ls => exact absurd rfl (hs ls)
      | _ => rfl
    obtain ⟨m, hm, h⟩ : ∃ m ∈ ms, (assignable n s m).holds = true := by simpa using h
    exact .toUnion hu hm h
  · exact .undefinedToVoid
  · exact .literal h
  · next ps r qs r' =>
    simp only [Verdict.holds_and, Verdict.holds_ofBool, Verdict.holds_all, Verdict.holds_or,
      Bool.and_eq_true, decide_eq_true_eq, List.all_eq_true, Bool.or_eq_true] at h
    obtain ⟨hlen, hparams, hresult⟩ := h
    refine .function hlen hparams ?_
    split at hresult
    · next hv => exact .inl hv
    · exact .inr hresult
  · cases h

/-- Where a rule decides, the answer is positive. -/
theorem holds_assignable_of_decides {n : Nat} {s t : MemberType}
    (h : Decides (fun a b => (assignable n a b).holds = true) s t) :
    (assignable (n + 1) s t).holds = true := by
  unfold assignable
  rw [Verdict.holds_or, Bool.or_eq_true]
  right
  cases h with
  | fromAny => rfl
  | toAny s =>
    cases s with
    | keyword k => cases k <;> rfl
    | _ => rfl
  | toUnknown s =>
    cases s with
    | keyword k => cases k <;> rfl
    | _ => rfl
  | fromNever t =>
    cases t with
    | keyword k => cases k <;> rfl
    | _ => rfl
  | undefinedToVoid => rfl
  | literal h =>
    cases t with
    | keyword k =>
      cases k with
      | any => rfl
      | unknown => rfl
      | _ => exact h
    | union ms => cases h
    | _ => exact h
  | @fromUnion ms t h =>
    have hall : (Verdict.all (fun m => assignable n m t) ms).holds = true := by simpa using h
    cases t with
    | keyword k =>
      cases k with
      | any => rfl
      | unknown => rfl
      | _ => exact hall
    | _ => exact hall
  | @toUnion s m ms hs hm h =>
    have hany : (Verdict.any (fun m => assignable n s m) ms).holds = true := by
      simpa using ⟨m, hm, h⟩
    cases s with
    | keyword k =>
      cases k with
      | any => rfl
      | never => rfl
      | _ => exact hany
    | union => cases hs
    | _ => exact hany
  | @function ps qs r r' hlen hparams hresult =>
    simp only [Verdict.holds_and, Verdict.holds_ofBool, Verdict.holds_all, Verdict.holds_or,
      Bool.and_eq_true, decide_eq_true_eq, List.all_eq_true, Bool.or_eq_true]
    refine ⟨hlen, hparams, ?_⟩
    split
    · rfl
    · next hv => exact hresult.resolve_left hv

/-- Identical types are assignable with one level more. -/
theorem holds_assignable_of_identical {n : Nat} {s t : MemberType}
    (h : (identical n s t).holds = true) : (assignable (n + 1) s t).holds = true := by
  unfold assignable
  rw [Verdict.holds_or, h, Bool.true_or]

/-- The parts that a rule asks about are together less high than the two types. -/
theorem Decides.mono {R R' : MemberType → MemberType → Prop} {s t : MemberType}
    (hR : ∀ a b : MemberType, a.height + b.height < s.height + t.height → R a b → R' a b)
    (h : Decides R s t) : Decides R' s t := by
  cases h with
  | fromAny => exact .fromAny _
  | toAny => exact .toAny _
  | toUnknown => exact .toUnknown _
  | fromNever => exact .fromNever _
  | undefinedToVoid => exact .undefinedToVoid
  | literal h => exact .literal h
  | fromUnion h =>
    refine .fromUnion fun m hm => hR m t ?_ (h m hm)
    have := height_lt_of_mem_union hm
    omega
  | toUnion hs hm h =>
    refine .toUnion hs hm (hR _ _ ?_ h)
    have := height_lt_of_mem_union hm
    omega
  | @function ps qs r r' hlen hparams hresult =>
    refine .function hlen (fun pq hpq => ?_) (hresult.imp_right (hR r r' ?_))
    · obtain ⟨hp, hq⟩ := List.of_mem_zip hpq
      have hp := height_lt_of_mem_params hp r
      have hq := height_lt_of_mem_params hq r'
      exact (hparams pq hpq).imp (hR _ _ (by omega)) (hR _ _ (by omega))
    · have hr := height_result_lt ps r
      have hr' := height_result_lt qs r'
      omega

/-- A derivation for a source union gives one for each of its members, whatever rule it ends in. -/
theorem Derivable.of_mem_union {ms : List MemberType} {m t : MemberType} (hm : m ∈ ms)
    (h : Derivable (.union ms) t) : Derivable m t := by
  -- The derivation can go on into a target union, so the induction is on the height of the target.
  induction hn : t.height using Nat.strongRecOn generalizing t with
  | ind n ih =>
    subst hn
    cases h with
    | identical h =>
      obtain ⟨rs, rfl⟩ := exists_union_of_alike h
      obtain ⟨r, hr, hmr⟩ := (alike_union_iff.mp h).2 m hm
      exact .toUnion hr (.identical hmr)
    | toAny => exact .toAny m
    | toUnknown => exact .toUnknown m
    | fromUnion h => exact h m hm
    | toUnion hk h => exact .toUnion hk (ih _ (height_lt_of_mem_union hk) h rfl)

/-- Types are derivable when they are identical or the rule that decides says so. -/
theorem Derivable.decides {s t : MemberType} (h : Derivable s t) :
    alike s t = true ∨ Decides Derivable s t := by
  cases h with
  | identical h => exact .inl h
  | fromAny => exact .inr (.fromAny _)
  | toAny => exact .inr (.toAny _)
  | toUnknown => exact .inr (.toUnknown _)
  | fromNever => exact .inr (.fromNever _)
  | undefinedToVoid => exact .inr .undefinedToVoid
  | literalToKeyword l => exact .inr (.literal (beq_self_eq_true l.keyword))
  | equalLiterals h => exact .inr (.literal h)
  | fromUnion h => exact .inr (.fromUnion h)
  | toUnion hm h =>
    cases s with
    | union ls => exact .inr (.fromUnion fun l hl => .toUnion hm (h.of_mem_union hl))
    | _ => exact .inr (.toUnion rfl hm h)
  | function hlen hparams hresult =>
    exact .inr (.function hlen (fun pq hpq => comparable_iff.mp (hparams pq hpq)) (.inr hresult))
  | functionToVoid hlen hparams =>
    exact .inr (.function hlen (fun pq hpq => comparable_iff.mp (hparams pq hpq)) (.inl rfl))

/-- The rule that decides is one of the rules. -/
theorem Decides.derivable {s t : MemberType} (h : Decides Derivable s t) : Derivable s t := by
  cases h with
  | fromAny => exact .fromAny _
  | toAny => exact .toAny _
  | toUnknown => exact .toUnknown _
  | fromNever => exact .fromNever _
  | undefinedToVoid => exact .undefinedToVoid
  | @literal l t h =>
    cases t with
    | literal m => exact .equalLiterals h
    | keyword k =>
      have hk : l.keyword = k := beq_iff_eq.mp h
      exact hk ▸ .literalToKeyword l
    | _ => cases h
  | fromUnion h => exact .fromUnion h
  | toUnion _ hm h => exact .toUnion hm h
  | @function ps qs r r' hlen hparams hresult =>
    have hparams : ∀ pq ∈ ps.zip qs, Comparable pq.1 pq.2 := fun pq hpq =>
      comparable_iff.mpr (hparams pq hpq)
    rcases hresult with hv | hresult
    · have hr : r' = .keyword .void := by
        unfold isVoid at hv
        split at hv
        · rfl
        · cases hv
      exact hr ▸ .functionToVoid hlen hparams
    · exact .function hlen hparams hresult

/-- What the rules derive is found assignable within any number of levels. -/
theorem Derivable.holds_assignable {s t : MemberType} (h : Derivable s t) (n : Nat) :
    (assignable n s t).holds = true := by
  induction n generalizing s t with
  | zero => rfl
  | succ n ih =>
    rcases h.decides with ha | hd
    · exact holds_assignable_of_identical (holds_identical_of_alike ha n)
    · exact holds_assignable_of_decides (hd.mono fun _ _ _ => ih)

/-- With two levels more than both types are high together, only what the rules derive is found
assignable. -/
theorem derivable_of_holds_assignable {s t : MemberType} {n : Nat}
    (hn : s.height + t.height + 2 ≤ n) (h : (assignable n s t).holds = true) : Derivable s t := by
  induction n generalizing s t with
  | zero => omega
  | succ n ih =>
    rcases decides_of_holds_assignable h with hi | hd
    · exact .identical (alike_of_holds_identical (by omega) hi)
    · exact (hd.mono fun a b hlt => ih (by omega)).derivable

/-- Whatever the rules derive is assignable, however deep the types are, and types that are together
at most 62 high are assignable only if the rules derive it. -/
theorem isAssignable_derivable_within (s t : MemberType) :
    (Derivable s t → s.isAssignable t = true) ∧
      (s.height + t.height ≤ 62 → s.isAssignable t = true → Derivable s t) := by
  constructor
  · exact fun h => h.holds_assignable maxDepth
  · intro hh h
    have hn : s.height + t.height + 2 ≤ maxDepth := by
      rw [maxDepth]
      omega
    exact derivable_of_holds_assignable hn h

/-- Unions inside unions are taken apart on both sides. -/
theorem nested_unions_derivable :
    Derivable (.union [.literal (.string "on"), .union [.literal (.string "off"), .keyword .never]])
      (.union [.keyword .number, .union [.keyword .undefined, .keyword .string]]) :=
  (isAssignable_derivable_within _ _).2 (by decide) (by decide)

end MemberType

end ClassContract
