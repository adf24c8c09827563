import ClassContract.Declaration.Basic
import ClassContract.Proofs.Assignability
import Mathlib.Data.List.Forall2

/-!
# Types that the relations do not tell apart

`Agrees` says what one level of `identical` compares. Two answers of it follow one another
(`Agrees.comp`), so that identity is reflexive and transitive within any number of levels, whatever
the types are. It is not symmetric, since a union is only asked whether each of its members has a
partner. Types are `Interchangeable` when that question is answered in both directions at every
level, and then neither relation tells them apart: `Interchangeable.holds_identical`,
`Interchangeable.holds_assignable`. So are the types of every relation under which one level agrees in
both directions (`Interchangeable.of_agrees`), such as equality.
-/

namespace ClassContract

/-- The number with the plus sign if it is zero. -/
def FiniteDouble.plusZero (x : FiniteDouble) : FiniteDouble :=
  { x with negative := if x.units = 0 then false else x.negative }

/-- Finite doubles have the same value if they are equal up to the sign of zero. -/
theorem FiniteDouble.sameValue_iff {x y : FiniteDouble} :
    x.sameValue y = true ↔ x.plusZero = y.plusZero := by
  rcases x with ⟨sx, u, hx⟩
  rcases y with ⟨sy, v, hy⟩
  simp only [sameValue, plusZero, mk.injEq, Bool.and_eq_true, beq_iff_eq, Bool.or_eq_true]
  rw [and_comm]
  refine and_congr_left fun huv => ?_
  subst huv
  by_cases hu : u = 0
  · simp [hu]
  · simp [hu]

/-- The double with the plus sign if it is zero. -/
def Double.plusZero : Double → Double
  | .finite x => .finite x.plusZero
  | .infinite negative => .infinite negative

/-- Doubles have the same value if they are equal up to the sign of zero. -/
theorem Double.sameValue_iff {x y : Double} : x.sameValue y = true ↔ x.plusZero = y.plusZero := by
  cases x <;> cases y <;> simp [sameValue, plusZero, FiniteDouble.sameValue_iff]

/-- The literal with the plus sign if it is zero. -/
def Literal.plusZero : Literal → Literal
  | .number x => .number x.plusZero
  | l => l

/-- Literals are equal if they are the same up to the sign of zero. -/
theorem Literal.beq_iff {l m : Literal} : (l == m) = true ↔ l.plusZero = m.plusZero := by
  show l.same m = true ↔ _
  cases l <;> cases m <;> simp [same, plusZero, Double.sameValue_iff]

/-- Equality of literals is an equivalence, although it does not tell the two zeros apart. -/
instance : EquivBEq Literal where
  rfl := Literal.beq_iff.mpr rfl
  symm h := Literal.beq_iff.mpr (Literal.beq_iff.mp h).symm
  trans h h' := Literal.beq_iff.mpr ((Literal.beq_iff.mp h).trans (Literal.beq_iff.mp h'))

/-- The sign of zero does not change the keyword. -/
theorem Literal.keyword_plusZero (l : Literal) : l.plusZero.keyword = l.keyword := by
  cases l <;> rfl

/-- Equal literals have one keyword. -/
theorem Literal.keyword_eq_of_beq {l m : Literal} (h : (l == m) = true) :
    l.keyword = m.keyword := by
  rw [← keyword_plusZero l, beq_iff.mp h, keyword_plusZero]

namespace MemberType

/-- What one level of `identical` compares, where `R` answers for the parts of the types. -/
inductive Agrees (R : MemberType → MemberType → Prop) : MemberType → MemberType → Prop
  | keyword (k : Keyword) : Agrees R (.keyword k) (.keyword k)
  | literal {l m : Literal} (h : (l == m) = true) : Agrees R (.literal l) (.literal m)
  | named (x : String) : Agrees R (.named x) (.named x)
  /-- Every member on the left has a partner on the right. -/
  | union {ls rs : List MemberType} (hlen : ls.length = rs.length)
    (h : ∀ l ∈ ls, ∃ r ∈ rs, R l r) : Agrees R (.union ls) (.union rs)
  | function {ps qs : List MemberType} {r s : MemberType} (hparams : List.Forall₂ R ps qs)
    (hresult : R r s) : Agrees R (.function ps r) (.function qs s)

/-- Identity with one level more is agreement in that level. -/
theorem holds_identical_succ {n : Nat} {a b : MemberType} :
    (identical (n + 1) a b).holds = true ↔
      Agrees (fun a b => (identical n a b).holds = true) a b := by
  constructor
  · intro h
    cases a with
    | union ls =>
      cases b with
      | union rs =>
        obtain ⟨hlen, h⟩ := (holds_identical_union n ls rs).mp h
        exact .union hlen h
      | _ => cases h
    | function ps r =>
      cases b with
      | function qs s =>
        obtain ⟨⟨hlen, hparams⟩, hresult⟩ := (holds_identical_function n ps qs r s).mp h
        exact .function (List.forall₂_iff_zip.mpr ⟨hlen, fun h => hparams _ h⟩) hresult
      | _ => cases h
    | keyword j =>
      cases b with
      | keyword k =>
        obtain rfl : j = k := beq_iff_eq.mp h
        exact .keyword j
      | _ => cases h
    | literal l =>
      cases b with
      | literal m => exact .literal h
      | _ => cases h
    | named x =>
      cases b with
      | named y =>
        obtain rfl : x = y := beq_iff_eq.mp h
        exact .named x
      | _ => cases h
  · intro h
    cases h with
    | keyword k => exact beq_self_eq_true k
    | literal h => exact h
    | named x => exact beq_self_eq_true x
    | union hlen h => exact (holds_identical_union n _ _).mpr ⟨hlen, h⟩
    | function hparams hresult =>
      obtain ⟨hlen, hparams⟩ := List.forall₂_iff_zip.mp hparams
      exact (holds_identical_function n _ _ _ _).mpr
        ⟨⟨hlen, fun pq hpq => hparams hpq⟩, hresult⟩

/-- Lists that are related one by one can be followed through a list between them. -/
theorem forall₂_comp {R S T : MemberType → MemberType → Prop}
    (hT : ∀ a b c, R a b → S b c → T a c) {as bs cs : List MemberType}
    (h : List.Forall₂ R as bs) (h' : List.Forall₂ S bs cs) : List.Forall₂ T as cs := by
  induction h generalizing cs with
  | nil =>
    cases h'
    exact .nil
  | cons hab _ ih =>
    cases h' with
    | cons hbc h' => exact .cons (hT _ _ _ hab hbc) (ih h')

/-- Where two lists are related one by one to two others, so are their pairs. -/
theorem exists_mem_zip {R : MemberType → MemberType → Prop} {ps qs ps' qs' : List MemberType}
    (hps : List.Forall₂ R ps ps') (hqs : List.Forall₂ R qs qs') {pq' : MemberType × MemberType}
    (h : pq' ∈ ps'.zip qs') : ∃ pq ∈ ps.zip qs, R pq.1 pq'.1 ∧ R pq.2 pq'.2 := by
  induction hps generalizing qs qs' with
  | nil => cases h
  | @cons p p' ps ps' hp _ ih =>
    cases hqs with
    | nil => cases h
    | @cons q q' qs qs' hq hqs =>
      rw [List.zip_cons_cons, List.mem_cons] at h
      rcases h with rfl | h
      · exact ⟨(p, q), List.mem_cons_self, hp, hq⟩
      · obtain ⟨pq, hpq, hrel⟩ := ih hqs h
        exact ⟨pq, List.mem_cons_of_mem _ hpq, hrel⟩

namespace Agrees

variable {R S T : MemberType → MemberType → Prop} {a b c : MemberType}

/-- A type agrees with itself under a reflexive relation. -/
theorem refl (hR : ∀ a, R a a) (a : MemberType) : Agrees R a a := by
  cases a with
  | keyword k => exact .keyword k
  | literal l => exact .literal BEq.rfl
  | named x => exact .named x
  | union ms => exact .union rfl fun m hm => ⟨m, hm, hR m⟩
  | function ps r => exact .function (List.forall₂_same.mpr fun p _ => hR p) (hR r)

/-- Types that agree under a relation agree under every weaker one. -/
theorem imp (h : Agrees R a b) (hS : ∀ a b, R a b → S a b) : Agrees S a b := by
  cases h with
  | keyword k => exact .keyword k
  | literal h => exact .literal h
  | named x => exact .named x
  | union hlen h => exact .union hlen fun l hl => (h l hl).imp fun _ hr => hr.imp_right (hS l _)
  | function hparams hresult => exact .function (hparams.imp hS) (hS _ _ hresult)

/-- Comparisons of a first type with a second and of the second with a third follow one another. -/
theorem comp (h : Agrees R a b) (h' : Agrees S b c) (hT : ∀ a b c, R a b → S b c → T a c) :
    Agrees T a c := by
  cases h with
  | keyword k =>
    cases h'
    exact .keyword k
  | literal h =>
    cases h' with
    | literal h' => exact .literal (BEq.trans h h')
  | named x =>
    cases h'
    exact .named x
  | union hlen h =>
    cases h' with
    | union hlen' h' =>
      refine .union (hlen.trans hlen') fun l hl => ?_
      obtain ⟨r, hr, hlr⟩ := h l hl
      obtain ⟨s, hs, hrs⟩ := h' r hr
      exact ⟨s, hs, hT l r s hlr hrs⟩
  | function hparams hresult =>
    cases h' with
    | function hparams' hresult' =>
      exact .function (forall₂_comp hT hparams hparams') (hT _ _ _ hresult hresult')

/-- A union agrees with unions only. -/
theorem isUnion_eq (h : Agrees R a b) : a.isUnion = b.isUnion := by
  cases h <;> rfl

/-- The keyword `void` agrees with itself only. -/
theorem isVoid_eq (h : Agrees R a b) : a.isVoid = b.isVoid := by
  cases h <;> rfl

/-- Equal literals fit the same types. -/
theorem literalFits_of_beq (h : Agrees R a b) {l m : Literal} (hlm : (l == m) = true)
    (hl : literalFits l a = true) : literalFits m b = true := by
  cases h with
  | keyword k =>
    rw [literalFits, Literal.keyword_eq_of_beq hlm] at hl
    exact hl
  | literal h => exact BEq.trans (BEq.symm hlm) (BEq.trans hl h)
  | _ => cases hl

end Agrees

/-- Every type is identical to itself. -/
theorem holds_identical_self (n : Nat) (a : MemberType) : (identical n a a).holds = true := by
  induction n generalizing a with
  | zero => rfl
  | succ n ih => exact holds_identical_succ.mpr (.refl ih a)

/-- Identity is transitive within any number of levels. -/
theorem holds_identical_trans {n : Nat} {a b c : MemberType}
    (h : (identical n a b).holds = true) (h' : (identical n b c).holds = true) :
    (identical n a c).holds = true := by
  induction n generalizing a b c with
  | zero => rfl
  | succ n ih =>
    rw [holds_identical_succ] at h h' ⊢
    exact h.comp h' fun _ _ _ => ih

/-- More levels find fewer types identical. -/
theorem holds_identical_of_succ {n : Nat} {a b : MemberType}
    (h : (identical (n + 1) a b).holds = true) : (identical n a b).holds = true := by
  induction n generalizing a b with
  | zero => rfl
  | succ n ih =>
    rw [holds_identical_succ] at h ⊢
    exact h.imp fun _ _ => ih

/-- Types that agree in both directions at each of `n` levels. -/
def Interchangeable : Nat → MemberType → MemberType → Prop
  | 0, _, _ => True
  | n + 1, a, b =>
    Agrees (Interchangeable n) a b ∧ Agrees (fun b a => Interchangeable n a b) b a

namespace Interchangeable

variable {n : Nat} {a b s t s' t' : MemberType}

/-- Every type is interchangeable with itself. -/
theorem refl (n : Nat) (a : MemberType) : Interchangeable n a a := by
  induction n generalizing a with
  | zero => trivial
  | succ n ih =>
    constructor
    · exact .refl ih a
    · apply Agrees.refl
      exact ih

/-- Interchangeability goes both ways. -/
theorem symm (h : Interchangeable n a b) : Interchangeable n b a := by
  induction n generalizing a b with
  | zero => trivial
  | succ n ih => exact ⟨h.2.imp fun _ _ => ih, h.1.imp fun _ _ => ih⟩

/-- Interchangeable types are so within fewer levels. -/
theorem of_succ (h : Interchangeable (n + 1) a b) : Interchangeable n a b := by
  induction n generalizing a b with
  | zero => trivial
  | succ n ih => exact ⟨h.1.imp fun _ _ => ih, h.2.imp fun _ _ => ih⟩

/-- Identity does not tell interchangeable types apart. -/
theorem holds_identical (hs : Interchangeable n s s') (ht : Interchangeable n t t')
    (h : (identical n s t).holds = true) : (identical n s' t').holds = true := by
  induction n generalizing s t s' t' with
  | zero => rfl
  | succ n ih =>
    rw [holds_identical_succ] at h ⊢
    have hback : Agrees (fun a b => ∃ s, Interchangeable n s a ∧ (identical n s b).holds = true)
        s' t := hs.2.comp h fun _ s _ hs h => ⟨s, hs, h⟩
    refine hback.comp ht.1 fun _ _ _ hback ht => ?_
    obtain ⟨s, hs, h⟩ := hback
    exact ih hs ht h

/-- What one level of `assignable` decides about types, it decides about interchangeable types. -/
theorem decides
    (ih : ∀ {s t s' t' : MemberType}, Interchangeable n s s' → Interchangeable n t t' →
      (assignable n s t).holds = true → (assignable n s' t').holds = true)
    (hs : Interchangeable (n + 1) s s') (ht : Interchangeable (n + 1) t t')
    (h : Decides (fun a b => (assignable n a b).holds = true) s t) :
    Decides (fun a b => (assignable n a b).holds = true) s' t' := by
  cases h with
  | fromAny =>
    cases hs.1
    exact .fromAny _
  | toAny =>
    cases ht.1
    exact .toAny _
  | toUnknown =>
    cases ht.1
    exact .toUnknown _
  | fromNever =>
    cases hs.1
    exact .fromNever _
  | undefinedToVoid =>
    cases hs.1
    cases ht.1
    exact .undefinedToVoid
  | @literal l t h =>
    cases hs.1 with
    | literal hlm => exact .literal (ht.1.literalFits_of_beq hlm h)
  | fromUnion h =>
    cases hs.2 with
    | union _ hback =>
      refine .fromUnion fun m' hm' => ?_
      obtain ⟨m, hm, hmm'⟩ := hback m' hm'
      exact ih hmm' ht.of_succ (h m hm)
  | toUnion hu hm h =>
    cases ht.1 with
    | union _ hforth =>
      obtain ⟨m', hm', hmm'⟩ := hforth _ hm
      exact .toUnion (hs.1.isUnion_eq ▸ hu) hm' (ih hs.of_succ hmm' h)
  | function hlen hparams hresult =>
    cases hs.1 with
    | function hps hr =>
      cases ht.1 with
      | function hqs hr' =>
        refine .function ?_ (fun pq' hpq' => ?_) ?_
        · rw [← hps.length_eq, ← hqs.length_eq]
          exact hlen
        · obtain ⟨pq, hpq, hp, hq⟩ := exists_mem_zip hps hqs hpq'
          exact (hparams pq hpq).imp (ih hq hp) (ih hp hq)
        · cases n with
          | zero => exact .inr rfl
          | succ n => exact hresult.imp (hr'.1.isVoid_eq ▸ ·) (ih hr hr')

/-- Assignability does not tell interchangeable types apart. -/
theorem holds_assignable (hs : Interchangeable n s s') (ht : Interchangeable n t t')
    (h : (assignable n s t).holds = true) : (assignable n s' t').holds = true := by
  induction n generalizing s t s' t' with
  | zero => rfl
  | succ n ih =>
    rcases decides_of_holds_assignable h with hi | hd
    · exact holds_assignable_of_identical (hs.of_succ.holds_identical ht.of_succ hi)
    · exact holds_assignable_of_decides (decides ih hs ht hd)

/-- Assignability and identity give the same answers for interchangeable types. -/
theorem holds_eq (hs : Interchangeable n s s') (ht : Interchangeable n t t') :
    (assignable n s t).holds = (assignable n s' t').holds ∧
      (identical n s t).holds = (identical n s' t').holds := by
  constructor
  · exact Bool.eq_iff_iff.mpr ⟨hs.holds_assignable ht, hs.symm.holds_assignable ht.symm⟩
  · exact Bool.eq_iff_iff.mpr ⟨hs.holds_identical ht, hs.symm.holds_identical ht.symm⟩

/-- A relation under which one level agrees in both directions relates interchangeable types. -/
theorem of_agrees {R : MemberType → MemberType → Prop}
    (hR : ∀ a b, R a b → Agrees R a b ∧ Agrees (fun b a => R a b) b a) (n : Nat) (h : R a b) :
    Interchangeable n a b := by
  induction n generalizing a b with
  | zero => trivial
  | succ n ih =>
    obtain ⟨hforth, hback⟩ := hR a b h
    exact ⟨hforth.imp fun _ _ => ih, hback.imp fun _ _ => ih⟩

end Interchangeable

/-- Lists are equal place by place. -/
theorem sameList_iff {as bs : List MemberType} :
    sameList as bs = true ↔ List.Forall₂ (fun a b => same a b = true) as bs := by
  induction as generalizing bs with
  | nil => cases bs <;> simp [sameList]
  | cons a as ih => cases bs <;> simp [sameList, ih]

/-- Every type is equal to itself. -/
theorem same_refl (a : MemberType) : same a a = true := by
  induction hn : a.height using Nat.strongRecOn generalizing a with
  | ind n ih =>
    subst hn
    have hlist : ∀ ts : List MemberType, (∀ t ∈ ts, t.height < a.height) →
        sameList ts ts = true := fun ts hts =>
      sameList_iff.mpr (List.forall₂_same.mpr fun t ht => ih t.height (hts t ht) t rfl)
    cases a with
    | keyword k => exact beq_self_eq_true k
    | literal l => exact BEq.rfl
    | named x => exact beq_self_eq_true x
    | union ms => exact hlist ms fun m hm => height_lt_of_mem_union hm
    | function ps r =>
      rw [same, Bool.and_eq_true]
      exact ⟨hlist ps fun p hp => height_lt_of_mem_params hp r,
        ih r.height (height_result_lt ps r) r rfl⟩

/-- Equality of types goes both ways. -/
theorem same_symm {a b : MemberType} (h : same a b = true) : same b a = true := by
  induction hn : a.height using Nat.strongRecOn generalizing a b with
  | ind n ih =>
    subst hn
    have hlist : ∀ ls rs : List MemberType, (∀ l ∈ ls, l.height < a.height) →
        sameList ls rs = true → sameList rs ls = true := fun ls rs hls hlr => by
      rw [sameList_iff] at hlr ⊢
      have hboth := (List.forall₂_and_left ls rs).mpr ⟨hls, hlr⟩
      exact (hboth.imp fun l r hlr => ih l.height hlr.1 hlr.2 rfl).flip
    cases a with
    | keyword j =>
      cases b with
      | keyword k => exact BEq.symm h
      | _ => cases h
    | literal l =>
      cases b with
      | literal m => exact BEq.symm h
      | _ => cases h
    | named x =>
      cases b with
      | named y => exact BEq.symm h
      | _ => cases h
    | union ls =>
      cases b with
      | union rs => exact hlist ls rs (fun l hl => height_lt_of_mem_union hl) h
      | _ => cases h
    | function ps r =>
      cases b with
      | function qs s =>
        rw [same, Bool.and_eq_true] at h ⊢
        exact ⟨hlist ps qs (fun p hp => height_lt_of_mem_params hp r) h.1,
          ih r.height (height_result_lt ps r) h.2 rfl⟩
      | _ => cases h

/-- Each item of a list has a partner in a list that is related to it one by one. -/
theorem exists_mem_of_forall₂ {R : MemberType → MemberType → Prop} {as bs : List MemberType}
    (h : List.Forall₂ R as bs) {a : MemberType} (ha : a ∈ as) : ∃ b ∈ bs, R a b := by
  induction h with
  | nil => cases ha
  | @cons c b as bs hcb _ ih =>
    rcases List.mem_cons.mp ha with rfl | ha
    · exact ⟨b, List.mem_cons_self, hcb⟩
    · obtain ⟨d, hd, had⟩ := ih ha
      exact ⟨d, List.mem_cons_of_mem b hd, had⟩

/-- One level of identity cannot tell equal types apart, in either direction. -/
theorem agrees_of_same {a b : MemberType} (h : same a b = true) :
    Agrees (fun a b => same a b = true) a b ∧ Agrees (fun b a => same a b = true) b a := by
  cases a with
  | keyword j =>
    cases b with
    | keyword k =>
      obtain rfl : j = k := beq_iff_eq.mp h
      exact ⟨.keyword j, .keyword j⟩
    | _ => cases h
  | literal l =>
    cases b with
    | literal m => exact ⟨.literal h, .literal (BEq.symm h)⟩
    | _ => cases h
  | named x =>
    cases b with
    | named y =>
      obtain rfl : x = y := beq_iff_eq.mp h
      exact ⟨.named x, .named x⟩
    | _ => cases h
  | union ls =>
    cases b with
    | union rs =>
      have h : List.Forall₂ _ ls rs := sameList_iff.mp h
      exact ⟨.union h.length_eq fun l hl => exists_mem_of_forall₂ h hl,
        .union h.length_eq.symm fun r hr => exists_mem_of_forall₂ h.flip hr⟩
    | _ => cases h
  | function ps r =>
    cases b with
    | function qs s =>
      rw [same, Bool.and_eq_true, sameList_iff] at h
      exact ⟨.function h.1 h.2, .function h.1.flip h.2⟩
    | _ => cases h

/-- Equality of types is transitive. -/
theorem same_trans {a b c : MemberType} (hab : same a b = true) (hbc : same b c = true) :
    same a c = true := by
  induction hn : a.height using Nat.strongRecOn generalizing a b c with
  | ind n ih =>
    subst hn
    have hlist : ∀ ls ms rs : List MemberType, (∀ l ∈ ls, l.height < a.height) →
        sameList ls ms = true → sameList ms rs = true → sameList ls rs = true := by
      intro ls ms rs hls hlm hmr
      rw [sameList_iff] at hlm hmr ⊢
      have hboth := (List.forall₂_and_left ls ms).mpr ⟨hls, hlm⟩
      have hstep : ∀ l m r, l.height < a.height ∧ same l m = true → same m r = true →
          same l r = true := fun l _ _ hlm hmr => ih l.height hlm.1 hlm.2 hmr rfl
      exact forall₂_comp hstep hboth hmr
    cases (agrees_of_same hab).1 with
    | keyword | named => exact hbc
    | literal hlm =>
      cases c with
      | literal => exact BEq.trans hlm hbc
      | _ => cases hbc
    | union =>
      cases c with
      | union => exact hlist _ _ _ (fun l hl => height_lt_of_mem_union hl) hab hbc
      | _ => cases hbc
    | function =>
      cases c with
      | function =>
        rw [same, Bool.and_eq_true] at hab hbc ⊢
        exact ⟨hlist _ _ _ (fun p hp => height_lt_of_mem_params hp _) hab.1 hbc.1,
          ih _ (height_result_lt _ _) hab.2 hbc.2 rfl⟩
      | _ => cases hbc

/-- Equality of types is an equivalence, as that of literals is. -/
instance : EquivBEq MemberType where
  rfl {a} := same_refl a
  symm := same_symm
  trans := same_trans

/-- Equal types are interchangeable. -/
theorem interchangeable_of_beq {a b : MemberType} (h : (a == b) = true) (n : Nat) :
    Interchangeable n a b :=
  .of_agrees (R := fun a b => same a b = true) (fun _ _ => agrees_of_same) n h

end MemberType

/-- Members are equal if all their parts are, with types compared by value. -/
theorem Member.beq_iff {a b : Member} :
    (a == b) = true ↔ a.name = b.name ∧ a.kind = b.kind ∧ a.isAbstract = b.isAbstract
      ∧ a.isReadonly = b.isReadonly ∧ (a.type == b.type) = true ∧ a.owner = b.owner
      ∧ a.hasBody = b.hasBody := by
  show a.same b = true ↔ _
  simp only [same, Bool.and_eq_true, beq_iff_eq, and_assoc]

instance : EquivBEq Member where
  rfl := Member.beq_iff.mpr ⟨rfl, rfl, rfl, rfl, BEq.rfl, rfl, rfl⟩
  symm h := by
    obtain ⟨hname, hkind, habs, hro, htype, howner, hbody⟩ := Member.beq_iff.mp h
    exact Member.beq_iff.mpr
      ⟨hname.symm, hkind.symm, habs.symm, hro.symm, BEq.symm htype, howner.symm, hbody.symm⟩
  trans h h' := by
    obtain ⟨hname, hkind, habs, hro, htype, howner, hbody⟩ := Member.beq_iff.mp h
    obtain ⟨hname', hkind', habs', hro', htype', howner', hbody'⟩ := Member.beq_iff.mp h'
    exact Member.beq_iff.mpr
      ⟨hname.trans hname', hkind.trans hkind', habs.trans habs', hro.trans hro',
        BEq.trans htype htype', howner.trans howner', hbody.trans hbody'⟩

end ClassContract
