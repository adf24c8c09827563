import ClassContract.Proofs.Findings

/-!
# When a rule reports nothing

For each rule the condition on the declarations under which it reports no violation, whatever
comparisons of types are cut off on the way. The rules for a provision are stated for a concrete
class, where a missing half of a property is reported and not left to subclasses.
-/

namespace ClassContract

open Finding

/-- Declarations that may stand side by side: at most one of them, or a getter and a setter. -/
def Collisionless (ms : List Member) : Prop :=
  ms.length ≤ 1 ∨ (ms.map (·.kind)).Perm [.getAccessor, .setAccessor]

instance (ms : List Member) : Decidable (Collisionless ms) := inferInstanceAs (Decidable (_ ∨ _))

namespace Subject

@[simp] theorem violations_violation_cons (s : Subject) (name : String) (code : Code)
    (declaredIn : Option String) (expected actual : Side) (fs : List Finding) :
    violations (s.violation name code declaredIn expected actual :: fs) =
      ⟨name, code.category, code, s.className, declaredIn, expected, actual⟩
        :: violations fs := rfl

/-- Two declarations collide unless they are a getter and a setter. -/
theorem firstCollision_cons_cons (a b : Member) (rest : List Member) :
    firstCollision [] (a :: b :: rest) =
      if [a.kind, b.kind].Perm [.getAccessor, .setAccessor] then
        firstCollision [a.kind, b.kind] rest
      else some b := by
  cases ha : a.kind <;> cases hb : b.kind <;>
    simp +decide [firstCollision, ha, hb, MemberKind.isAccessor]

/-- After a getter and a setter nothing more may follow. -/
theorem firstCollision_of_pair {a b : MemberKind}
    (h : [a, b].Perm [.getAccessor, .setAccessor]) (m : Member) (ms : List Member) :
    firstCollision [a, b] (m :: ms) = some m := by
  have hget : MemberKind.getAccessor ∈ [a, b] := h.mem_iff.mpr (by simp)
  have hset : MemberKind.setAccessor ∈ [a, b] := h.mem_iff.mpr (by simp)
  have hk : ∀ k ∈ [a, b], k.isAccessor = true := by
    intro k hk
    have hk := h.mem_iff.mp hk
    simp only [List.mem_cons, List.not_mem_nil, or_false] at hk
    rcases hk with rfl | rfl <;> rfl
  cases hm : m.kind with
  | field => simp [firstCollision, hm]
  | method => simp [firstCollision, hm]
  | getAccessor =>
    have hany : [a, b].any (fun k => !k.isAccessor || k == .getAccessor) = true :=
      List.any_eq_true.mpr ⟨_, hget, by simp⟩
    simp only [firstCollision, hm, hany, if_true]
  | setAccessor =>
    have hany : [a, b].any (fun k => !k.isAccessor || k == .setAccessor) = true :=
      List.any_eq_true.mpr ⟨_, hset, by simp⟩
    simp only [firstCollision, hm, hany, if_true]

/-- There is no collision in turn just if there is none at all. -/
theorem firstCollision_eq_none_iff (ms : List Member) :
    firstCollision [] ms = none ↔ Collisionless ms := by
  match ms with
  | [] => simp [firstCollision, Collisionless]
  | [a] => cases ha : a.kind <;> simp [firstCollision, Collisionless, ha]
  | [a, b] =>
    rw [firstCollision_cons_cons]
    split
    · next h => simp [firstCollision, Collisionless, h]
    · next h => simp [Collisionless, h]
  | a :: b :: d :: rest =>
    have hno : ¬ Collisionless (a :: b :: d :: rest) := by
      rintro (h | h)
      · simp at h
      · simpa using h.length_eq
    rw [firstCollision_cons_cons]
    split
    · next h => simp [firstCollision_of_pair h, hno]
    · simp [hno]

/-- No duplicates are reported just if there are no collisions. -/
theorem violations_duplicates_eq_nil_iff (s : Subject) (name : String) (ms : List Member) :
    violations (s.duplicates name ms) = [] ↔ Collisionless ms := by
  rw [← firstCollision_eq_none_iff, duplicates]
  split
  · next h => simp [h]
  · next h => simp [h]

/-- A provision of the required kind: a method for a method, for a property a field or accessors
that cover what is required of it. -/
def KindFits (o : Options) : Requirement → Provision → Prop
  | .method _, .method _ => True
  | .property q, .field f =>
    (q.requiresWrite = true → f.isReadonly = false)
      ∧ (q.requiresRead = true ∨ o.fieldSatisfiesWriteOnly = true)
  | .property q, .accessors getter setter =>
    (q.requiresRead = true → getter.isSome = true)
      ∧ (q.requiresWrite = true → setter.isSome = true)
  | _, _ => False

/-- A half of a property is no gap where it is not required or is provided. -/
theorem halfGap_eq_nil_iff {source provided : Option Member} {required : Bool}
    (h : source.isSome = required) (missing present : MemberKind) :
    (if required && provided.isNone then source.toList.map (⟨·, missing, present⟩ : Member → Gap)
      else []) = [] ↔ (required = true → provided.isSome = true) := by
  cases required with
  | false => simp
  | true =>
    obtain ⟨m, hm⟩ := Option.isSome_iff_exists.mp h
    cases provided <;> simp [hm]

/-- The kind fits where it is not another one and leaves no gap. -/
theorem kindFits_iff (o : Options) (r : Requirement) (p : Provision) :
    KindFits o r p ↔ kindOutcome o r p ≠ .mismatch ∧ gaps r p = [] := by
  cases r with
  | method m => cases p <;> simp [KindFits, kindOutcome, gaps]
  | property q =>
    cases p with
    | method _ => simp [KindFits, kindOutcome]
    | field f =>
      rw [KindFits, kindOutcome, gaps]
      by_cases hg : (q.requiresWrite && f.isReadonly) = true
      · obtain ⟨hq, hf⟩ := Bool.and_eq_true_iff.mp hg
        obtain ⟨m, hm⟩ := Option.isSome_iff_exists.mp (q.isSome_writeSource.trans hq)
        simp [hq, hf, hm]
      · have hq : q.requiresWrite = true → f.isReadonly = false := by simpa using hg
        rw [if_neg hg, if_neg hg]
        have hn : (!q.requiresRead && !o.fieldSatisfiesWriteOnly) = false ↔
            q.requiresRead = true ∨ o.fieldSatisfiesWriteOnly = true := by
          cases q.requiresRead <;> cases o.fieldSatisfiesWriteOnly <;> simp
        rw [← hn]
        cases (!q.requiresRead && !o.fieldSatisfiesWriteOnly) with
        | true => simp
        | false => simpa using hq
    | accessors getter setter =>
      have hne : kindOutcome o (.property q) (.accessors getter setter) ≠ .mismatch := by
        rw [kindOutcome]
        split <;> decide
      rw [KindFits, gaps, List.append_eq_nil_iff, halfGap_eq_nil_iff q.isSome_readSource,
        halfGap_eq_nil_iff q.isSome_writeSource]
      simp [hne]

/-- In a concrete class no mismatch of kinds is reported just if the kinds fit. -/
theorem violations_kinds_eq_nil_iff (s : Subject) (hs : s.isAbstract = false) (name : String)
    (r : Requirement) (p : Provision) :
    violations (s.kinds name r p).2 = [] ↔ KindFits s.options r p := by
  rw [kinds_eq, kindFits_iff]
  dsimp only
  split
  · next h => simp [h, kindMismatch]
  · next h => simp [h, violations_gaps, hs]

/-- Where the kind fits, all further rules apply. -/
theorem kindOutcome_of_kindFits {o : Options} {r : Requirement} {p : Provision}
    (h : KindFits o r p) : kindOutcome o r p = .compatible := by
  obtain ⟨hm, hg⟩ := (kindFits_iff o r p).mp h
  cases hk : kindOutcome o r p with
  | compatible => rfl
  | mismatch => exact absurd hk hm
  | readHalfMissing =>
    obtain ⟨g, hmem, _⟩ := exists_gap_of_readHalfMissing hk
    rw [hg] at hmem
    cases hmem

/-- No assignment is reported just if it is allowed or there is nothing to write to. -/
theorem violations_readonly_eq_nil_iff (s : Subject) (name : String) (r : Option Requirement)
    (constraint : Option Member) (p : Provision) :
    violations (s.readonly name r constraint p) = [] ↔
      (readOnlySource r constraint).isSome = true → p.writer = none := by
  unfold readonly
  cases readOnlySource r constraint with
  | none => simp
  | some source => cases p.writer <;> simp

/-- No mismatch is reported just if every comparison holds. -/
theorem violations_firstMismatch_eq_nil_iff {report : MemberType → MemberType → Finding}
    (h : ∀ expected actual, violations [report expected actual] ≠ []) (cs : List Comparison) :
    violations (firstMismatch report cs) = [] ↔ ∀ c ∈ cs, c.verdict.holds = true := by
  induction cs with
  | nil => simp [firstMismatch]
  | cons c cs ih =>
    rw [firstMismatch, violations_append, violations_ofCutOffs, List.nil_append,
      List.forall_mem_cons]
    split
    · next hc => simp [hc, ih]
    · next hc => simp [hc, h]

/-- No mismatch of types is reported just if every comparison holds. -/
theorem violations_types_eq_nil_iff (s : Subject) (name : String) (r : Requirement)
    (p : Provision) :
    violations (s.types name r p) = [] ↔ ∀ c ∈ comparisons r p, c.verdict.holds = true :=
  violations_firstMismatch_eq_nil_iff (by simp) _

/-- A concrete class reports nothing about a provision of a requirement when its kind fits, it
cannot be assigned where that is forbidden, and its types pass the comparisons. -/
theorem violations_provision_eq_nil_iff (s : Subject) (hs : s.isAbstract = false) (name : String)
    (r : Requirement) (constraint : Option Member) (p : Provision) :
    violations (s.provision name (some r) constraint p) = [] ↔
      KindFits s.options r p
        ∧ ((readOnlySource (some r) constraint).isSome = true → p.writer = none)
        ∧ ∀ c ∈ comparisons r p, c.verdict.holds = true := by
  rw [← s.violations_kinds_eq_nil_iff hs name r p,
    ← s.violations_readonly_eq_nil_iff name, ← s.violations_types_eq_nil_iff name]
  by_cases hk : violations (s.kinds name r p).2 = []
  · have hfit := (s.violations_kinds_eq_nil_iff hs name r p).mp hk
    rw [provision_some, afterKinds, kindOutcome_of_kindFits hfit]
    simp [hk]
  · simp [provision_some, hk]

/-- A getter and a setter among declarations have the same type after widening. -/
def PairAgrees (ms : List Member) : Prop :=
  ∀ g t, firstOfKind .getAccessor ms = some g → firstOfKind .setAccessor ms = some t →
    g.type.widen.isIdentical t.type.widen = true

/-- No mismatch of accessors is reported just if getter and setter agree. -/
theorem violations_accessorPair_eq_nil_iff (s : Subject) (name : String) (ms : List Member) :
    violations (s.accessorPair name ms).2 = [] ↔ PairAgrees ms := by
  unfold accessorPair pairVerdict PairAgrees
  cases hg : firstOfKind .getAccessor ms with
  | none => simp
  | some g =>
    cases ht : firstOfKind .setAccessor ms with
    | none => simp
    | some t =>
      dsimp only
      rw [violations_append, violations_ofCutOffs, List.nil_append]
      split
      · next h => simpa [MemberType.isIdentical] using h
      · next h => simpa [MemberType.isIdentical] using h

/-- The comparison of accessors says whether it reports anything. -/
theorem accessorPair_fst_iff (s : Subject) (name : String) (ms : List Member) :
    (s.accessorPair name ms).1 = false ↔ violations (s.accessorPair name ms).2 = [] := by
  unfold accessorPair
  split
  · next g t v _ => cases hv : v.holds <;> simp
  · simp

/-- No mismatch of accessors is reported just if abstract ones and concrete ones agree. -/
theorem violations_accessorPairs_eq_nil_iff (s : Subject) (name : String)
    (ownAbstract ownConcrete : List Member) :
    violations (s.accessorPairs name ownAbstract ownConcrete) = [] ↔
      PairAgrees ownAbstract ∧ PairAgrees ownConcrete := by
  rw [accessorPairs_eq, violations_append, List.append_eq_nil_iff,
    violations_accessorPair_eq_nil_iff]
  apply and_congr_right
  intro ha
  have hfst := (s.accessorPair_fst_iff name ownAbstract).mpr
    ((s.violations_accessorPair_eq_nil_iff name ownAbstract).mpr ha)
  rw [hfst]
  exact s.violations_accessorPair_eq_nil_iff name ownConcrete

/-- Members are reported one by one. -/
theorem violations_map_violation_eq_nil_iff (s : Subject) (name : String) (code : Code)
    (ms : List Member) :
    violations (ms.map fun m => s.violation name code none (.kind m.kind) .none) = [] ↔
      ms = [] := by
  cases ms with
  | nil => simp
  | cons m ms => simp

/-- No missing body is reported just if every member that needs one has it. -/
theorem violations_bodies_eq_nil_iff (s : Subject) (name : String) (ms : List Member) :
    violations (s.bodies name ms) = [] ↔
      ∀ m ∈ ms, m.kind.requiresBody = true → m.hasBody = true := by
  rw [bodies, violations_map_violation_eq_nil_iff, List.filter_eq_nil_iff]
  simp

/-- A concrete class is not reported for abstract members just if it has none or none are asked for.
-/
theorem violations_abstractMembers_eq_nil_iff (s : Subject) (hs : s.isAbstract = false)
    (name : String) (ms : List Member) :
    violations (s.abstractMembers name ms) = [] ↔
      (s.options.reportAbstractInConcrete = true → ms = []) := by
  unfold abstractMembers
  cases s.options.reportAbstractInConcrete with
  | false => simp
  | true => simp [hs, violations_map_violation_eq_nil_iff]

/-- Split accessors are not reported just if there are none or none are asked for. -/
theorem violations_accessorAbstractness_eq_nil_iff (s : Subject) (name : String)
    (ownAbstract ownConcrete : List Member) :
    violations (s.accessorAbstractness name ownAbstract ownConcrete) = [] ↔
      (s.options.reportAccessorAbstractness = true →
        splitAccessors ownAbstract ownConcrete .getAccessor .setAccessor = false
          ∧ splitAccessors ownAbstract ownConcrete .setAccessor .getAccessor = false) := by
  unfold accessorAbstractness
  cases s.options.reportAccessorAbstractness with
  | false => simp
  | true =>
    cases splitAccessors ownAbstract ownConcrete .getAccessor .setAccessor with
    | true => simp
    | false =>
      cases splitAccessors ownAbstract ownConcrete .setAccessor .getAccessor <;> simp

end Subject

namespace Group

/-- A concrete class reports a demand unless there is none or something implements it. -/
theorem violations_unmet_eq_nil_iff {s : Subject} (hs : s.isAbstract = false) (g : Group) :
    violations (g.unmet s) = [] ↔ g.demanded = [] ∨ g.ownConcrete ≠ [] := by
  unfold unmet
  split
  · next hr => simp [demanded_eq_nil_iff.mpr hr]
  · next r hr =>
    have hq : g.demanded ≠ [] := fun h => by simp [demanded_eq_nil_iff.mp h] at hr
    cases g.ownConcrete <;> simp [hs, hq]

/-- A concrete class reports a demand that nothing implements once. -/
theorem unimplemented_of_unmet {s : Subject} (hs : s.isAbstract = false) {g : Group}
    (hd : g.demanded ≠ []) (hc : g.ownConcrete = []) :
    ∃ v, (violations (g.findings s)).filter (·.code == .unimplemented) = [v] := by
  have hr : g.requirement? ≠ none := fun h => hd (demanded_eq_nil_iff.mpr h)
  obtain ⟨r, hr⟩ := Option.ne_none_iff_exists'.mp hr
  have hfull : (violations (g.fullCheck s)).filter (·.code == .unimplemented) = [] := by
    have hw : AllWithin s g.name Subject.standingCodes (g.fullCheck s) := by
      rw [fullCheck, hc]
      refine s.allWithin_fullCheck (fun _ h => h) (fun p hp => ?_) _
      cases hp
    rw [List.filter_eq_nil_iff]
    intro v hv he
    exact absurd (beq_iff_eq.mp he ▸ (hw.violation hv).2.1) (by decide)
  rw [findings_eq, violations_append, violations_append, List.filter_append, List.filter_append,
    hfull, unmet, hr, hc]
  exact ⟨_, by simp [hs]; rfl⟩

end Group

end ClassContract
