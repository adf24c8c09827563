import ClassContract.Proofs.PerName
import ClassContract.Proofs.Silence
import Mathlib.Algebra.Ring.Nat
import Mathlib.Computability.RegularExpressions

/-!
# The order of reports

The codes that are reported for one name make up a word, and each rule adds its own letters to it in
its turn. So the words are those of two regular expressions: one for a name that a concrete class
leaves wholly unimplemented, and one for all other names (`codesFor_check_mem`). A missing half and a
forbidden assignment exclude each other, since a half is missing only beside something that cannot
be assigned, or beside a setter that the report of the missing getter excuses.

How often a code occurs, and which codes exclude each other, is read off the expressions: letters
are given weights, and `heaviest` bounds the weight of all words of an expression.
-/

namespace ClassContract

open Finding

section Weights

variable {α : Type} {weight : α → Nat} {p : RegularExpression α} {n : Nat} {x : List α}

/-- A bound for what the letters of a word weigh together, for all words of an expression. There is
none where words that weigh something can be repeated. -/
def heaviest (weight : α → Nat) : RegularExpression α → Option Nat
  | .zero => some 0
  | .epsilon => some 0
  | .char a => some (weight a)
  | .plus p q => (heaviest weight p).bind fun m => (heaviest weight q).map (max m)
  | .comp p q => (heaviest weight p).bind fun m => (heaviest weight q).map (m + ·)
  | .star p => if heaviest weight p = some 0 then some 0 else none

/-- No match weighs more than the heaviest. -/
theorem weight_le_heaviest (h : heaviest weight p = some n) (hx : x ∈ p.matches') :
    (x.map weight).sum ≤ n := by
  induction p generalizing n x with
  | zero => cases hx
  | epsilon =>
    obtain rfl : x = [] := hx
    simp
  | char a =>
    obtain rfl : x = [a] := hx
    obtain rfl : weight a = n := by simpa [heaviest] using h
    simp
  | plus p q ihp ihq =>
    obtain ⟨m, hm, hsome⟩ := Option.bind_eq_some_iff.mp h
    obtain ⟨k, hk, rfl⟩ := Option.map_eq_some_iff.mp hsome
    rcases hx with hx | hx
    · exact (ihp hm hx).trans (Nat.le_max_left m k)
    · exact (ihq hk hx).trans (Nat.le_max_right m k)
  | comp p q ihp ihq =>
    obtain ⟨m, hm, hsome⟩ := Option.bind_eq_some_iff.mp h
    obtain ⟨k, hk, rfl⟩ := Option.map_eq_some_iff.mp hsome
    obtain ⟨a, ha, b, hb, rfl⟩ := Language.mem_mul.mp hx
    rw [List.map_append, List.sum_append]
    exact Nat.add_le_add (ihp hm ha) (ihq hk hb)
  | star p ih =>
    obtain ⟨hzero, rfl⟩ : heaviest weight p = some 0 ∧ 0 = n := by simpa [heaviest] using h
    obtain ⟨words, rfl, hwords⟩ := Language.mem_kstar.mp hx
    clear hx
    induction words with
    | nil => simp
    | cons y words ihw =>
      obtain ⟨hy, hwords⟩ := List.forall_mem_cons.mp hwords
      rw [List.flatten_cons, List.map_append, List.sum_append]
      exact Nat.add_le_add (ih hzero hy) (ihw hwords)

/-- Two letters that are too heavy together do not occur in one word. -/
theorem not_both_of_heaviest [DecidableEq α] (h : heaviest weight p = some n) {a b : α}
    (hab : a ≠ b) (hlt : n < weight a + weight b) (hx : x ∈ p.matches') : ¬(a ∈ x ∧ b ∈ x) := by
  rintro ⟨ha, hb⟩
  have hb : b ∈ x.erase a := (List.mem_erase_of_ne hab.symm).mpr hb
  have hperm : x.Perm (a :: b :: (x.erase a).erase b) :=
    (List.perm_cons_erase ha).trans ((List.perm_cons_erase hb).cons a)
  have hsum : (x.map weight).sum =
      weight a + (weight b + (((x.erase a).erase b).map weight).sum) := (hperm.map weight).sum_nat
  have hle : (x.map weight).sum ≤ n := weight_le_heaviest h hx
  omega

/-- To count is to weigh with one for the element and zero for all others. -/
theorem count_eq_weight [DecidableEq α] (a : α) (x : List α) :
    x.count a = (x.map fun b => if b = a then 1 else 0).sum := by
  induction x with
  | nil => rfl
  | cons b x ih =>
    rw [List.count_cons, List.map_cons, List.sum_cons, ih]
    simp [Nat.add_comm]

end Weights

namespace Code

/-- The code once or not at all. -/
def optional (c : Code) : RegularExpression Code := 1 + .char c

/-- The code any number of times. -/
def repeated (c : Code) : RegularExpression Code := .star (.char c)

/-- What is optional may be missing. -/
theorem nil_mem_optional (c : Code) : [] ∈ c.optional.matches' := .inl rfl

/-- What is optional may be there. -/
theorem mem_optional (c : Code) : [c] ∈ c.optional.matches' := .inr rfl

/-- What is repeated may be there any number of times. -/
theorem mem_repeated {c : Code} {x : List Code} (h : ∀ d ∈ x, d = c) : x ∈ c.repeated.matches' := by
  have hletters : x = (x.map fun d => [d]).flatten := (List.flatMap_singleton' x).symm
  refine Language.mem_kstar.mpr ⟨_, hletters, fun y hy => ?_⟩
  obtain ⟨d, hd, rfl⟩ := List.mem_map.mp hy
  rw [h d hd]
  exact Set.mem_singleton _

/-- What is reported about a provision: another kind than required; or a missing half or a forbidden
assignment, and then a type that does not fit. -/
def provisionPattern : RegularExpression Code :=
  .char .kindMismatch + unimplemented.optional * typeMismatch.optional
    + readonlyViolation.optional * typeMismatch.optional

/-- What is reported for a name that has an implementation or needs none. -/
def fullPattern : RegularExpression Code :=
  duplicate.optional * duplicate.optional * provisionPattern * accessorTypeMismatch.optional
    * missingBody.repeated * abstractInConcrete.repeated * accessorAbstractness.optional

/-- What is reported for a name that a concrete class leaves wholly unimplemented. -/
def unmetPattern : RegularExpression Code :=
  .char .unimplemented * duplicate.optional * accessorTypeMismatch.optional
    * abstractInConcrete.repeated

/-- What is reported for any name. -/
def reportPattern : RegularExpression Code := unmetPattern + fullPattern

variable {x : List Code}

/-- The codes that are reported once at most. -/
def single : List Code :=
  [.unimplemented, .kindMismatch, .readonlyViolation, .typeMismatch, .accessorTypeMismatch,
    .accessorAbstractness]

/-- In a report on a name each of the single codes occurs at most once. -/
theorem count_le_one (hx : x ∈ reportPattern.matches') : ∀ c ∈ single, x.count c ≤ 1 := by
  have hbound : ∀ c ∈ single, heaviest (fun d => if d = c then 1 else 0) reportPattern = some 1 := by
    decide
  intro c hc
  rw [count_eq_weight]
  exact weight_le_heaviest (hbound c hc) hx

/-- The codes that are not reported beside another kind than required. -/
def besideKind : List Code := [.unimplemented, .readonlyViolation, .typeMismatch]

/-- Another kind weighs as much as the two reports that it takes the place of. -/
def kindWeight : Code → Nat
  | .kindMismatch => 2
  | c => if c ∈ besideKind then 1 else 0

/-- A missing half, a forbidden assignment or another type is not reported beside another kind. -/
theorem notMem_of_kindMismatch (hx : x ∈ reportPattern.matches') (hk : .kindMismatch ∈ x) :
    ∀ c ∈ besideKind, c ∉ x := by
  have hbound : heaviest kindWeight reportPattern = some 2 := by decide
  have hheavy : ∀ c ∈ besideKind,
      Code.kindMismatch ≠ c ∧ 2 < kindWeight .kindMismatch + kindWeight c := by decide
  intro c hc hmem
  obtain ⟨hne, hlt⟩ := hheavy c hc
  exact not_both_of_heaviest hbound hne hlt hx ⟨hk, hmem⟩

/-- A missing implementation and a forbidden assignment weigh the same. -/
def halfWeight : Code → Nat
  | .unimplemented | .readonlyViolation => 1
  | _ => 0

/-- A missing half and a forbidden assignment are not reported together. -/
theorem not_unimplemented_and_readonly (hx : x ∈ reportPattern.matches') :
    ¬(.unimplemented ∈ x ∧ .readonlyViolation ∈ x) := by
  have hbound : heaviest halfWeight reportPattern = some 1 := by decide
  exact not_both_of_heaviest hbound (by decide) (by decide) hx

end Code

namespace Finding

/-- The codes of the violations among findings, in order. -/
def codes (fs : List Finding) : List Code := (violations fs).map (·.code)

@[simp] theorem codes_append (fs gs : List Finding) : codes (fs ++ gs) = codes fs ++ codes gs := by
  rw [codes, violations_append, List.map_append]
  rfl

/-- Without violations there are no codes. -/
theorem codes_eq_nil {fs : List Finding} (h : violations fs = []) : codes fs = [] := by
  rw [codes, h, List.map_nil]

/-- Findings that follow one another read as one word after the other. -/
theorem codes_append_mem {fs gs : List Finding} {p q : RegularExpression Code}
    (hf : codes fs ∈ p.matches') (hg : codes gs ∈ q.matches') :
    codes (fs ++ gs) ∈ (p * q).matches' := by
  rw [codes_append]
  exact Language.append_mem_mul hf hg

/-- What may follow need not. -/
theorem codes_mem_mul_optional {fs : List Finding} {p : RegularExpression Code}
    (hf : codes fs ∈ p.matches') (c : Code) : codes fs ∈ (p * c.optional).matches' := by
  have hword : codes fs ++ [] ∈ (p * c.optional).matches' :=
    Language.append_mem_mul hf c.nil_mem_optional
  rwa [List.append_nil] at hword

/-- Findings that have but one code repeat it. -/
theorem AllWithin.codes_mem_repeated {s : Subject} {name : String} {c : Code}
    {fs : List Finding} (h : AllWithin s name [c] fs) : codes fs ∈ c.repeated.matches' := by
  refine Code.mem_repeated fun d hd => ?_
  obtain ⟨v, hv, rfl⟩ := List.mem_map.mp hd
  exact List.mem_singleton.mp (h.violation hv).2.1

end Finding

namespace Subject

/-- Duplicates are reported at most once. -/
theorem codes_duplicates (s : Subject) (name : String) (ms : List Member) :
    codes (s.duplicates name ms) ∈ Code.duplicate.optional.matches' := by
  unfold duplicates
  split
  · exact Code.mem_optional _
  · exact Code.nil_mem_optional _

/-- Forbidden assignment is reported at most once. -/
theorem codes_readonly (s : Subject) (name : String) (r : Option Requirement)
    (constraint : Option Member) (p : Provision) :
    codes (s.readonly name r constraint p) ∈ Code.readonlyViolation.optional.matches' := by
  unfold readonly
  split
  · exact Code.mem_optional _
  · exact Code.nil_mem_optional _

/-- Comparisons in turn report one mismatch at most. -/
theorem codes_firstMismatch {report : MemberType → MemberType → Finding} {c : Code}
    (h : ∀ expected actual, codes [report expected actual] = [c]) (cs : List Comparison) :
    codes (firstMismatch report cs) ∈ c.optional.matches' := by
  induction cs with
  | nil => exact c.nil_mem_optional
  | cons comparison cs ih =>
    rw [firstMismatch, codes_append, codes_eq_nil (violations_ofCutOffs _), List.nil_append]
    split
    · exact ih
    · rw [h]
      exact c.mem_optional

/-- A mismatch of types is reported at most once. -/
theorem codes_types (s : Subject) (name : String) (r : Requirement) (p : Provision) :
    codes (s.types name r p) ∈ Code.typeMismatch.optional.matches' :=
  codes_firstMismatch (fun _ _ => rfl) _

/-- A mismatch of getter and setter is reported at most once. -/
theorem codes_accessorPair (s : Subject) (name : String) (ms : List Member) :
    codes (s.accessorPair name ms).2 ∈ Code.accessorTypeMismatch.optional.matches' := by
  unfold accessorPair
  split
  · dsimp only
    rw [codes_append, codes_eq_nil (violations_ofCutOffs _), List.nil_append]
    split
    · exact Code.nil_mem_optional _
    · exact Code.mem_optional _
  · exact Code.nil_mem_optional _

/-- A disagreement of implementations is not reported after one of abstract declarations. -/
theorem codes_accessorPairs (s : Subject) (name : String) (ownAbstract ownConcrete : List Member) :
    codes (s.accessorPairs name ownAbstract ownConcrete) ∈
      Code.accessorTypeMismatch.optional.matches' := by
  rw [accessorPairs_eq]
  cases h : (s.accessorPair name ownAbstract).1 with
  | true =>
    rw [if_pos rfl, List.append_nil]
    exact s.codes_accessorPair name ownAbstract
  | false =>
    have hnone : codes (s.accessorPair name ownAbstract).2 = [] :=
      codes_eq_nil ((s.accessorPair_fst_iff name ownAbstract).mp h)
    rw [if_neg Bool.false_ne_true, codes_append, hnone, List.nil_append]
    exact s.codes_accessorPair name ownConcrete

/-- Accessors of which one is abstract are reported at most once. -/
theorem codes_accessorAbstractness (s : Subject) (name : String)
    (ownAbstract ownConcrete : List Member) :
    codes (s.accessorAbstractness name ownAbstract ownConcrete) ∈
      Code.accessorAbstractness.optional.matches' := by
  unfold accessorAbstractness
  dsimp only
  split
  · exact Code.nil_mem_optional _
  · split
    · exact Code.mem_optional _
    · split
      · exact Code.mem_optional _
      · exact Code.nil_mem_optional _

/-- A concrete class reports a missing half once; an abstract class leaves it to its subclasses. -/
theorem codes_gaps {ms : List Member} {p : Provision} (hp : Provision.ofMembers? ms = some p)
    (s : Subject) (name : String) (r : Requirement) :
    codes ((gaps r p).flatMap fun g => s.missingHalf name g.source g.missing g.present) = [] ∨
      s.isAbstract = false ∧ (∃ g, g ∈ gaps r p) ∧
        codes ((gaps r p).flatMap fun g => s.missingHalf name g.source g.missing g.present) =
          [.unimplemented] := by
  have hlen : (gaps r p).length ≤ 1 := length_gaps_le hp r
  rw [codes, violations_gaps]
  cases s.isAbstract with
  | true => exact .inl rfl
  | false =>
    cases hg : gaps r p with
    | nil => exact .inl rfl
    | cons g rest =>
      obtain rfl : rest = [] := by simpa [hg] using hlen
      exact .inr ⟨rfl, ⟨g, List.mem_cons_self⟩, rfl⟩

/-- Where nothing can be written to, no assignment is forbidden. -/
theorem readonly_eq_nil {p : Provision} (h : p.writer = none) (s : Subject) (name : String)
    (r : Option Requirement) (constraint : Option Member) :
    s.readonly name r constraint p = [] := by
  rw [readonly, h]
  cases readOnlySource r constraint <;> rfl

/-- A concrete class that reports a missing half has no assignment to report. -/
theorem afterKinds_of_gap {s : Subject} (hs : s.isAbstract = false) {r : Requirement}
    {p : Provision} (hk : kindOutcome s.options r p ≠ .mismatch) {g : Gap} (hg : g ∈ gaps r p)
    (name : String) (constraint : Option Member) :
    s.afterKinds name r constraint p = s.types name r p := by
  rw [afterKinds]
  cases ho : kindOutcome s.options r p with
  | mismatch => exact absurd ho hk
  | readHalfMissing => simp [hs]
  | compatible =>
    obtain ⟨q, rfl, ⟨_, hsource, setter, rfl⟩ | ⟨_, _, hw⟩⟩ := mem_gaps_cases hg
    · have hread : q.requiresRead = true := by rw [← q.isSome_readSource, hsource]; rfl
      simp [kindOutcome, hread] at ho
    · rw [readonly_eq_nil hw, List.nil_append]

/-- What follows the comparison of kinds reports assignment before types, each at most once. -/
theorem codes_afterKinds (s : Subject) (name : String) (r : Requirement)
    (constraint : Option Member) (p : Provision) :
    codes (s.afterKinds name r constraint p) ∈
      (Code.readonlyViolation.optional * Code.typeMismatch.optional).matches' := by
  have hnone : codes [] ∈ Code.readonlyViolation.optional.matches' := Code.nil_mem_optional _
  have hreadonly := s.codes_readonly name (some r) constraint p
  have htypes := s.codes_types name r p
  unfold afterKinds
  split
  · exact codes_append_mem hreadonly htypes
  · split
    · exact codes_append_mem hreadonly htypes
    · exact codes_append_mem hnone htypes
  · exact codes_mem_mul_optional hnone _

/-- The rules for an implementation report codes in the order of their pattern. -/
theorem codes_provision {ms : List Member} {p : Provision} (hp : Provision.ofMembers? ms = some p)
    (s : Subject) (name : String) (r : Option Requirement) (constraint : Option Member) :
    codes (s.provision name r constraint p) ∈ Code.provisionPattern.matches' := by
  cases r with
  | none => exact .inr (codes_mem_mul_optional (s.codes_readonly name none constraint p) _)
  | some r =>
    rw [provision_some, kinds_eq]
    dsimp only
    by_cases hk : kindOutcome s.options r p = .mismatch
    · rw [if_pos hk, afterKinds, hk]
      exact .inl (.inl rfl)
    rw [if_neg hk]
    rcases codes_gaps hp s name r with hnone | ⟨hs, ⟨g, hg⟩, hone⟩
    · rw [codes_append, hnone, List.nil_append]
      exact .inr (s.codes_afterKinds name r constraint p)
    · rw [afterKinds_of_gap hs hk hg]
      refine .inl (.inr (codes_append_mem ?_ (s.codes_types name r p)))
      rw [hone]
      exact Code.mem_optional _

/-- A full check reports codes in the order of its pattern. -/
theorem codes_fullCheck (s : Subject) (name : String) (r : Option Requirement)
    (constraint : Option Member) (ownAbstract ownConcrete : List Member) :
    codes (s.fullCheck name r constraint ownAbstract ownConcrete) ∈ Code.fullPattern.matches' := by
  have hprovision : codes ((Provision.ofMembers? ownConcrete).elim []
      (s.provision name r constraint)) ∈ Code.provisionPattern.matches' := by
    cases hp : Provision.ofMembers? ownConcrete with
    | none =>
      have hnone : codes [] ∈ Code.readonlyViolation.optional.matches' := Code.nil_mem_optional _
      exact .inr (codes_mem_mul_optional hnone _)
    | some p => exact codes_provision hp s name r constraint
  rw [fullCheck_eq, ← List.append_assoc]
  refine codes_append_mem (codes_append_mem (codes_append_mem (codes_append_mem
    (codes_append_mem (codes_append_mem ?_ ?_) hprovision) ?_) ?_) ?_) ?_
  · exact s.codes_duplicates name ownAbstract
  · exact s.codes_duplicates name ownConcrete
  · exact s.codes_accessorPairs name ownAbstract ownConcrete
  · exact (s.allWithin_bodies name ownConcrete).codes_mem_repeated
  · exact (s.allWithin_abstractMembers name ownAbstract).codes_mem_repeated
  · exact s.codes_accessorAbstractness name ownAbstract ownConcrete

/-- Without an implementation no accessor is concrete. -/
theorem accessorAbstractness_nil (s : Subject) (name : String) (ownAbstract : List Member) :
    s.accessorAbstractness name ownAbstract [] = [] := by
  simp [accessorAbstractness, splitAccessors, hasKind]

/-- The rules that follow the report of an unimplemented name. -/
theorem codes_unimplemented_append {fs : List Finding} (hfs : codes fs = [.unimplemented])
    (s : Subject) (name : String) (r : Option Requirement) (constraint : Option Member)
    (ownAbstract : List Member) :
    codes (fs ++ s.fullCheck name r constraint ownAbstract []) ∈ Code.unmetPattern.matches' := by
  rw [fullCheck_nil, onDemand, accessorAbstractness_nil, List.append_nil, ← List.append_assoc,
    ← List.append_assoc]
  refine codes_append_mem (codes_append_mem (codes_append_mem ?_ ?_) ?_) ?_
  · exact hfs
  · exact s.codes_duplicates name ownAbstract
  · exact s.codes_accessorPair name ownAbstract
  · exact (s.allWithin_abstractMembers name ownAbstract).codes_mem_repeated

end Subject

namespace Group

/-- A demand that nothing implements is reported, or nothing is. -/
theorem codes_unmet (s : Subject) (g : Group) :
    codes (g.unmet s) = [] ∨ g.ownConcrete = [] ∧ codes (g.unmet s) = [.unimplemented] := by
  unfold unmet
  split
  · exact .inl rfl
  · split
    · exact .inl rfl
    · next hc =>
      split
      · exact .inl (codes_eq_nil (violations_map_deferral _))
      · exact .inr ⟨by simpa using hc, rfl⟩

/-- A name is reported in the order of an unmet demand or in that of a full check. -/
theorem codes_findings (s : Subject) (g : Group) :
    g.ownConcrete = [] ∧ codes (g.findings s) ∈ Code.unmetPattern.matches' ∨
      codes (g.findings s) ∈ Code.fullPattern.matches' := by
  have hfirst : codes ([.examined g.name g.ownAbstract.length g.ownConcrete.length
      g.requirement?.isSome] ++ g.unmet s) = codes (g.unmet s) := codes_append _ _
  rw [findings_eq]
  rcases g.codes_unmet s with hnone | ⟨hc, hone⟩
  · right
    rw [codes_append, hfirst, hnone, List.nil_append]
    exact s.codes_fullCheck ..
  · left
    refine ⟨hc, ?_⟩
    rw [fullCheck, hc]
    rw [hc] at hfirst
    exact Subject.codes_unimplemented_append (hfirst.trans hone) ..

end Group

/-- The codes reported for one name, in order. -/
def Report.codesFor (r : Report) (name : String) : List Code := (r.violationsFor name).map (·.code)

namespace ClassDecl

/-- What is reported for a name comes in a fixed order. Where the class does not implement the name,
this is: wholly unimplemented, then duplicates, disagreement of accessors and abstract members. In all
other cases it is: duplicates of abstract declarations and of implementations; another kind than
required, or a missing half or a forbidden assignment and then a type that does not fit; disagreement
of accessors, missing bodies, abstract members, and accessors of which one is abstract. So everything
but duplicates, bodies and abstract members is reported once at most, another kind excludes missing
halves, forbidden assignments and types, and what is unimplemented is never reported as assigned. -/
theorem codesFor_check_mem (c : ClassDecl) (o : Options) (name : String) :
    (c.ownConcrete name = [] ∧ (c.check o).codesFor name ∈ Code.unmetPattern.matches' ∨
      (c.check o).codesFor name ∈ Code.fullPattern.matches') ∧
    (∀ code ∈ Code.single, ((c.check o).codesFor name).count code ≤ 1) ∧
    (.kindMismatch ∈ (c.check o).codesFor name →
      ∀ code ∈ Code.besideKind, code ∉ (c.check o).codesFor name) ∧
    ¬(.unimplemented ∈ (c.check o).codesFor name ∧
      .readonlyViolation ∈ (c.check o).codesFor name) := by
  have hcodes : codes ((c.groupOf name).findings (.ofClass c o)) = (c.check o).codesFor name := by
    rw [Report.codesFor, violationsFor_check]
    rfl
  have hshape := (c.groupOf name).codes_findings (.ofClass c o)
  rw [ownConcrete_groupOf, hcodes] at hshape
  have hword : (c.check o).codesFor name ∈ Code.reportPattern.matches' := hshape.imp_left (·.2)
  exact ⟨hshape, Code.count_le_one hword, Code.notMem_of_kindMismatch hword,
    Code.not_unimplemented_and_readonly hword⟩

end ClassDecl

end ClassContract
