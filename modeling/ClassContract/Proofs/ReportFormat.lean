import ClassContract.Proofs.ClassFormat
import ClassContract.Proofs.Provenance

/-!
# Reports and their JSON

A report shows types in two places. What it leaves to subclasses stands as deep in the output as the
declarations of a class stand in the input, so these types always find the levels they need. A type
that a violation shows stands one level deeper, and a type that used all levels of the input does not
fit there. `readReports_output_iff` gives the exact condition under which an output is read as the
reports it was written for, and `tower_not_read_back` an accepted text whose output is not.
-/

namespace ClassContract

open Decoder

/-- The numeral of a natural number is well formed. -/
theorem Numeral.wellFormed_ofNat (n : Nat) : (Numeral.ofNat n).WellFormed := by
  refine ⟨Nat.toDigits_ne_nil, allDigits_toDigits n, fun hzero => ?_, ?_⟩
  · by_cases hn : n = 0
    · rw [hn]
      rfl
    · exact absurd hzero (head?_toDigits_ne_zero hn)
  · exact fun c hc => absurd hc List.not_mem_nil

/-- Counts are written well formed. -/
theorem Json.wellFormed_count (n : Nat) : (Json.count n).WellFormed := by
  intro t ht
  cases List.mem_singleton.mp ht
  exact Numeral.wellFormed_ofNat n

/-- A count is read from its numeral exactly if it has 64 bits. -/
theorem Decoder.count_eq_ok_iff {r : Reading} {n : Nat} :
    Decoder.count r (.count n) = .ok n ↔ n < Numeral.wordLimit := by
  have hread : (Numeral.ofNat n).toNat? = if n < Numeral.wordLimit then some n else none := by
    simp [Numeral.toNat?, Numeral.ofNat, Numeral.digitsValue_toDigits]
  unfold Decoder.count Json.count
  dsimp only
  rw [hread]
  by_cases hn : n < Numeral.wordLimit <;> simp [hn]

namespace Side

/-- The type that a side shows. -/
def type? : Side → Option MemberType
  | .type t => some t
  | _ => Option.none

/-- A side that comes back where `levels` arrays and objects may be opened inside it. -/
def Fits (levels : Nat) : Side → Prop
  | .none => True
  | .kind _ => True
  | .type t => t.levels ≤ levels ∧ ∀ x ∈ t.numbers, x.ReadsBack
  | .count n => n < Numeral.wordLimit

/-- Sides are written well formed. -/
theorem wellFormed_toJson (s : Side) : s.toJson.WellFormed := by
  cases s with
  | none => exact Json.wellFormed_record (by simp [Json.wellFormed_text])
  | kind k =>
    exact Json.wellFormed_record (by simp [MemberKind.toJson, Json.wellFormed_text])
  | type t => exact Json.wellFormed_record (by simp [Json.wellFormed_text, t.wellFormed_toJson])
  | count n =>
    exact Json.wellFormed_record (by simp [Json.wellFormed_text, Json.wellFormed_count])

/-- A side is read back just if it fits the levels that are left. -/
theorem decoder_toJson_iff {n : Nat} {held : Bool} {s : Side} :
    decoder ⟨n + 1, held⟩ s.toJson = .ok s ↔ s.Fits n := by
  cases s with
  | none =>
    rw [decoder, toJson, tagged_kind rfl]
    simp [Fits]
  | kind k =>
    rw [decoder, toJson, tagged_kind_value rfl, map_written_iff fun _ _ => Side.kind.inj]
    simp [Fits]
  | type t =>
    rw [decoder, toJson, tagged_kind_value rfl, map_written_iff fun _ _ => Side.type.inj]
    exact MemberType.decoder_toJson_iff
  | count k =>
    rw [decoder, toJson, tagged_kind_value rfl, map_written_iff fun _ _ => Side.count.inj]
    exact count_eq_ok_iff

/-- A side that has a type is that type. -/
theorem eq_type_of_mem {s : Side} {t : MemberType} (h : t ∈ s.type?.toList) : s = .type t := by
  cases s with
  | type u => rw [List.mem_singleton.mp h]
  | none | kind | count => cases h

/-- The type of a side that was read is not nested deeper than the levels inside the side. -/
theorem levels_lt_of_decoder {r : Reading} {v : Json} {t : MemberType}
    (h : decoder r v = .ok (.type t)) : t.levels < r.levels := by
  obtain ⟨inner, hinner, word, variant, w, hmem, hread⟩ := exists_of_tagged h
  simp only [List.mem_cons, List.not_mem_nil, or_false, Prod.mk.injEq] at hmem
  rcases hmem with ⟨_, rfl⟩ | ⟨_, rfl⟩ | ⟨_, rfl⟩ | ⟨_, rfl⟩
  · cases w <;> cases hread
  · obtain ⟨k, _, heq⟩ := map_eq_ok.mp hread
    cases heq
  · obtain ⟨t', ht, heq⟩ := map_eq_ok.mp hread
    cases heq
    have hlevels := MemberType.levels_le_of_nestedDecoder ht
    omega
  · obtain ⟨k, _, heq⟩ := map_eq_ok.mp hread
    cases heq

end Side

/-- Categories are read back. -/
@[simp] theorem Category.decoder_word (r : Reading) (c : Category) :
    Category.decoder r (.text c.word) = .ok c := by
  rw [Category.decoder, choice_text]
  cases c <;> rfl

/-- Codes are read back. -/
@[simp] theorem Code.decoder_toJson (r : Reading) (c : Code) :
    Code.decoder r c.toJson = .ok c := by
  rw [Code.decoder, Code.toJson, choice_text]
  cases c <;> rfl

namespace Violation

/-- The types that a violation shows. -/
def types (v : Violation) : List MemberType := v.expected.type?.toList ++ v.actual.type?.toList

/-- Violations are written well formed. -/
theorem wellFormed_toJson (v : Violation) : v.toJson.WellFormed := by
  refine Json.wellFormed_record ?_
  cases v.declaredIn <;>
    simp [Code.toJson, Json.wellFormed_text, Side.wellFormed_toJson]

/-- A violation comes back exactly if both of its sides do. -/
theorem decoder_written_iff {n : Nat} {held : Bool} {v : Violation} :
    decoder ⟨n + 1, held⟩ v.toJson = .ok v ↔
      Side.decoder ⟨n, held⟩ v.expected.toJson = .ok v.expected ∧
        Side.decoder ⟨n, held⟩ v.actual.toJson = .ok v.actual := by
  obtain ⟨member, category, code, owner, declaredIn, expected, actual⟩ := v
  cases declaredIn with
  | none =>
    rw [decoder, toJson, record_chosen _ [.text member, .text category.word, code.toJson,
      .text owner, expected.toJson, actual.toJson] ?_ ?_ ?_ (List.eraseIdx_sublist _ 4) ?_]
    · simp only [List.eraseIdx, readInOrder, Field.need, Decoder.map]
      cases Side.decoder ⟨n, held⟩ expected.toJson with
      | error e => simp [Except.map, bind, Except.bind]
      | ok e =>
        cases Side.decoder ⟨n, held⟩ actual.toJson <;> simp [Except.map, bind, Except.bind]
    · rfl
    · decide
    · rfl
    · simp [Field.need, Field.may]
  | some place =>
    have hplace : Decoder.optional .text ⟨n, held⟩ (.text place) = .ok (some place) := by
      rw [Json.text, Decoder.optional.eq_2 _ _ _ (by simp), ← Json.text, text_text]
      rfl
    rw [decoder, toJson, record_written [.text member, .text category.word, code.toJson,
      .text owner, .text place, expected.toJson, actual.toJson]]
    · simp only [readInOrder, Field.need, Field.may, Decoder.map, hplace]
      cases Side.decoder ⟨n, held⟩ expected.toJson with
      | error e => simp [Except.map, bind, Except.bind]
      | ok e =>
        cases Side.decoder ⟨n, held⟩ actual.toJson <;> simp [Except.map, bind, Except.bind]
    · rfl
    · decide
    · rfl

/-- The types that a violation shows were read two levels further in. -/
theorem levels_of_decoder {r : Reading} {w : Json} {v : Violation} (h : decoder r w = .ok v) :
    ∀ t ∈ v.types, t.levels + 2 ≤ r.levels := by
  obtain ⟨inner, hinner, seen, hfilled, _⟩ := exists_of_record h
  have hexpected := hfilled.part "expected" Side.decoder Violation.expected (by
    intro f hf
    simp only [List.mem_cons, List.not_mem_nil, or_false] at hf
    rcases hf with rfl | rfl | rfl | rfl | rfl | rfl | rfl
    case inr.inr.inr.inr.inr.inl => exact .inl (sets_map fun _ _ => rfl)
    all_goals exact .inr ⟨by decide, keeps_map fun _ _ => rfl⟩)
  have hactual := hfilled.part "actual" Side.decoder Violation.actual (by
    intro f hf
    simp only [List.mem_cons, List.not_mem_nil, or_false] at hf
    rcases hf with rfl | rfl | rfl | rfl | rfl | rfl | rfl
    case inr.inr.inr.inr.inr.inr => exact .inl (sets_map fun _ _ => rfl)
    all_goals exact .inr ⟨by decide, keeps_map fun _ _ => rfl⟩)
  have hside : ∀ {s : Side} {t : MemberType}, t ∈ s.type?.toList →
      ((∃ x, Side.decoder inner x = .ok s) ∨ s = .none) → t.levels + 2 ≤ r.levels := by
    rintro s t ht (⟨x, hx⟩ | rfl)
    · rw [Side.eq_type_of_mem ht] at hx
      have hlevels := Side.levels_lt_of_decoder hx
      omega
    · cases ht
  intro t ht
  rcases List.mem_append.mp ht with ht | ht
  · exact hside ht (hexpected.imp_right And.right)
  · exact hside ht (hactual.imp_right And.right)

end Violation

/-- How many arrays and objects may be nested in a type that a violation shows. Around it stand the
list of reports, the report, the list of its violations, the violation and its side. -/
def shownLevels : Nat := maxLevels - 5

/-- How many arrays and objects may be nested in the type of a declaration of a class. Around it
stand the list of classes, the class, the list of its members and the member. -/
def declaredLevels : Nat := maxLevels - 4

namespace Report

/-- A report that comes back from the output. -/
structure Fits (r : Report) : Prop where
  /-- Both sides of each violation come back where they stand. -/
  violations : ∀ v ∈ r.violations, v.expected.Fits shownLevels ∧ v.actual.Fits shownLevels
  /-- The numbers in what is left to subclasses come back. -/
  pending : ∀ m ∈ r.pending, ∀ x ∈ m.numbers, x.ReadsBack

/-- Reports are written well formed. -/
theorem wellFormed_toJson (r : Report) : r.toJson.WellFormed := by
  have hviolations : (Json.array (r.violations.map Violation.toJson)).WellFormed :=
    Json.wellFormed_array.mpr (List.forall_mem_map.mpr fun v _ => v.wellFormed_toJson)
  have hpending : (Json.array (r.pending.map Member.toJson)).WellFormed :=
    Json.wellFormed_array.mpr (List.forall_mem_map.mpr fun m _ => m.wellFormed_toJson)
  refine Json.wellFormed_record ?_
  split <;> simp [Json.wellFormed_text, Json.wellFormed_bool, hviolations, hpending]

/-- A report comes back exactly if its violations and what it leaves to subclasses do. -/
theorem decoder_written_iff {n : Nat} {held : Bool} {r : Report} :
    decoder ⟨n + 1, held⟩ r.toJson = .ok r ↔
      Decoder.list Violation.decoder ⟨n, held⟩ (writeList Violation.toJson r.violations) =
          .ok r.violations ∧
        (r.pending = [] ∨
          Decoder.list Member.decoder ⟨n, held⟩ (writeList Member.toJson r.pending) =
            .ok r.pending) := by
  obtain ⟨className, isAbstract, violations, pending⟩ := r
  cases pending with
  | nil =>
    rw [decoder, toJson, record_chosen _ [.text className, .bool isAbstract,
      writeList Violation.toJson violations] ?_ ?_ ?_ (List.eraseIdx_sublist _ 3) ?_]
    · simp only [List.eraseIdx, readInOrder, Field.need, Decoder.map]
      cases Decoder.list Violation.decoder ⟨n, held⟩ (writeList Violation.toJson violations) <;>
        simp [Except.map, bind, Except.bind]
    · rfl
    · decide
    · rfl
    · simp [Field.need, Field.may]
  | cons m ms =>
    rw [decoder, toJson, record_written [.text className, .bool isAbstract,
      writeList Violation.toJson violations, writeList Member.toJson (m :: ms)]]
    · simp only [readInOrder, Field.need, Field.may, Decoder.map]
      cases Decoder.list Violation.decoder ⟨n, held⟩ (writeList Violation.toJson violations) with
      | error e => simp [Except.map, bind, Except.bind]
      | ok vs =>
        cases Decoder.list Member.decoder ⟨n, held⟩ (writeList Member.toJson (m :: ms)) <;>
          simp [Except.map, bind, Except.bind]
    · rfl
    · decide
    · rfl

/-- Where the declarations that are handed down have as many levels as in a class, a report comes
back from the output exactly if it fits. -/
theorem decoder_toJson_iff {r : Report}
    (h : r.HandsDownOnly fun t => t.levels ≤ declaredLevels) :
    decoder ⟨maxLevels - 1, false⟩ r.toJson = .ok r ↔ r.Fits := by
  have hviolation : ∀ v : Violation, Violation.decoder ⟨maxLevels - 3, false⟩ v.toJson = .ok v ↔
      v.expected.Fits shownLevels ∧ v.actual.Fits shownLevels := fun v =>
    Violation.decoder_written_iff.trans
      (and_congr Side.decoder_toJson_iff Side.decoder_toJson_iff)
  have hmember : ∀ m ∈ r.pending, (Member.decoder ⟨maxLevels - 3, false⟩ m.toJson = .ok m ↔
      ∀ x ∈ m.numbers, x.ReadsBack) := by
    intro m hm
    refine Member.decoder_written_iff.trans (MemberType.decoder_toJson_iff.trans ?_)
    exact and_iff_right (h m hm)
  rw [show maxLevels - 1 = maxLevels - 2 + 1 from rfl, decoder_written_iff]
  constructor
  · rintro ⟨hviolations, hpending⟩
    refine ⟨fun v hv => (hviolation v).mp (list_written_iff.mp hviolations v hv), ?_⟩
    intro m hm
    rcases hpending with hnone | hpending
    · rw [hnone] at hm
      cases hm
    · exact (hmember m hm).mp (list_written_iff.mp hpending m hm)
  · rintro ⟨hviolations, hpending⟩
    refine ⟨list_written_iff.mpr fun v hv => (hviolation v).mpr (hviolations v hv), .inr ?_⟩
    exact list_written_iff.mpr fun m hm => (hmember m hm).mpr (hpending m hm)

/-- The types in the violations of a report were read four levels further in. -/
theorem levels_of_decoder {reading : Reading} {w : Json} {r : Report}
    (h : decoder reading w = .ok r) :
    ∀ v ∈ r.violations, ∀ t ∈ v.types, t.levels + 4 ≤ reading.levels := by
  obtain ⟨inner, hinner, seen, hfilled, _⟩ := exists_of_record h
  have hviolations := hfilled.part "diagnostics" (Decoder.list Violation.decoder)
    Report.violations (by
      intro f hf
      simp only [List.mem_cons, List.not_mem_nil, or_false] at hf
      rcases hf with rfl | rfl | rfl | rfl
      case inr.inr.inl => exact .inl (sets_map fun _ _ => rfl)
      all_goals exact .inr ⟨by decide, keeps_map fun _ _ => rfl⟩)
  intro v hv t ht
  rcases hviolations with ⟨x, hx⟩ | ⟨_, hnone⟩
  · obtain ⟨deeper, hdeeper, hitems⟩ := exists_of_list hx
    obtain ⟨y, hy⟩ := hitems v hv
    have hlevels := Violation.levels_of_decoder hy t ht
    omega
  · rw [hnone] at hv
    cases hv

end Report

/-- Read a list of reports. -/
def readReports (input : String) : Except Fault (List Report) :=
  (Document.ofString input).decode (.list Report.decoder)

/-- The types that are shown in reports that were read have room for five levels around them. -/
theorem levels_of_readReports {input : String} {rs : List Report}
    (h : readReports input = .ok rs) :
    ∀ r ∈ rs, ∀ v ∈ r.violations, ∀ t ∈ v.types, t.levels ≤ shownLevels := by
  obtain ⟨w, _, hw⟩ := Document.exists_complete_of_decode h
  obtain ⟨inner, hinner, hitems⟩ := exists_of_list hw
  intro r hr v hv t ht
  obtain ⟨x, hx⟩ := hitems r hr
  have hlevels := Report.levels_of_decoder hx v hv t ht
  have hmax : inner.levels + 1 = maxLevels := hinner
  unfold shownLevels
  omega

/-- A list of reports is written well formed. -/
theorem wellFormed_reportsJson (rs : List Report) : (reportsJson rs).WellFormed :=
  Json.wellFormed_array.mpr (List.forall_mem_map.mpr fun r _ => r.wellFormed_toJson)

/-- Reports on types that can be declared are read back just if all of them fit. -/
theorem readReports_render_iff {rs : List Report}
    (h : ∀ r ∈ rs, r.HandsDownOnly fun t => t.levels ≤ declaredLevels) :
    readReports (reportsJson rs).render = .ok rs ↔ ∀ r ∈ rs, r.Fits := by
  rw [readReports, Document.ofString, Json.render, String.toList_ofList,
    Document.decode_chars (wellFormed_reportsJson rs), reportsJson,
    show maxLevels = maxLevels - 1 + 1 from rfl, list_written_iff]
  exact forall_congr' fun r => forall_congr' fun hr => Report.decoder_toJson_iff (h r hr)

/-- All types of classes that were read have room for four levels around them. -/
theorem declaresOnly_of_readClasses {input : String} {cs : List ClassDecl}
    (h : readClasses input = .ok cs) :
    ∀ c ∈ cs, c.DeclaresOnly fun t => t.levels ≤ declaredLevels := by
  obtain ⟨v, hv⟩ := exists_of_readDocument h
  obtain ⟨inner, hinner, hclasses⟩ := exists_of_list hv
  have hmax : inner.levels + 1 = maxLevels := hinner
  have hlist : ∀ {r : Reading} {w : Json} {ms : List Member},
      Decoder.list Member.decoder r w = .ok ms → ∀ m ∈ ms, m.type.levels + 2 ≤ r.levels := by
    intro r w ms hms m hm
    obtain ⟨deeper, hdeeper, hitems⟩ := exists_of_list hms
    obtain ⟨x, hx⟩ := hitems m hm
    obtain ⟨deepest, hdeepest, y, hy⟩ := Member.exists_of_decoder hx
    have hlevels := MemberType.levels_le_of_nestedDecoder hy
    omega
  intro c hc
  obtain ⟨x, hx⟩ := hclasses c hc
  obtain ⟨class', hclass, hmembers, hancestors⟩ := ClassDecl.exists_of_decoder hx
  refine ⟨fun m hm => ?_, fun a ha m hm => ?_⟩
  · rcases hmembers with hnone | ⟨y, hy⟩
    · rw [hnone] at hm
      cases hm
    · have hlevels := hlist hy m hm
      unfold declaredLevels
      omega
  · rcases hancestors with hnone | ⟨y, hy⟩
    · rw [hnone] at ha
      cases ha
    · obtain ⟨deeper, hdeeper, hitems⟩ := exists_of_list hy
      obtain ⟨z, hz⟩ := hitems a ha
      obtain ⟨ancestor, hancestor, hread⟩ := Ancestor.exists_of_decoder hz
      rcases hread with hnone | ⟨u, hu⟩
      · rw [hnone] at hm
        cases hm
      · have hlevels := hlist hu m hm
        unfold declaredLevels
        omega

/-- A function without parameters that returns such a function, and so on, `n` times. -/
def MemberType.tower : Nat → MemberType → MemberType
  | 0, t => t
  | n + 1, t => .function [] (tower n t)

/-- Every type takes a level at least. -/
theorem MemberType.one_le_levels (t : MemberType) : 1 ≤ t.levels := by
  cases t <;> simp [levels]

/-- A storey of a tower adds two levels. -/
theorem MemberType.levels_tower (n : Nat) (t : MemberType) :
    (tower n t).levels = 2 * n + t.levels := by
  induction n with
  | zero => simp [tower]
  | succ n ih =>
    have hpos := t.one_le_levels
    rw [tower, levels, ih, listLevels]
    omega

/-- A tower has the numbers of the type at its foot. -/
theorem MemberType.numbers_tower (n : Nat) (t : MemberType) :
    (tower n t).numbers = t.numbers := by
  induction n with
  | zero => rfl
  | succ n ih => rw [tower, numbers, ih, listNumbers, List.nil_append]

/-- A class with a getter of the given type and a setter of numbers. -/
def towerClass (t : MemberType) : ClassDecl :=
  ⟨"Tower", false, [.concrete .getAccessor "Tower" "top" t,
    .concrete .setAccessor "Tower" "top" (.keyword .number)], []⟩

/-- A class with a type that can be declared is read back. -/
theorem readClasses_towerClass {t : MemberType} (hlevels : t.levels ≤ declaredLevels)
    (hnumbers : ∀ x ∈ t.numbers, x.ReadsBack) :
    readClasses (classesJson [towerClass t]).render = .ok [towerClass t] := by
  have htype : MemberType.decoder ⟨declaredLevels, false⟩ t.toJson = .ok t :=
    MemberType.decoder_toJson_iff.mpr ⟨hlevels, hnumbers⟩
  have hnumber : MemberType.decoder ⟨declaredLevels, false⟩ (MemberType.keyword .number).toJson =
      .ok (.keyword .number) :=
    MemberType.decoder_toJson_iff.mpr ⟨by decide, fun x hx => absurd hx List.not_mem_nil⟩
  have hmembers : ∀ m ∈ (towerClass t).members,
      Member.decoder ⟨declaredLevels + 1, false⟩ m.toJson = .ok m := by
    refine List.forall_mem_cons.mpr ⟨Member.decoder_written_iff.mpr htype, ?_⟩
    exact List.forall_mem_singleton.mpr (Member.decoder_written_iff.mpr hnumber)
  rw [readClasses, Json.render, String.toList_ofList,
    readDocument_chars_iff (wellFormed_classesJson _), classesJson,
    show maxLevels = declaredLevels + 4 from rfl, list_written_iff]
  refine List.forall_mem_singleton.mpr (ClassDecl.decoder_written_iff.mpr ⟨?_, rfl⟩)
  exact list_written_iff.mpr hmembers

/-- A type with as many levels as a violation may show, around a number. -/
def shownTower : MemberType :=
  .tower 60 (.literal (.number (.finite ⟨false, 3 * twoPow 1073, by decide +kernel⟩)))

/-- A type with one level more, which a declaration may still have. -/
def declaredTower : MemberType := .tower 61 (.keyword .number)

/-- Every accepted text has an output, and the output is read as the reports it was written for
exactly if each of them fits; so for classes checked one by one and for a hierarchy. -/
theorem readReports_output_iff {input : String} {cs : List ClassDecl}
    (h : readClasses input = .ok cs) (o : Options) :
    (∃ output, checkAllText input o = .ok output ∧
        (readReports output = .ok (checkAll cs o) ↔ ∀ r ∈ checkAll cs o, r.Fits)) ∧
      ∃ output, checkHierarchyText input o = .ok output ∧
        (readReports output = .ok (checkHierarchy cs o) ↔ ∀ r ∈ checkHierarchy cs o, r.Fits) := by
  have hdeclared := declaresOnly_of_readClasses h
  refine ⟨⟨(reportsJson (checkAll cs o)).render, ?_, ?_⟩,
    ⟨(reportsJson (checkHierarchy cs o)).render, ?_, ?_⟩⟩
  · rw [checkAllText, h]
    rfl
  · exact readReports_render_iff (handsDownOnly_checkAll hdeclared o)
  · rw [checkHierarchyText, h]
    rfl
  · exact readReports_render_iff (handsDownOnly_checkHierarchy hdeclared o)

/-- The report on the tower that is shown reads back. -/
theorem shown_tower_read_back :
    ∃ output, checkAllText (classesJson [towerClass shownTower]).render .initial = .ok output ∧
      readReports output = .ok (checkAll [towerClass shownTower] .initial) := by
  have hlevels : shownTower.levels = shownLevels := MemberType.levels_tower 60 _
  have hnumbers : ∀ x ∈ shownTower.numbers, x.ReadsBack := by
    rw [shownTower, MemberType.numbers_tower]
    refine List.forall_mem_singleton.mpr ?_
    decide +kernel
  have hread := readClasses_towerClass (t := shownTower) (by rw [hlevels]; decide) hnumbers
  obtain ⟨⟨output, houtput, hback⟩, _⟩ := readReports_output_iff hread .initial
  refine ⟨output, houtput, hback.mpr (List.forall_mem_singleton.mpr ⟨?_, ?_⟩)⟩
  · refine List.forall_mem_singleton.mpr ⟨⟨Nat.le_of_eq hlevels, hnumbers⟩, ?_⟩
    exact ⟨by decide, fun x hx => absurd hx List.not_mem_nil⟩
  · exact fun p hp => absurd hp List.not_mem_nil

/-- A class is accepted and has an output, but no text at all is read as the report on it. -/
theorem tower_not_read_back :
    readClasses (classesJson [towerClass declaredTower]).render = .ok [towerClass declaredTower] ∧
      (∃ output, checkAllText (classesJson [towerClass declaredTower]).render .initial =
        .ok output) ∧
      ∀ text, readReports text ≠ .ok (checkAll [towerClass declaredTower] .initial) := by
  have hlevels : declaredTower.levels = declaredLevels := MemberType.levels_tower 61 _
  have hnumbers : ∀ x ∈ declaredTower.numbers, x.ReadsBack := by
    rw [declaredTower, MemberType.numbers_tower]
    exact fun x hx => absurd hx List.not_mem_nil
  have hread := readClasses_towerClass (Nat.le_of_eq hlevels) hnumbers
  refine ⟨hread, ⟨_, by rw [checkAllText, hread]; rfl⟩, fun text htext => ?_⟩
  have hshown := levels_of_readReports htext _ List.mem_cons_self _ List.mem_cons_self
    declaredTower List.mem_cons_self
  rw [hlevels] at hshown
  exact absurd hshown (by decide)

end ClassContract
