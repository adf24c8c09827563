import ClassContract.MemberType.Json
import ClassContract.Proofs.Decoding

/-!
# Types come back from their JSON

A type may have been written in several ways, and some of them cost more levels than others, but none
costs less than the way in which it is written again: `levels` counts what the written form needs,
and `levels_le_of_nestedDecoder` says that reading the type must have spent as many. So a type that
was read under some limit comes back under the same limit, `returnsWithin_of_nestedDecoder`. Both
parts go through the constructors, each of which says what it needs beyond the levels of its parts.
-/

namespace ClassContract

open Decoder

namespace Literal

/-- The number of a number literal. -/
def numbers : Literal → List Double
  | .number x => [x]
  | _ => []

/-- Literals are written well formed. -/
theorem wellFormed_toJson (l : Literal) : l.toJson.WellFormed := by
  cases l with
  | string s => exact Json.wellFormed_record (by simp [Json.wellFormed_text])
  | number x => exact Json.wellFormed_record (by simp [Json.wellFormed_text, Json.wellFormed_double])
  | boolean b => exact Json.wellFormed_record (by simp [Json.wellFormed_text, Json.wellFormed_bool])

/-- Literals with numbers that read back are read back. -/
theorem returns (l : Literal) : Returns decoder toJson numbers 1 l := by
  refine returns_succ fun n held _ => ?_
  cases l with
  | string s =>
    rw [decoder, toJson, tagged_kind_value rfl, map_written_iff fun _ _ => Literal.string.inj]
    simp [numbers]
  | number x =>
    rw [decoder, toJson, tagged_kind_value rfl, map_written_iff fun _ _ => Literal.number.inj,
      double_eq_ok_iff]
    simp [numbers]
  | boolean b =>
    rw [decoder, toJson, tagged_kind_value rfl, map_written_iff fun _ _ => Literal.boolean.inj]
    simp [numbers]

end Literal

namespace MemberType

mutual

/-- The numbers of all number literals in a type. -/
def numbers : MemberType → List Double
  | .keyword _ => []
  | .literal l => l.numbers
  | .named _ => []
  | .union ms => listNumbers ms
  | .function ps r => listNumbers ps ++ r.numbers

/-- The numbers of all number literals in a list of types. -/
def listNumbers : List MemberType → List Double
  | [] => []
  | t :: ts => t.numbers ++ listNumbers ts

end

theorem listNumbers_eq_flatMap (ts : List MemberType) : listNumbers ts = ts.flatMap numbers := by
  induction ts with
  | nil => rfl
  | cons t ts ih => rw [listNumbers, ih, List.flatMap_cons]

mutual

/-- Types are written well formed. -/
theorem wellFormed_toJson : ∀ t : MemberType, t.toJson.WellFormed
  | .keyword k => Json.wellFormed_record (by simp [Json.wellFormed_text])
  | .literal l => Json.wellFormed_record (by simp [Json.wellFormed_text, l.wellFormed_toJson])
  | .named name => Json.wellFormed_record (by simp [Json.wellFormed_text])
  | .union ms =>
    have hms := Json.wellFormed_array.mpr (wellFormed_listToJson ms)
    Json.wellFormed_record (by simp [Json.wellFormed_text, hms])
  | .function ps r =>
    have hps := Json.wellFormed_array.mpr (wellFormed_listToJson ps)
    have hr := wellFormed_toJson r
    have hsignature : (Json.record [("params", .array (listToJson ps)),
        ("returnType", r.toJson)]).WellFormed :=
      Json.wellFormed_record (by simp [hps, hr])
    Json.wellFormed_record (by simp [Json.wellFormed_text, hsignature])

/-- Lists of types are written well formed. -/
theorem wellFormed_listToJson : ∀ ts : List MemberType, ∀ v ∈ listToJson ts, v.WellFormed
  | [] => by simp [listToJson]
  | t :: ts => List.forall_mem_cons.mpr ⟨wellFormed_toJson t, wellFormed_listToJson ts⟩

end

/-- A type comes back where `levels` arrays and objects may be opened, however deep types are allowed
beyond that. -/
def ReturnsWithin (levels : Nat) (t : MemberType) : Prop :=
  ∀ n (r : Reading), r.levels < n → levels ≤ r.levels →
    (nestedDecoder n r t.toJson = .ok t ↔ ∀ x ∈ t.numbers, x.ReadsBack)

/-- More levels do not hinder reading back. -/
theorem ReturnsWithin.mono {levels more : Nat} {t : MemberType} (h : ReturnsWithin levels t)
    (hle : levels ≤ more) : ReturnsWithin more t :=
  fun n r hn hr => h n r hn (Nat.le_trans hle hr)

/-- A type that is read back within some levels is so at that many. -/
theorem ReturnsWithin.returns {levels : Nat} {t : MemberType} (h : ReturnsWithin levels t) :
    Returns decoder toJson numbers levels t :=
  fun r hr => h (r.levels + 1) r (Nat.lt_succ_self _) hr

/-- Every type opens an object, so one step of the reader can be taken. -/
theorem returnsWithin_succ {levels : Nat} {t : MemberType}
    (h : ∀ n m held, m < n → levels ≤ m →
      (tagged "ValueType" (variants (nestedDecoder n)) ⟨m + 1, held⟩ t.toJson = .ok t ↔
        ∀ x ∈ t.numbers, x.ReadsBack)) : ReturnsWithin (levels + 1) t := by
  rintro n ⟨m, held⟩ hn hm
  cases n with
  | zero => exact absurd hn (Nat.not_lt_zero _)
  | succ n =>
    cases m with
    | zero => exact absurd hm (Nat.not_succ_le_zero _)
    | succ m => exact h n m held (Nat.lt_of_succ_lt_succ hn) (Nat.le_of_succ_le_succ hm)

/-- The word of a keyword is the kind of that keyword. -/
theorem lookup_keyword (inner : Decoder MemberType) (k : Keyword) :
    (namedKinds (variants inner)).lookup k.word = some (k.word, .plain (.keyword k)) := by
  cases k <;> rfl

/-- Keywords are read back within one level. -/
theorem returnsWithin_keyword (k : Keyword) : ReturnsWithin 1 (.keyword k) := by
  refine returnsWithin_succ fun n m held _ _ => ?_
  rw [toJson, tagged_kind (lookup_keyword _ k)]
  simp [numbers]

/-- Literals are read back within two levels. -/
theorem returnsWithin_literal (l : Literal) : ReturnsWithin 2 (.literal l) := by
  refine returnsWithin_succ fun n m held _ hm => ?_
  rw [toJson, tagged_kind_value rfl, map_written_iff fun _ _ => MemberType.literal.inj, numbers]
  exact l.returns ⟨m, held⟩ hm

/-- Names are read back within one level. -/
theorem returnsWithin_named (name : String) : ReturnsWithin 1 (.named name) := by
  refine returnsWithin_succ fun n m held _ _ => ?_
  rw [toJson, tagged_kind_value rfl, map_written_iff fun _ _ => MemberType.named.inj]
  simp [numbers]

/-- A list of types, given that each of them comes back. -/
theorem list_eq_ok_iff {levels n m : Nat} {held : Bool} {ts : List MemberType}
    (h : ∀ t ∈ ts, ReturnsWithin levels t) (hn : m < n) (hm : levels + 1 ≤ m) :
    (nestedDecoder n).list ⟨m, held⟩ (.array (listToJson ts)) = .ok ts ↔
      ∀ x ∈ listNumbers ts, x.ReadsBack := by
  cases m with
  | zero => omega
  | succ m =>
    have hitem : ∀ t ∈ ts, (nestedDecoder n ⟨m, held⟩ t.toJson = .ok t ↔
        ∀ x ∈ t.numbers, x.ReadsBack) :=
      fun t ht => h t ht n ⟨m, held⟩ (by dsimp only; omega) (by dsimp only; omega)
    rw [listToJson_eq_map, list_written_iff, listNumbers_eq_flatMap, List.forall_mem_flatMap]
    exact ⟨fun hread t ht => (hitem t ht).mp (hread t ht),
      fun hnumbers t ht => (hitem t ht).mpr (hnumbers t ht)⟩

/-- A union is read back within two levels more than its members. -/
theorem returnsWithin_union {levels : Nat} {ms : List MemberType}
    (h : ∀ t ∈ ms, ReturnsWithin levels t) : ReturnsWithin (levels + 2) (.union ms) := by
  refine returnsWithin_succ fun n m held hn hm => ?_
  rw [toJson, tagged_kind_value rfl, map_written_iff fun _ _ => MemberType.union.inj, numbers]
  exact list_eq_ok_iff h hn hm

/-- A signature is read back just if its parameters and its result are. -/
theorem signatureDecoder_written_iff {type : Decoder MemberType} {n : Nat} {held : Bool}
    {v w : Json} {ps : List MemberType} {t : MemberType} :
    signatureDecoder type ⟨n + 1, held⟩ (.record [("params", v), ("returnType", w)]) =
        .ok (.function ps t) ↔
      type.list ⟨n, held⟩ v = .ok ps ∧ type ⟨n, held⟩ w = .ok t := by
  rw [signatureDecoder, Decoder.map, record_written [v, w]]
  · simp only [readInOrder, Field.need, Decoder.map]
    cases type.list ⟨n, held⟩ v with
    | error e => simp [Except.map, bind, Except.bind]
    | ok qs => cases type ⟨n, held⟩ w <;> simp [Except.map, bind, Except.bind]
  · rfl
  · exact (by decide : ["params", "returnType"].Nodup)
  · rfl

/-- A function is read back within three levels more than its parameters. -/
theorem returnsWithin_function {levels : Nat} {ps : List MemberType} {t : MemberType}
    (hps : ∀ p ∈ ps, ReturnsWithin levels p) (ht : ReturnsWithin (levels + 1) t) :
    ReturnsWithin (levels + 3) (.function ps t) := by
  refine returnsWithin_succ fun n m held hn hm => ?_
  rw [toJson, tagged_kind_value rfl, numbers, List.forall_mem_append]
  cases m with
  | zero => omega
  | succ m =>
    rw [signatureDecoder_written_iff, list_eq_ok_iff hps (by omega) (by omega)]
    exact and_congr_right fun _ => ht n ⟨m, held⟩ (by dsimp only; omega) (by dsimp only; omega)

mutual

/-- How many arrays and objects are nested in the written form of a type. -/
def levels : MemberType → Nat
  | .keyword _ => 1
  | .literal _ => 2
  | .named _ => 1
  | .union ms => listLevels ms + 1
  | .function ps r => max (listLevels ps) (levels r) + 2

/-- How many arrays and objects are nested in the written form of a list of types. -/
def listLevels : List MemberType → Nat
  | [] => 1
  | t :: ts => max (levels t + 1) (listLevels ts)

end

/-- A list needs the level of its own array and one level more than each of its types. -/
theorem listLevels_le_iff {ts : List MemberType} {n : Nat} :
    listLevels ts ≤ n ↔ 1 ≤ n ∧ ∀ t ∈ ts, t.levels + 1 ≤ n := by
  induction ts with
  | nil => simp [listLevels]
  | cons t ts ih =>
    rw [listLevels, Nat.max_le, ih, List.forall_mem_cons]
    constructor
    · exact fun ⟨ht, hn, hts⟩ => ⟨hn, ht, hts⟩
    · exact fun ⟨hn, ht, hts⟩ => ⟨ht, hn, hts⟩

mutual

/-- A type comes back where its levels may be opened. -/
theorem returnsWithin_levels : ∀ t : MemberType, ReturnsWithin t.levels t
  | .keyword k => returnsWithin_keyword k
  | .literal l => returnsWithin_literal l
  | .named name => returnsWithin_named name
  | .union ms => by
    obtain ⟨hpos, hms⟩ := listLevels_le_iff.mp (Nat.le_refl (listLevels ms))
    have hunion : ReturnsWithin (listLevels ms - 1 + 2) (.union ms) :=
      returnsWithin_union fun t ht => (returnsWithin_mem_levels ms t ht).mono (by
        have := hms t ht
        omega)
    exact hunion.mono (by rw [levels]; omega)
  | .function ps r => by
    have hr := returnsWithin_levels r
    obtain ⟨hpos, hps⟩ := listLevels_le_iff.mp (Nat.le_max_left (listLevels ps) r.levels)
    have hfunction :
        ReturnsWithin (max (listLevels ps) r.levels - 1 + 3) (.function ps r) := by
      refine returnsWithin_function (fun p hp => ?_) (hr.mono (by omega))
      have hlevels := hps p hp
      exact (returnsWithin_mem_levels ps p hp).mono (by omega)
    exact hfunction.mono (by rw [levels]; omega)

/-- The members of a list are read back within their own levels. -/
theorem returnsWithin_mem_levels : ∀ ts : List MemberType, ∀ t ∈ ts, ReturnsWithin t.levels t
  | [] => fun _ ht => absurd ht List.not_mem_nil
  | t :: ts => List.forall_mem_cons.mpr ⟨returnsWithin_levels t, returnsWithin_mem_levels ts⟩

end

/-- Parameters and result of a function were both read, one level further in. -/
theorem exists_of_signatureDecoder {type : Decoder MemberType} {r : Reading} {v : Json}
    {t : MemberType} (h : signatureDecoder type r v = .ok t) :
    ∃ inner : Reading, inner.levels + 1 = r.levels ∧ ∃ ps result, t = .function ps result ∧
      (∃ w, type.list inner w = .ok ps) ∧ ∃ w, type inner w = .ok result := by
  obtain ⟨⟨ps, result⟩, hrecord, rfl⟩ := map_eq_ok.mp h
  obtain ⟨inner, hinner, seen, hfilled, hrequired⟩ := exists_of_record hrecord
  have hps := hfilled.part "params" type.list Prod.fst (by
    intro f hf
    simp only [List.mem_cons, List.not_mem_nil, or_false] at hf
    rcases hf with rfl | rfl
    · exact .inl (sets_map fun _ _ => rfl)
    · exact .inr ⟨by simp [Field.need], keeps_map fun _ _ => rfl⟩)
  have hresult := hfilled.part "returnType" type Prod.snd (by
    intro f hf
    simp only [List.mem_cons, List.not_mem_nil, or_false] at hf
    rcases hf with rfl | rfl
    · exact .inr ⟨by simp [Field.need], keeps_map fun _ _ => rfl⟩
    · exact .inl (sets_map fun _ _ => rfl))
  have hparams := hrequired _ List.mem_cons_self rfl
  have hreturnType := hrequired _ (List.mem_cons_of_mem _ List.mem_cons_self) rfl
  exact ⟨inner, hinner, ps, result, rfl, hps.resolve_right fun h => h.1 hparams,
    hresult.resolve_right fun h => h.1 hreturnType⟩

/-- A type that was read is not nested deeper than the levels under which it was read. -/
theorem levels_le_of_nestedDecoder {n : Nat} {r : Reading} {v : Json} {t : MemberType}
    (h : nestedDecoder n r v = .ok t) : t.levels ≤ r.levels := by
  induction n generalizing r v t with
  | zero => cases h
  | succ n ih =>
    obtain ⟨inner, hinner, word, variant, w, hmem, hread⟩ := exists_of_tagged h
    rcases List.mem_append.mp hmem with hkeyword | hvalue
    · obtain ⟨k, _, heq⟩ := List.mem_map.mp hkeyword
      cases heq
      have ht : MemberType.keyword k = t := by
        cases w with
        | null =>
          cases hread
          rfl
        | bool | number | string | array | object => cases hread
      rw [← ht, levels]
      omega
    · simp only [List.mem_cons, List.not_mem_nil, or_false, Prod.mk.injEq] at hvalue
      rcases hvalue with ⟨_, rfl⟩ | ⟨_, rfl⟩ | ⟨_, rfl⟩ | ⟨_, rfl⟩
      · obtain ⟨l, hl, rfl⟩ := map_eq_ok.mp hread
        obtain ⟨deeper, hdeeper, _⟩ := exists_of_tagged hl
        rw [levels]
        omega
      · obtain ⟨name, _, rfl⟩ := map_eq_ok.mp hread
        rw [levels]
        omega
      · obtain ⟨ms, hms, rfl⟩ := map_eq_ok.mp hread
        obtain ⟨deeper, hdeeper, hitems⟩ := exists_of_list hms
        have hlist : listLevels ms ≤ deeper.levels + 1 := by
          refine listLevels_le_iff.mpr ⟨by omega, fun t ht => ?_⟩
          obtain ⟨x, hx⟩ := hitems t ht
          have := ih hx
          omega
        rw [levels]
        omega
      · obtain ⟨deeper, hdeeper, ps, result, rfl, ⟨x, hx⟩, ⟨y, hy⟩⟩ :=
          exists_of_signatureDecoder hread
        obtain ⟨deepest, hdeepest, hitems⟩ := exists_of_list hx
        have hlist : listLevels ps ≤ deepest.levels + 1 := by
          refine listLevels_le_iff.mpr ⟨by omega, fun t ht => ?_⟩
          obtain ⟨z, hz⟩ := hitems t ht
          have := ih hz
          omega
        have hresult := ih hy
        rw [levels]
        omega

/-- The levels under which a type was read are enough for its written form. -/
theorem returnsWithin_of_nestedDecoder {n : Nat} {r : Reading} {v : Json} {t : MemberType}
    (h : nestedDecoder n r v = .ok t) : ReturnsWithin r.levels t :=
  (returnsWithin_levels t).mono (levels_le_of_nestedDecoder h)

/-- A type comes back exactly if its levels may be opened and each of its numbers does. -/
theorem decoder_toJson_iff {r : Reading} {t : MemberType} :
    decoder r t.toJson = .ok t ↔ t.levels ≤ r.levels ∧ ∀ x ∈ t.numbers, x.ReadsBack := by
  constructor
  · intro h
    have hlevels := levels_le_of_nestedDecoder h
    exact ⟨hlevels, ((returnsWithin_levels t).returns r hlevels).mp h⟩
  · rintro ⟨hlevels, hnumbers⟩
    exact ((returnsWithin_levels t).returns r hlevels).mpr hnumbers

end MemberType

end ClassContract
