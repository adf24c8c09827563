import ClassContract.Logging
import Mathlib.Data.List.TakeWhile

/-!
# Precedence of logging settings

Logging settings come from the environment and from sections that follow it. The filter is the first
value among all of them that is not blank, `filter_fillAll`. The format is the first value that is
not blank only as far as the environment goes: a section that gives a blank format settles it, and
later sections are not heard. So the format is the one of the first value that is not blank, unless
such a section stands in front of a value that means another format than plain text:
`fillAll_ofEnvironment_iff`.
-/

namespace ClassContract

namespace Logging

/-- The first value that is given and is not blank. -/
def firstNonBlank (values : List (Option String)) : Option String :=
  (values.filterMap id).find? (!isBlankText ·)

/-- The format of a value; plain text where there is none. -/
def formatOf (value : Option String) : LogFormat := (value.map LogFormat.ofWord).getD .text

/-- The values that may decide the filter, the strongest first. -/
def filterSources (lookup : String → Option String) (sections : List (Option LogSection)) :
    List (Option String) :=
  lookup "CONTRA_LOG" :: lookup "RUST_LOG" :: sections.map (·.bind (·.filter))

/-- The values that may decide the format, the strongest first. -/
def formatSources (lookup : String → Option String) (sections : List (Option LogSection)) :
    List (Option String) :=
  lookup "CONTRA_LOG_FORMAT" :: sections.map (·.bind (·.format))

theorem formatOf_some (v : String) : formatOf (some v) = LogFormat.ofWord v := by
  rw [formatOf, Option.map_some, Option.getD_some]

/-- The first value that is not blank is the first one, or else that of the rest. -/
theorem firstNonBlank_cons (value : Option String) (values : List (Option String)) :
    firstNonBlank (value :: values) =
      (value.filter (!isBlankText ·)).or (firstNonBlank values) := by
  cases value with
  | none => rfl
  | some v => cases hv : isBlankText v <;> simp [firstNonBlank, Option.filter, hv]

/-- Nothing is left of blanks. -/
theorem trimBlanks_of_all {cs : List Char} (h : cs.all isBlank = true) : trimBlanks cs = [] := by
  have hdrop : cs.dropWhile isBlank = [] := List.dropWhile_eq_nil_iff.mpr (List.all_eq_true.mp h)
  rw [trimBlanks, hdrop]
  rfl

/-- A blank word means plain text. -/
theorem ofWord_of_isBlankText {s : String} (h : isBlankText s = true) :
    LogFormat.ofWord s = .text := by
  have hword : settingWord s = "" := by rw [settingWord, trimBlanks_of_all h]; rfl
  rw [LogFormat.ofWord, hword]
  rfl

theorem fillAll_cons (l : Logging) (s : Option LogSection) (sections : List (Option LogSection)) :
    l.fillAll (s :: sections) = (l.fill? s).fillAll sections := rfl

/-- A section gives the filter if none is given and its own is not blank. -/
theorem filter_fill? (l : Logging) (s : Option LogSection) :
    (l.fill? s).filter = l.filter.or ((s.bind (·.filter)).filter (!isBlankText ·)) := by
  cases s with
  | none => exact (Option.or_none).symm
  | some s => rfl

/-- The filter stays, or it becomes the first value of the sections that is not blank. -/
theorem filter_fillAll (l : Logging) (sections : List (Option LogSection)) :
    (l.fillAll sections).filter =
      l.filter.or (firstNonBlank (sections.map (·.bind (·.filter)))) := by
  induction sections generalizing l with
  | nil => exact (Option.or_none).symm
  | cons s sections ih =>
    rw [fillAll_cons, ih, filter_fill?, List.map_cons, firstNonBlank_cons, Option.or_assoc]

/-- A format that was chosen stays. -/
theorem format_fillAll_of_chosen {l : Logging} (h : l.formatChosen = true)
    (sections : List (Option LogSection)) : (l.fillAll sections).format = l.format := by
  induction sections generalizing l with
  | nil => rfl
  | cons s sections ih =>
    cases s with
    | none => exact ih h
    | some s =>
      have hchosen : (l.fill s).formatChosen = true := by simp [fill, h]
      have hformat : (l.fill s).format = l.format := by simp [fill, h]
      rw [fillAll_cons, fill?, ih hchosen, hformat]

/-- The formats that sections give, blank ones too. -/
def givenFormats (sections : List (Option LogSection)) : List String :=
  sections.filterMap (·.bind (·.format))

/-- A format that was not chosen becomes the first one that a section gives, blank or not. -/
theorem format_fillAll_of_open {l : Logging} (h : l.formatChosen = false) (ht : l.format = .text)
    (sections : List (Option LogSection)) :
    (l.fillAll sections).format = formatOf (givenFormats sections).head? := by
  induction sections generalizing l with
  | nil => exact ht
  | cons s sections ih =>
    rw [fillAll_cons, givenFormats, List.filterMap_cons]
    cases hs : s.bind (·.format) with
    | none =>
      have hopen : (l.fill? s).formatChosen = false ∧ (l.fill? s).format = .text := by
        cases s with
        | none => exact ⟨h, ht⟩
        | some s =>
          have hs : s.format = none := hs
          simp [fill?, fill, h, ht, hs]
      exact ih hopen.1 hopen.2
    | some v =>
      obtain ⟨s, rfl, hv⟩ := Option.bind_eq_some_iff.mp hs
      have hchosen : (l.fill s).formatChosen = true := by simp [fill, hv]
      have hformat : (l.fill s).format = LogFormat.ofWord v := by simp [fill, h, hv]
      rw [fill?, format_fillAll_of_chosen hchosen, hformat, List.head?_cons, formatOf_some]

/-- A blank format of a section hides a later one: the environment leaves the format open, the first
format that a section gives is blank, and the first one that is not blank means another format than
plain text. -/
structure BlankHides (lookup : String → Option String) (sections : List (Option LogSection)) :
    Prop where
  /-- The environment gives no format. -/
  unset : nonBlank lookup "CONTRA_LOG_FORMAT" = none
  /-- The first format that a section gives is blank. -/
  blank : (givenFormats sections).head?.any isBlankText = true
  /-- The first one that is not blank makes a difference. -/
  hidden : formatOf ((givenFormats sections).find? (!isBlankText ·)) ≠ .text

instance (lookup : String → Option String) (sections : List (Option LogSection)) :
    Decidable (BlankHides lookup sections) :=
  decidable_of_iff (_ ∧ _ ∧ _)
    ⟨fun ⟨hu, hb, hh⟩ => ⟨hu, hb, hh⟩, fun h => ⟨h.unset, h.blank, h.hidden⟩⟩

/-- The first format that is not blank is found among those that are given. -/
theorem firstNonBlank_map_format (sections : List (Option LogSection)) :
    firstNonBlank (sections.map (·.bind (·.format))) =
      (givenFormats sections).find? (!isBlankText ·) := by
  rw [firstNonBlank, List.filterMap_map]
  rfl

/-- The first format and the first one that is not blank agree, unless the first is blank and the
other means more than plain text. -/
theorem formatOf_head?_eq_iff (given : List String) :
    formatOf given.head? = formatOf (given.find? (!isBlankText ·)) ↔
      ¬(given.head?.any isBlankText = true ∧ formatOf (given.find? (!isBlankText ·)) ≠ .text) := by
  cases given with
  | nil => simp
  | cons v given =>
    cases hv : isBlankText v with
    | true =>
      have htext : formatOf (some v) = .text := by rw [formatOf_some, ofWord_of_isBlankText hv]
      simp [hv, htext, eq_comm]
    | false => simp [hv]

/-- The filter is always the first value that is not blank, of the environment and then of the
sections. The format is the one of the first value that is not blank exactly where no blank format
of a section hides a later one. -/
theorem fillAll_ofEnvironment_iff (lookup : String → Option String)
    (sections : List (Option LogSection)) :
    ((ofEnvironment lookup).fillAll sections).filter =
        firstNonBlank (filterSources lookup sections)
      ∧ (((ofEnvironment lookup).fillAll sections).format =
          formatOf (firstNonBlank (formatSources lookup sections))
        ↔ ¬BlankHides lookup sections) := by
  constructor
  · rw [filter_fillAll, filterSources, firstNonBlank_cons, firstNonBlank_cons, ← Option.or_assoc,
      ← nonBlank, ← nonBlank, ofEnvironment]
  · rw [formatSources, firstNonBlank_cons, firstNonBlank_map_format, ← nonBlank]
    cases hunset : nonBlank lookup "CONTRA_LOG_FORMAT" with
    | some v =>
      have hchosen : (ofEnvironment lookup).formatChosen = true := by simp [ofEnvironment, hunset]
      have hformat : (ofEnvironment lookup).format = formatOf (some v) := by
        simp [ofEnvironment, formatOf_some, hunset]
      refine iff_of_true ?_ fun h => ?_
      · rw [format_fillAll_of_chosen hchosen, hformat, Option.some_or]
      · rw [h.unset] at hunset
        cases hunset
    | none =>
      have hopen : (ofEnvironment lookup).formatChosen = false := by simp [ofEnvironment, hunset]
      have htext : (ofEnvironment lookup).format = .text := by simp [ofEnvironment, hunset]
      rw [format_fillAll_of_open hopen htext, Option.none_or, formatOf_head?_eq_iff]
      exact not_congr ⟨fun h => ⟨hunset, h.1, h.2⟩, fun h => ⟨h.blank, h.hidden⟩⟩

/-- In an empty environment, a section with a blank format hides the format of the next one. -/
theorem blank_format_hides_json :
    ((ofEnvironment fun _ => none).fillAll
        [some ⟨none, some "  "⟩, some ⟨none, some "json"⟩]).format = .text
      ∧ formatOf (firstNonBlank (formatSources (fun _ => none)
          [some ⟨none, some "  "⟩, some ⟨none, some "json"⟩])) = .json := by
  decide

end Logging

end ClassContract
