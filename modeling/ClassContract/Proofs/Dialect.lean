import ClassContract.Config.Basic
import ClassContract.Proofs.Comments

/-!
# The dialect of configurations

A configuration is JSON with comments and with a comma allowed after the last item of an array or
object. `InDialect` says so in terms of tokens and what stands between them. Every text of the
dialect is read like the plain JSON it decorates, `Config.ofText_decorated`.

Not every text that is read belongs to the dialect. `Tidy` lists what a text has to keep to: block
comments are closed, comments stand between tokens and not inside words, and no comma stands in
brackets without items. `Config.inDialect_iff_tidy` says that among the texts that are read these
are exactly the ones of the dialect, and `untidy_texts_accepted` has a text against each point.
-/

namespace ClassContract

open Token

/-- JSON with comments: white space and comments stand between the tokens, and these are the tokens
of a value with at most one comma added after the last item of each array and object. -/
def InDialect (cs : List Char) : Prop := ∃ v us, TrailingCommas (Json.tokens v) us ∧ Layout us cs

/-- Additional commas do not bring words together. -/
theorem TrailingCommas.wordsApart {v : Json} {us : List Token} (h : TrailingCommas v.tokens us) :
    WordsApart us := by
  refine (h.isChain v.phrase_tokens.chain).imp fun t u hneighbours hwords => ?_
  rcases hneighbours with hfollow | ⟨rfl, _⟩
  · have hword := hwords.2
    rw [isWord_of_mayFollow hfollow hwords.1] at hword
    cases hword
  · cases hwords.1

/-- A text of the dialect is read as the value whose tokens it has. -/
theorem ofChars_plainJson {v : Json} {us : List Token} {cs : List Char}
    (hcommas : TrailingCommas v.tokens us) (h : Layout us cs) :
    Document.ofChars (plainJson cs) = ⟨some v, true⟩ := by
  have hlexes : Lexes us (removeComments .outside cs) := by
    rw [removeComments_eq_kept]
    exact h.lexes hcommas.wordsApart
  have hplain := (lexes_removeTrailingCommas hlexes).1
  rw [hcommas.dropCommas_eq v.phrase_tokens.chain] at hplain
  rw [Document.ofChars, plainJson, hplain.lex_eq, Document.ofTokens_tokens]

/-- A complete document is a value whose tokens are the text. -/
theorem exists_lexes_of_complete {cs : List Char} (h : (Document.ofChars cs).complete = true) :
    ∃ v : Json, Lexes v.tokens cs := by
  obtain ⟨v, hv⟩ := Document.exists_of_complete h
  exact ⟨v, lexes_iff.mpr ⟨Document.ofTokens_eq_iff.mp hv, v.phrase_tokens.invalid_notMem⟩⟩

/-- The text `{"log":{"format":"/*,]"}}`. -/
def plainLog : String := "\x7b\"log\":\x7b\"format\":\"/*,]\"\x7d\x7d"

/-- The same text with comments and commas: one comment stands between a comma and its bracket, one
holds a quote and a bracket, and one ends with the text. -/
def decoratedLog : String :=
  "// \"\n\x7b \"log\":/* \x7b\n*/\x7b\"format\":\"/*,]\",/**/\x7d,\x7d//"

/-- White space, comments and commas after last items change nothing: a valid JSON text and every
text of the dialect with the same tokens are read alike. -/
theorem Config.ofText_decorated {original decorated : String} {us : List Token}
    (hvalid : (Document.ofString original).complete = true)
    (hcommas : TrailingCommas (lex original.toList) us) (hlayout : Layout us decorated.toList) :
    Config.ofText decorated = Config.ofText original := by
  obtain ⟨v, hlexes⟩ := exists_lexes_of_complete hvalid
  rw [hlexes.lex_eq] at hcommas
  have hdecorated := ofChars_plainJson hcommas hlayout
  have hplain := ofChars_plainJson (.refl _) hlexes.layout
  rw [ofText, ofText, readDocument, readDocument, hdecorated, hplain]

/-- The decorated configuration is read like the plain one. -/
theorem Config.ofText_decoratedLog :
    Config.ofText decoratedLog = Config.ofText plainLog ∧
      Config.ofText plainLog = .ok ⟨none, some ⟨none, some "/*,]"⟩⟩ := by
  have hlayout : Layout (lex (removeComments .outside decoratedLog.toList)) decoratedLog.toList :=
    layout_of_outline (by decide) (by decide) (by decide)
  have hcommas : TrailingCommas (lex plainLog.toList)
      (lex (removeComments .outside decoratedLog.toList)) :=
    trailingCommas_of_dropCommas (by decide) (by decide) (by decide) (by decide)
  exact ⟨Config.ofText_decorated rfl hcommas hlayout, rfl⟩

/-- What a text with comments has to keep to. -/
structure Tidy (cs : List Char) : Prop where
  /-- Every block comment is closed. -/
  closed : .unclosed ∉ outline .outside cs
  /-- No comment stands inside a word. -/
  unsplit : Unsplit (outline .outside cs)
  /-- No comma comes right after an opening bracket. -/
  filled : (lex (removeComments .outside cs)).IsChain fun t u => t.opens = true → u ≠ .comma

/-- Among the texts that are JSON without their comments and commas, those of the dialect are the
tidy ones. -/
theorem inDialect_iff_of_complete {cs : List Char}
    (h : (Document.ofChars (plainJson cs)).complete = true) : InDialect cs ↔ Tidy cs := by
  constructor
  · rintro ⟨v, us, hcommas, hlayout⟩
    have hwords := hcommas.wordsApart
    have hlexes := hlayout.lexes hwords
    refine ⟨hlayout.unclosed_notMem, hlayout.unsplit hwords, ?_⟩
    rw [removeComments_eq_kept, hlexes.lex_eq]
    refine (hcommas.isChain v.phrase_tokens.chain).imp fun t u hneighbours hopens => ?_
    rcases hneighbours with hfollow | ⟨rfl, _⟩
    · exact ne_comma_of_mayFollow hfollow hopens
    · cases hopens
  · intro htidy
    obtain ⟨v, hplain⟩ := exists_lexes_of_complete h
    obtain ⟨us, hlexes, hdrop⟩ := exists_lexes_of_removeTrailingCommas hplain
    have hus : lex (removeComments .outside cs) = us := hlexes.lex_eq
    have hlayout := layout_of_outline (hus ▸ hlexes.invalid_notMem) htidy.closed htidy.unsplit
    have hfilled := htidy.filled
    rw [hus] at hlayout hfilled
    refine ⟨v, us, trailingCommas_of_dropCommas hdrop v.phrase_tokens.chain ?_ hfilled, hlayout⟩
    intro hdropped
    obtain ⟨t, rest, hbegin, hbegins⟩ := v.phrase_tokens.begins
    obtain ⟨close, tail, _, hclose, hfirst⟩ := exists_of_first_dropped hdropped
    rw [hdrop, hbegin] at hfirst
    cases hfirst
    rw [beginsValue_of_closes hclose] at hbegins
    cases hbegins

/-- Among the texts that are read as configurations, those of the dialect are the tidy ones. -/
theorem Config.inDialect_iff_tidy {s : String} {c : Config} (h : Config.ofText s = .ok c) :
    InDialect s.toList ↔ Tidy s.toList := by
  obtain ⟨v, hv, _⟩ := exists_complete_of_readDocument h
  exact inDialect_iff_of_complete (by rw [hv])

/-- The decorated configuration is in the dialect. -/
theorem Config.decoratedLog_inDialect :
    Config.ofText decoratedLog = .ok ⟨none, some ⟨none, some "/*,]"⟩⟩ ∧
      InDialect decoratedLog.toList := by
  have hread : Config.ofText decoratedLog = .ok ⟨none, some ⟨none, some "/*,]"⟩⟩ := by rfl
  exact ⟨hread, (Config.inDialect_iff_tidy hread).mpr ⟨by decide, by decide, by decide⟩⟩

/-- Three texts that are read and do not belong to the dialect: a block comment is left open, a
comment stands inside a word, and a comma stands in brackets without items. -/
theorem untidy_texts_accepted :
    (Config.ofText "\x7b\x7d/*" = .ok ⟨none, none⟩ ∧ ¬ InDialect "\x7b\x7d/*".toList) ∧
      (Config.ofText "\x7b\"log\":nu/**/ll\x7d" = .ok ⟨none, none⟩ ∧
        ¬ InDialect "\x7b\"log\":nu/**/ll\x7d".toList) ∧
      Config.ofText "\x7b,\x7d" = .ok ⟨none, none⟩ ∧ ¬ InDialect "\x7b,\x7d".toList := by
  refine ⟨⟨rfl, fun h => ?_⟩, ⟨rfl, fun h => ?_⟩, rfl, fun h => ?_⟩
  · exact absurd ((inDialect_iff_of_complete rfl).mp h).closed (by decide)
  · exact absurd ((inDialect_iff_of_complete rfl).mp h).unsplit (by decide)
  · exact absurd ((inDialect_iff_of_complete rfl).mp h).filled (by decide)

end ClassContract
