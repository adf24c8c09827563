import ClassContract.Json.Token
import ClassContract.Proofs.Numerals

/-!
# Tokens are found again in their text

`Spells` says which texts write a token; a string can be written in several ways. A spelling takes
the lexer through a fixed part of its modes, whatever follows, except that words need a character
after them that ends words. A sequence of tokens is called legible when the text that `Token.chars`
gives it is cut into the same tokens in front of every such character. Marks may stand anywhere, and
`Legible.mark` and `Legible.append_mark` build up sequences from them.

For strings there is a second way back: `decodePieces_encodePieces` gives the characters from the
pieces.
-/

namespace ClassContract

open Token

/-- A piece that can be written: a control character needs an escape, and a unit has 16 bits. -/
def Piece.WellFormed : Piece → Prop
  | .char c => (escapeLetter? c).isSome = true ∨ 0x20 ≤ c.toNat
  | .unit u => u < 0x10000

/-- Hexadecimal digits have their value. -/
theorem hexValue?_digitChar {d : Nat} (h : d < 16) : hexValue? (Nat.digitChar d) = some d := by
  have hall : ∀ i : Fin 16, hexValue? (Nat.digitChar i) = some i.val := by decide
  exact hall ⟨d, h⟩

/-- A short escape is read as the character that is written with it. -/
theorem shortEscape?_of_escapeLetter? {c e : Char} (h : escapeLetter? c = some e) :
    shortEscape? e = some c ∧ e ≠ 'u' := by
  unfold escapeLetter? at h
  split at h <;> cases h <;> exact ⟨rfl, by decide⟩

/-- A character that needs no escape neither ends a string nor escapes. -/
theorem ne_of_escapeLetter?_none {c : Char} (h : escapeLetter? c = none) : c ≠ '"' ∧ c ≠ '\\' := by
  constructor <;> rintro rfl <;> cases h

/-- The texts that write the given pieces between the quotes of a string. -/
inductive SpellsPieces : List Piece → List Char → Prop
  | nil : SpellsPieces [] []
  /-- A character for itself. -/
  | plain {c : Char} {ps : List Piece} {cs : List Char} (hquote : c ≠ '"') (hslash : c ≠ '\\')
      (hcontrol : 0x20 ≤ c.toNat) (h : SpellsPieces ps cs) : SpellsPieces (.char c :: ps) (c :: cs)
  /-- A character by a backslash and a letter. -/
  | short {c e : Char} {ps : List Piece} {cs : List Char} (hescape : shortEscape? e = some c)
      (h : SpellsPieces ps cs) : SpellsPieces (.char c :: ps) ('\\' :: e :: cs)
  /-- A unit by four hexadecimal digits. -/
  | unit {c₁ c₂ c₃ c₄ : Char} {d₁ d₂ d₃ d₄ : Nat} {ps : List Piece} {cs : List Char}
      (h₁ : hexValue? c₁ = some d₁) (h₂ : hexValue? c₂ = some d₂) (h₃ : hexValue? c₃ = some d₃)
      (h₄ : hexValue? c₄ = some d₄) (h : SpellsPieces ps cs) :
      SpellsPieces (.unit (16 * (16 * (16 * d₁ + d₂) + d₃) + d₄) :: ps)
        ('\\' :: 'u' :: c₁ :: c₂ :: c₃ :: c₄ :: cs)

/-- A well-formed piece is written by one of its spellings. -/
theorem SpellsPieces.cons {p : Piece} (hp : p.WellFormed) {ps : List Piece} {cs : List Char}
    (h : SpellsPieces ps cs) : SpellsPieces (p :: ps) (p.chars ++ cs) := by
  cases p with
  | char c =>
    cases hescape : escapeLetter? c with
    | some e =>
      simp only [Piece.chars, hescape, List.cons_append, List.nil_append]
      exact .short (shortEscape?_of_escapeLetter? hescape).1 h
    | none =>
      obtain ⟨hquote, hslash⟩ := ne_of_escapeLetter?_none hescape
      have hcontrol : 0x20 ≤ c.toNat := by
        rcases hp with hp | hp
        · rw [hescape] at hp
          cases hp
        · exact hp
      simp only [Piece.chars, hescape, List.cons_append, List.nil_append]
      exact .plain hquote hslash hcontrol h
  | unit u =>
    have hu : u < 0x10000 := hp
    have hvalue : 16 * (16 * (16 * (u / 4096 % 16) + u / 256 % 16) + u / 16 % 16) + u % 16 = u := by
      omega
    have hunit := SpellsPieces.unit
      (hexValue?_digitChar (Nat.mod_lt (u / 4096) (by decide : 16 > 0)))
      (hexValue?_digitChar (Nat.mod_lt (u / 256) (by decide : 16 > 0)))
      (hexValue?_digitChar (Nat.mod_lt (u / 16) (by decide : 16 > 0)))
      (hexValue?_digitChar (Nat.mod_lt u (by decide : 16 > 0))) h
    rw [hvalue] at hunit
    exact hunit

/-- Well-formed pieces are spelled by their characters. -/
theorem spellsPieces_chars {ps : List Piece} (h : ∀ p ∈ ps, p.WellFormed) :
    SpellsPieces ps (ps.flatMap Piece.chars) := by
  induction ps with
  | nil => exact .nil
  | cons p ps ih =>
    rw [List.forall_mem_cons] at h
    exact .cons h.1 (ih h.2)

namespace Token

/-- One digit of a unit escape. -/
theorem lexFrom_hex {c : Char} {d : Nat} (h : hexValue? c = some d) (ps : List Piece)
    (value more : Nat) (rest : List Char) :
    lexFrom (.hex ps value more) (c :: rest) =
      if more = 0 then lexFrom (.text (.unit (16 * value + d) :: ps)) rest
      else lexFrom (.hex ps (16 * value + d) (more - 1)) rest := by
  rw [lexFrom, h]

/-- Inside a string, spelled pieces are read as those pieces. -/
theorem lexFrom_text_spells {qs : List Piece} {cs : List Char} (h : SpellsPieces qs cs)
    (ps : List Piece) (rest : List Char) :
    lexFrom (.text ps) (cs ++ rest) = lexFrom (.text (qs.reverse ++ ps)) rest := by
  induction h generalizing ps with
  | nil => rfl
  | @plain c qs cs hquote hslash hcontrol h ih =>
    have hnot : ¬ c.toNat < 0x20 := by omega
    rw [List.cons_append, lexFrom, if_neg hquote, if_neg hslash, if_neg hnot, ih, List.reverse_cons,
      List.append_assoc]
    rfl
  | @short c e qs cs hescape h ih =>
    have hu : e ≠ 'u' := by
      rintro rfl
      cases hescape
    rw [List.cons_append, List.cons_append, lexFrom, if_neg (by decide), if_pos rfl, lexFrom,
      if_neg hu, hescape]
    dsimp only
    rw [ih, List.reverse_cons, List.append_assoc]
    rfl
  | unit h₁ h₂ h₃ h₄ h ih =>
    dsimp only [List.cons_append]
    rw [lexFrom, if_neg (by decide), if_pos rfl, lexFrom, if_pos rfl, lexFrom_hex h₁,
      if_neg (by decide), lexFrom_hex h₂, if_neg (by decide), lexFrom_hex h₃, if_neg (by decide),
      lexFrom_hex h₄, if_pos rfl, ih, List.reverse_cons, List.append_assoc, Nat.mul_zero,
      Nat.zero_add]
    rfl

/-- No digit ends a word. -/
theorem endsWord_of_isDigit {c : Char} (h : c.isDigit = true) : endsWord c = false := by
  have hne : ∀ d : Char, d.isDigit = false → c ≠ d := by
    rintro d hd rfl
    rw [h] at hd
    cases hd
  have hspace : isSpace c = false := by
    simp [isSpace, hne ' ' rfl, hne '\t' rfl, hne '\r' rfl, hne '\n' rfl]
  have hmark : punctuation? c = none := by
    unfold punctuation?
    split
    all_goals first | rfl | exact absurd rfl (hne _ rfl)
  simp [endsWord, hspace, hmark, hne '"' rfl]

/-- A text that nothing breaks has no character that ends a word. -/
theorem endsWord_of_any {cs : List Char} (h : cs.any endsWord = false) :
    ∀ c ∈ cs, endsWord c = false := by
  intro c hc
  simpa using List.any_eq_false.mp h c hc

/-- No character of an exponent ends a word. -/
theorem endsWord_of_mem_exponentChars (e : Int) :
    ∀ c ∈ Numeral.exponentChars e, endsWord c = false := by
  have hsign : endsWord (if e < 0 then '-' else '+') = false := by split <;> rfl
  have hdigits : ∀ c ∈ Nat.toDigits 10 e.natAbs, endsWord c = false :=
    fun c hc => endsWord_of_isDigit (allDigits_toDigits _ c hc)
  exact List.forall_mem_cons.mpr ⟨rfl, List.forall_mem_cons.mpr ⟨hsign, hdigits⟩⟩

/-- No character of a numeral ends a word. -/
theorem endsWord_of_mem_numeral {n : Numeral} (h : n.WellFormed) :
    ∀ c ∈ n.chars, endsWord c = false := by
  have hsign : ∀ c ∈ (if n.negative then ['-'] else []), endsWord c = false := by
    cases n.negative <;> exact endsWord_of_any rfl
  have hwhole : ∀ c ∈ n.whole, endsWord c = false := fun c hc => endsWord_of_isDigit (h.whole c hc)
  have hfraction : ∀ c ∈ (if n.fraction.isEmpty then [] else '.' :: n.fraction),
      endsWord c = false := by
    split
    · exact endsWord_of_any rfl
    · exact List.forall_mem_cons.mpr ⟨rfl, fun c hc => endsWord_of_isDigit (h.fraction c hc)⟩
  have hexponent : ∀ c ∈ (n.exponent.map Numeral.exponentChars).getD [], endsWord c = false := by
    cases n.exponent with
    | none => exact endsWord_of_any rfl
    | some e => exact endsWord_of_mem_exponentChars e
  rw [Numeral.chars, List.forall_mem_append, List.forall_mem_append, List.forall_mem_append]
  exact ⟨⟨⟨hsign, hwhole⟩, hfraction⟩, hexponent⟩

/-- A character that does not end a word begins one. -/
theorem start_of_endsWord {c : Char} (h : endsWord c = false) : start c = ([], .word [c]) := by
  simp only [endsWord, Bool.or_eq_false_iff, beq_eq_false_iff_ne, Option.isSome_eq_false_iff,
    Option.isNone_iff_eq_none] at h
  rw [start, h.1.1, if_neg Bool.false_ne_true, if_neg h.1.2, h.2]

/-- A text that does not go on with a word. -/
def Breaks (rest : List Char) : Prop := ∀ c, rest.head? = some c → endsWord c = true

/-- A word ends where the text breaks. -/
theorem lexFrom_word_breaks (w : List Char) {rest : List Char} (h : Breaks rest) :
    lexFrom (.word w) rest = ofWord w.reverse :: lexFrom .between rest := by
  cases rest with
  | nil => rfl
  | cons c rest => exact if_pos (h c rfl)

/-- A word goes on to where the text breaks. -/
theorem lexFrom_word (w : List Char) {cs rest : List Char} (hcs : ∀ c ∈ cs, endsWord c = false)
    (hr : Breaks rest) :
    lexFrom (.word w) (cs ++ rest) = ofWord (w.reverse ++ cs) :: lexFrom .between rest := by
  induction cs generalizing w with
  | nil => rw [List.nil_append, lexFrom_word_breaks w hr, List.append_nil]
  | cons c cs ih =>
    have hc : ¬ endsWord c = true := by simp [hcs c List.mem_cons_self]
    rw [List.cons_append, lexFrom, if_neg hc, ih _ fun d hd => hcs d (List.mem_cons_of_mem _ hd),
      List.reverse_cons, List.append_assoc]
    rfl

/-- A run of characters that end no word is one token. -/
theorem lexFrom_between_word {cs rest : List Char} (hne : cs ≠ [])
    (hcs : ∀ c ∈ cs, endsWord c = false) (hr : Breaks rest) :
    lexFrom .between (cs ++ rest) = ofWord cs :: lexFrom .between rest := by
  cases cs with
  | nil => exact absurd rfl hne
  | cons c cs =>
    rw [List.cons_append, lexFrom, start_of_endsWord (hcs c List.mem_cons_self), List.nil_append,
      lexFrom_word [c] (fun d hd => hcs d (List.mem_cons_of_mem _ hd)) hr]
    rfl

/-- A token that can be written. -/
def WellFormed : Token → Prop
  | .number n => n.WellFormed
  | .string ps => ∀ p ∈ ps, p.WellFormed
  | .invalid => False
  | _ => True

/-- Tokens that are words. All others are marks: they end a word before them and need nothing after
them. -/
def isWord : Token → Bool
  | .null => true
  | .bool _ => true
  | .number _ => true
  | _ => false

/-- The characters of a numeral are its word. -/
theorem ofWord_numeral {n : Numeral} (h : n.WellFormed) : ofWord n.chars = .number n := by
  have hread := Numeral.ofChars?_chars h
  have hne : ∀ cs, Numeral.ofChars? cs = none → n.chars ≠ cs := by
    rintro cs hcs rfl
    rw [hread] at hcs
    cases hcs
  rw [ofWord, if_neg (hne _ (by decide)), if_neg (hne _ (by decide)), if_neg (hne _ (by decide)),
    hread]

/-- A numeral has a character. -/
theorem chars_numeral_ne_nil {n : Numeral} (h : n.WellFormed) : n.chars ≠ [] := by
  intro hnil
  have hread := Numeral.ofChars?_chars h
  rw [hnil] at hread
  cases hread

/-- The texts that write a token. -/
inductive Spells : Token → List Char → Prop
  | mark {c : Char} {t : Token} (h : punctuation? c = some t) : Spells t [c]
  | word {cs : List Char} {t : Token} (hne : cs ≠ []) (hcs : ∀ c ∈ cs, endsWord c = false)
      (ht : ofWord cs = t) (hvalid : t ≠ .invalid) : Spells t cs
  | string {ps : List Piece} {cs : List Char} (h : SpellsPieces ps cs) :
      Spells (.string ps) ('"' :: (cs ++ ['"']))

/-- Punctuation is a token of its own. -/
theorem start_of_punctuation? {c : Char} {t : Token} (h : punctuation? c = some t) :
    start c = ([t], .between) := by
  unfold punctuation? at h
  split at h <;> cases h <;> rfl

/-- A word that is valid is a token of a word. -/
theorem isWord_of_ofWord {cs : List Char} {t : Token} (ht : ofWord cs = t) (h : t ≠ .invalid) :
    t.isWord = true := by
  unfold ofWord at ht
  repeat' split at ht
  all_goals subst ht
  all_goals first | rfl | exact absurd rfl h

/-- A spelled token is read as that token. A word must not go on after it. -/
theorem lexFrom_spells {t : Token} {cs : List Char} (h : Spells t cs) {rest : List Char}
    (hr : t.isWord = true → Breaks rest) :
    lexFrom .between (cs ++ rest) = t :: lexFrom .between rest := by
  cases h with
  | mark hmark =>
    rw [List.singleton_append, lexFrom, start_of_punctuation? hmark]
    rfl
  | word hne hcs ht hvalid =>
    rw [← ht]
    exact lexFrom_between_word hne hcs (hr (isWord_of_ofWord ht hvalid))
  | @string ps body hbody =>
    have hstart : start '"' = ([], .text []) := rfl
    rw [List.cons_append, lexFrom, hstart, List.append_assoc, lexFrom_text_spells hbody,
      List.nil_append, List.append_nil, List.singleton_append, lexFrom, if_pos rfl,
      List.reverse_reverse]

/-- A well-formed token is written by one of its spellings. -/
theorem spells_chars {t : Token} (h : t.WellFormed) : Spells t t.chars := by
  cases t with
  | null => exact .word (List.cons_ne_nil _ _) (endsWord_of_any rfl) rfl (by simp)
  | bool b =>
    cases b with
    | true => exact .word (List.cons_ne_nil _ _) (endsWord_of_any rfl) rfl (by simp)
    | false => exact .word (List.cons_ne_nil _ _) (endsWord_of_any rfl) rfl (by simp)
  | number n =>
    exact .word (chars_numeral_ne_nil h) (endsWord_of_mem_numeral h) (ofWord_numeral h) (by simp)
  | string ps => exact .string (spellsPieces_chars h)
  | openObject | closeObject | openArray | closeArray | colon | comma => exact .mark rfl
  | invalid => exact h.elim

/-- Tokens that are no words end a word before them. -/
theorem breaks_spells {t : Token} {cs : List Char} (h : Spells t cs) (hw : t.isWord = false)
    (rest : List Char) : Breaks (cs ++ rest) := by
  intro c hc
  cases h with
  | mark hmark =>
    cases hc
    rw [endsWord, hmark, Option.isSome_some, Bool.or_true]
  | word hne hcs ht hvalid =>
    rw [isWord_of_ofWord ht hvalid] at hw
    cases hw
  | string =>
    cases hc
    rfl

/-- The end of the text breaks a word. -/
theorem breaks_nil : Breaks [] := by
  intro c hc
  cases hc

/-- A sequence of tokens that is found again in its text. -/
def Legible (ts : List Token) : Prop :=
  ∀ rest, Breaks rest → lex (ts.flatMap chars ++ rest) = ts ++ lex rest

/-- No tokens are legible. -/
theorem legible_nil : Legible [] := fun _ _ => rfl

/-- A well-formed token is legible. -/
theorem legible_singleton {t : Token} (h : t.WellFormed) : Legible [t] := by
  intro rest hr
  rw [List.flatMap_singleton]
  exact lexFrom_spells (spells_chars h) fun _ => hr

/-- A mark may stand in front of legible tokens. -/
theorem Legible.mark (t : Token) (h : t.WellFormed) (hw : t.isWord = false) {ts : List Token}
    (hts : Legible ts) : Legible (t :: ts) := by
  intro rest hr
  rw [List.flatMap_cons, List.append_assoc, List.cons_append, ← hts rest hr]
  exact lexFrom_spells (spells_chars h) (by simp [hw])

/-- A mark separates what stands on either side of it. -/
theorem Legible.append_mark (t : Token) (h : t.WellFormed) (hw : t.isWord = false)
    {ts us : List Token} (hts : Legible ts) (hus : Legible us) : Legible (ts ++ t :: us) := by
  intro rest hr
  have hrest := Legible.mark t h hw hus rest hr
  rw [List.flatMap_append, List.append_assoc, List.append_assoc, ← hrest]
  apply hts
  rw [List.flatMap_cons, List.append_assoc]
  exact breaks_spells (spells_chars h) hw _

/-- Legible tokens are read from their characters. -/
theorem Legible.lex_eq {ts : List Token} (h : Legible ts) : lex (ts.flatMap chars) = ts := by
  have hlex := h [] breaks_nil
  rw [List.append_nil] at hlex
  exact hlex.trans (List.append_nil ts)

end Token

/-- The piece of a character is well formed. -/
theorem Piece.wellFormed_ofChar (c : Char) : (Piece.ofChar c).WellFormed := by
  unfold Piece.ofChar
  split
  · next h =>
    have hlow : c.toNat < 0x20 := by simpa using (Bool.and_eq_true_iff.mp h).1
    show c.toNat < 0x10000
    omega
  · next h =>
    cases hescape : escapeLetter? c with
    | some e => exact .inl (by rw [hescape]; rfl)
    | none =>
      rw [hescape] at h
      right
      simpa using h

/-- The pieces of a text are well formed. -/
theorem wellFormed_encodePieces (s : String) : ∀ p ∈ encodePieces s, p.WellFormed := by
  intro p hp
  obtain ⟨c, _, rfl⟩ := List.mem_map.mp hp
  exact Piece.wellFormed_ofChar c

/-- A unit that is no surrogate stands for a character by itself. -/
theorem decodePieces_unit {u : Nat} (h : u < 0xD800) (ps : List Piece) :
    decodePieces (.unit u :: ps) = (decodePieces ps).map (Char.ofNat u :: ·) := by
  have hhigh : isHighSurrogate u = false := by simp [isHighSurrogate]; omega
  have hlow : isLowSurrogate u = false := by simp [isLowSurrogate]; omega
  cases ps with
  | nil => simp [decodePieces, hhigh, hlow]
  | cons p ps => cases p <;> simp [decodePieces, hhigh, hlow]

/-- The piece of a character is decoded to it. -/
theorem decodePieces_ofChar (c : Char) (ps : List Piece) :
    decodePieces (Piece.ofChar c :: ps) = (decodePieces ps).map (c :: ·) := by
  unfold Piece.ofChar
  split
  · next h =>
    have hlow : c.toNat < 0x20 := by simpa using (Bool.and_eq_true_iff.mp h).1
    rw [decodePieces_unit (by omega), Char.ofNat_toNat]
  · rfl

/-- The pieces of a string stand for its characters. -/
theorem decodePieces_encodePieces (s : String) : decodePieces (encodePieces s) = some s.toList := by
  unfold encodePieces
  induction s.toList with
  | nil => rfl
  | cons c cs ih => rw [List.map_cons, decodePieces_ofChar, ih, Option.map_some]

end ClassContract
