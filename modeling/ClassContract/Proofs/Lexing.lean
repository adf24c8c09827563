import ClassContract.Config.Commented
import ClassContract.Proofs.Tokens

/-!
# Texts without invalid tokens

`Lexes ts cs` builds up a text from spellings of the tokens `ts` and white space between them.
`lexes_iff` says that these are exactly the texts that are cut into `ts`, no token being invalid, so
that facts about valid texts can be proved by induction on how they are built up.

The last part is about scanners that follow a text with `Quoting`. A spelled token leaves such a
scanner where it was, outside strings, and what a string holds is copied whatever it is.
-/

namespace ClassContract

/-- The characters that are no digits in numerals and in `null`, `true` and `false`. -/
def wordMarks : List Char :=
  ['-', '+', '.', 'E', 'a', 'e', 'f', 'l', 'n', 'r', 's', 't', 'u']

/-- The characters that words are made of. -/
def isWordChar (c : Char) : Bool := c.isDigit || wordMarks.contains c

/-- Digits are characters of words. -/
theorem isWordChar_of_isDigit {c : Char} (h : c.isDigit = true) : isWordChar c = true := by
  rw [isWordChar, h, Bool.true_or]

/-- Words have no blanks and no slashes. -/
theorem isBlank_of_isWordChar {c : Char} (h : isWordChar c = true) :
    isBlank c = false ∧ c ≠ '/' := by
  rw [isWordChar, Bool.or_eq_true] at h
  rcases h with hdigit | hmark
  · have hrange : 48 ≤ c.toNat ∧ c.toNat ≤ 57 := Char.isDigit_iff_toNat.mp hdigit
    have hslash : c ≠ '/' := by
      rintro rfl
      cases hdigit
    refine ⟨?_, hslash⟩
    simp [isBlank, blankRanges]
    omega
  · have hall : wordMarks.all (fun d => !isBlank d && d != '/') = true := rfl
    have hc := List.all_eq_true.mp hall c (List.contains_iff_mem.mp hmark)
    simpa using hc

namespace Numeral

/-- The characters of an exponent are characters of words. -/
theorem isWordChar_of_mem_exponent {cs : List Char} {e : Int} (h : exponentOfChars? cs = some e) :
    ∀ c ∈ cs, isWordChar c = true := by
  have hdigits : ∀ {ds : List Char} {n : Int},
      (if ds.isEmpty || !ds.all Char.isDigit then none else some (digitsValue ds : Int)) = some n →
      ∀ c ∈ ds, isWordChar c = true := by
    intro ds n hread c hc
    split at hread
    · cases hread
    · next hall =>
      simp only [Bool.or_eq_true, Bool.not_eq_true', not_or, Bool.not_eq_false] at hall
      exact isWordChar_of_isDigit (List.all_eq_true.mp hall.2 c hc)
  unfold exponentOfChars? at h
  dsimp only at h
  split at h
  · obtain ⟨n, hn, _⟩ := Option.map_eq_some_iff.mp h
    exact List.forall_mem_cons.mpr ⟨rfl, hdigits hn⟩
  · exact List.forall_mem_cons.mpr ⟨rfl, hdigits h⟩
  · exact hdigits h

/-- What may follow the digits of a numeral are characters of words. -/
theorem isWordChar_of_mem_tail {n m : Numeral} {cs : List Char} (h : tailOfChars? n cs = some m) :
    ∀ c ∈ cs, isWordChar c = true := by
  cases cs with
  | nil => exact fun c hc => absurd hc List.not_mem_nil
  | cons c cs =>
    rw [tailOfChars?] at h
    split at h
    · next hmark =>
      obtain ⟨e, he, _⟩ := Option.map_eq_some_iff.mp h
      refine List.forall_mem_cons.mpr ⟨?_, isWordChar_of_mem_exponent he⟩
      rcases hmark with rfl | rfl <;> rfl
    · cases h

/-- The characters of an unsigned numeral are characters of words. -/
theorem isWordChar_of_mem_unsigned {negative : Bool} {cs : List Char} {n : Numeral}
    (h : unsignedOfChars? negative cs = some n) : ∀ c ∈ cs, isWordChar c = true := by
  have hdigits : ∀ ds : List Char, ∀ c ∈ ds.takeWhile Char.isDigit, isWordChar c = true :=
    fun ds c hc => isWordChar_of_isDigit (List.all_eq_true.mp List.all_takeWhile c hc)
  rw [← List.takeWhile_append_dropWhile (p := Char.isDigit) (l := cs)]
  refine List.forall_mem_append.mpr ⟨hdigits cs, ?_⟩
  unfold unsignedOfChars? at h
  dsimp only at h
  split at h
  · cases h
  split at h
  · next rest hrest =>
    rw [hrest]
    refine List.forall_mem_cons.mpr ⟨rfl, ?_⟩
    rw [← List.takeWhile_append_dropWhile (p := Char.isDigit) (l := rest)]
    refine List.forall_mem_append.mpr ⟨hdigits rest, ?_⟩
    split at h
    · cases h
    · exact isWordChar_of_mem_tail h
  · exact isWordChar_of_mem_tail h

/-- The characters of a numeral are characters of words. -/
theorem isWordChar_of_mem {cs : List Char} {n : Numeral} (h : ofChars? cs = some n) :
    ∀ c ∈ cs, isWordChar c = true := by
  unfold ofChars? at h
  split at h
  · exact List.forall_mem_cons.mpr ⟨rfl, isWordChar_of_mem_unsigned h⟩
  · exact isWordChar_of_mem_unsigned h

end Numeral

namespace Token

/-- A word that is a token is made of the characters of words. -/
theorem isWordChar_of_ofWord {cs : List Char} (h : ofWord cs ≠ .invalid) :
    ∀ c ∈ cs, isWordChar c = true := by
  have hall : ∀ {ds : List Char}, ds.all isWordChar = true → cs = ds →
      ∀ c ∈ cs, isWordChar c = true := by
    intro ds hds heq c hc
    exact List.all_eq_true.mp hds c (heq ▸ hc)
  by_cases hnull : cs = ['n', 'u', 'l', 'l']
  · exact hall rfl hnull
  by_cases htrue : cs = ['t', 'r', 'u', 'e']
  · exact hall rfl htrue
  by_cases hfalse : cs = ['f', 'a', 'l', 's', 'e']
  · exact hall rfl hfalse
  rw [ofWord, if_neg hnull, if_neg htrue, if_neg hfalse] at h
  cases hread : Numeral.ofChars? cs with
  | some n => exact Numeral.isWordChar_of_mem hread
  | none =>
    rw [hread] at h
    exact absurd rfl h

/-- A text that has the given tokens with white space before, between and after them. -/
inductive Lexes : List Token → List Char → Prop
  | nil : Lexes [] []
  | space {c : Char} {ts : List Token} {cs : List Char} (hc : isSpace c = true) (h : Lexes ts cs) :
      Lexes ts (c :: cs)
  | token {t : Token} {w : List Char} {ts : List Token} {cs : List Char} (hw : Spells t w)
      (hbreaks : t.isWord = true → Breaks cs) (h : Lexes ts cs) : Lexes (t :: ts) (w ++ cs)

/-- White space in front makes no token. -/
theorem lex_space {c : Char} (h : isSpace c = true) (cs : List Char) : lex (c :: cs) = lex cs := by
  rw [lex, lexFrom, start, if_pos h]
  rfl

/-- A text has the tokens it is made of. -/
theorem Lexes.lex_eq {ts : List Token} {cs : List Char} (h : Lexes ts cs) : lex cs = ts := by
  induction h with
  | nil => rfl
  | @space c ts cs hc h ih => rw [lex_space hc, ih]
  | @token t w ts cs hw hbreaks h ih =>
    rw [lex, lexFrom_spells hw hbreaks]
    exact congrArg (t :: ·) ih

/-- The invalid token has no spelling. -/
theorem Spells.ne_invalid {t : Token} {w : List Char} (h : Spells t w) : t ≠ .invalid := by
  cases h with
  | mark h =>
    unfold punctuation? at h
    split at h <;> cases h <;> simp
  | word _ _ _ hvalid => exact hvalid
  | string => simp

/-- A character of a token is in a string, is the token or is part of a word. -/
theorem Spells.cases_of_mem {t : Token} {w : List Char} (h : Spells t w) {c : Char}
    (hc : c ∈ w) :
    (∃ ps, t = .string ps) ∨ punctuation? c = some t ∨
      t.isWord = true ∧ endsWord c = false ∧ isWordChar c = true := by
  cases h with
  | mark hmark =>
    cases List.mem_singleton.mp hc
    exact .inr (.inl hmark)
  | word hne hcs ht hvalid =>
    have hword := isWordChar_of_ofWord (ht.symm ▸ hvalid) c hc
    exact .inr (.inr ⟨isWord_of_ofWord ht hvalid, hcs c hc, hword⟩)
  | string => exact .inl ⟨_, rfl⟩

/-- A text made of tokens has no invalid one. -/
theorem Lexes.invalid_notMem {ts : List Token} {cs : List Char} (h : Lexes ts cs) :
    .invalid ∉ ts := by
  induction h with
  | nil => exact List.not_mem_nil
  | space _ _ ih => exact ih
  | token hw _ _ ih => exact List.not_mem_cons_of_ne_of_not_mem hw.ne_invalid.symm ih

/-- A unit escape without faults goes on with a digit. -/
theorem exists_of_lexFrom_hex {ps : List Piece} {value more : Nat} {cs : List Char}
    (h : .invalid ∉ lexFrom (.hex ps value more) cs) :
    ∃ c d rest, cs = c :: rest ∧ hexValue? c = some d := by
  cases cs with
  | nil => exact absurd (List.mem_singleton.mpr rfl) h
  | cons c rest =>
    cases hvalue : hexValue? c with
    | some d => exact ⟨c, d, rest, rfl, hvalue⟩
    | none =>
      rw [lexFrom, hvalue] at h
      exact absurd (List.mem_singleton.mpr rfl) h

/-- A string without faults is closed, and what it holds is spelled. -/
theorem exists_of_lexFrom_text {ps : List Piece} {cs : List Char}
    (h : .invalid ∉ lexFrom (.text ps) cs) :
    ∃ qs body rest, cs = body ++ '"' :: rest ∧ SpellsPieces qs body := by
  induction hn : cs.length using Nat.strongRecOn generalizing ps cs with
  | ind n ih =>
    subst hn
    cases cs with
    | nil => exact absurd (List.mem_singleton.mpr rfl) h
    | cons c cs =>
      rw [lexFrom] at h
      by_cases hquote : c = '"'
      · rw [hquote]
        exact ⟨[], [], cs, rfl, .nil⟩
      rw [if_neg hquote] at h
      by_cases hslash : c = '\\'
      · rw [if_pos hslash] at h
        subst hslash
        cases cs with
        | nil => exact absurd (List.mem_singleton.mpr rfl) h
        | cons e cs =>
          rw [lexFrom] at h
          by_cases hu : e = 'u'
          · subst hu
            rw [if_pos rfl] at h
            obtain ⟨c₁, d₁, cs₁, rfl, h₁⟩ := exists_of_lexFrom_hex h
            rw [lexFrom_hex h₁, if_neg (by decide)] at h
            obtain ⟨c₂, d₂, cs₂, rfl, h₂⟩ := exists_of_lexFrom_hex h
            rw [lexFrom_hex h₂, if_neg (by decide)] at h
            obtain ⟨c₃, d₃, cs₃, rfl, h₃⟩ := exists_of_lexFrom_hex h
            rw [lexFrom_hex h₃, if_neg (by decide)] at h
            obtain ⟨c₄, d₄, cs₄, rfl, h₄⟩ := exists_of_lexFrom_hex h
            rw [lexFrom_hex h₄, if_pos rfl] at h
            obtain ⟨qs, body, rest, rfl, hbody⟩ :=
              ih _ (by simp only [List.length_cons]; omega) h rfl
            exact ⟨_, _, rest, rfl, .unit h₁ h₂ h₃ h₄ hbody⟩
          · rw [if_neg hu] at h
            cases hescape : shortEscape? e with
            | none =>
              rw [hescape] at h
              exact absurd (List.mem_singleton.mpr rfl) h
            | some d =>
              rw [hescape] at h
              obtain ⟨qs, body, rest, rfl, hbody⟩ :=
                ih _ (by simp only [List.length_cons]; omega) h rfl
              exact ⟨_, _, rest, rfl, .short hescape hbody⟩
      · rw [if_neg hslash] at h
        by_cases hcontrol : c.toNat < 0x20
        · rw [if_pos hcontrol] at h
          exact absurd (List.mem_singleton.mpr rfl) h
        · rw [if_neg hcontrol] at h
          obtain ⟨qs, body, rest, rfl, hbody⟩ := ih _ (by simp) h rfl
          exact ⟨_, _, rest, rfl, .plain hquote hslash (Nat.le_of_not_lt hcontrol) hbody⟩

/-- A character between tokens is white space, opens a string, is a mark or begins a word. -/
theorem cases_start (c : Char) :
    isSpace c = true ∨ c = '"' ∨ (∃ t, punctuation? c = some t) ∨ endsWord c = false := by
  rw [endsWord]
  cases isSpace c with
  | true => exact .inl rfl
  | false =>
    by_cases hquote : c = '"'
    · exact .inr (.inl hquote)
    · cases hmark : punctuation? c with
      | some t => exact .inr (.inr (.inl ⟨t, rfl⟩))
      | none => exact .inr (.inr (.inr (by simp [hquote])))

/-- What is left behind a word ends it. -/
theorem breaks_dropWhile (cs : List Char) : Breaks (cs.dropWhile fun c => !endsWord c) := by
  intro c hc
  have hhead := List.head?_dropWhile_not (fun c => !endsWord c) cs
  rw [hc] at hhead
  simpa using hhead

/-- A valid text that begins with a character of words begins with a word. -/
theorem exists_word {c : Char} {cs : List Char} (hc : endsWord c = false)
    (h : .invalid ∉ lex (c :: cs)) :
    ∃ w rest, c :: cs = w ++ rest ∧ w ≠ [] ∧ (∀ d ∈ w, endsWord d = false) ∧
      ofWord w ≠ .invalid ∧ Breaks rest := by
  have hword : ∀ d ∈ (c :: cs).takeWhile fun c => !endsWord c, endsWord d = false := by
    intro d hd
    simpa using List.all_eq_true.mp List.all_takeWhile d hd
  have hne : (c :: cs).takeWhile (fun c => !endsWord c) ≠ [] := by simp [hc]
  have hbreaks := breaks_dropWhile (c :: cs)
  have hlex := lexFrom_between_word hne hword hbreaks
  have hsplit := List.takeWhile_append_dropWhile (p := fun c => !endsWord c) (l := c :: cs)
  rw [hsplit] at hlex
  rw [lex, hlex] at h
  exact ⟨_, _, hsplit.symm, hne, hword, (List.ne_of_not_mem_cons h).symm, hbreaks⟩

/-- Punctuation is no word. -/
theorem isWord_of_punctuation? {c : Char} {t : Token} (h : punctuation? c = some t) :
    t.isWord = false := by
  unfold punctuation? at h
  split at h <;> cases h <;> rfl

/-- One token is cut off in front, and the rest is made of tokens. -/
theorem Lexes.of_spells {t : Token} {w rest : List Char} (hw : Spells t w)
    (hbreaks : t.isWord = true → Breaks rest) (h : .invalid ∉ lex (w ++ rest))
    (ih : .invalid ∉ lex rest → Lexes (lex rest) rest) : Lexes (lex (w ++ rest)) (w ++ rest) := by
  have hlex : lex (w ++ rest) = t :: lex rest := lexFrom_spells hw hbreaks
  rw [hlex] at h ⊢
  exact .token hw hbreaks (ih fun hmem => h (List.mem_cons_of_mem _ hmem))

/-- A text without invalid tokens is built up from its tokens. -/
theorem lexes_lex {cs : List Char} (h : .invalid ∉ lex cs) : Lexes (lex cs) cs := by
  induction hn : cs.length using Nat.strongRecOn generalizing cs with
  | ind n ih =>
    subst hn
    cases cs with
    | nil => exact .nil
    | cons c cs =>
      rcases cases_start c with hspace | rfl | ⟨t, hmark⟩ | hword
      · rw [lex_space hspace] at h ⊢
        exact .space hspace (ih _ (by simp) h rfl)
      · have htext : .invalid ∉ lexFrom (.text []) cs := h
        obtain ⟨ps, body, rest, rfl, hbody⟩ := exists_of_lexFrom_text htext
        have hsplit : '"' :: (body ++ '"' :: rest) = ('"' :: (body ++ ['"'])) ++ rest := by simp
        rw [hsplit] at h ih ⊢
        exact .of_spells (.string hbody) (by simp [isWord]) h
          fun hrest => ih _ (by simp only [List.length_append, List.length_cons]; omega) hrest rfl
      · exact .of_spells (.mark hmark) (by simp [isWord_of_punctuation? hmark]) h
          fun hrest => ih _ (by simp) hrest rfl
      · obtain ⟨w, rest, hsplit, hne, hw, hofWord, hbreaks⟩ := exists_word hword h
        rw [hsplit] at h ih ⊢
        have hpos := List.length_pos_iff.mpr hne
        exact .of_spells (.word hne hw rfl hofWord) (fun _ => hbreaks) h
          fun hrest => ih _ (by rw [List.length_append]; omega) hrest rfl

/-- The texts with the given tokens, all of them valid. -/
theorem lexes_iff {ts : List Token} {cs : List Char} :
    Lexes ts cs ↔ lex cs = ts ∧ .invalid ∉ ts := by
  constructor
  · exact fun h => ⟨h.lex_eq, h.invalid_notMem⟩
  · rintro ⟨rfl, h⟩
    exact lexes_lex h

end Token

open Token

/-- A scanner that passes on every character, except that it may treat `stop` in its own way outside
strings. -/
structure Copies (f : Quoting → List Char → List β) (emit : Char → β) (stop : Char) : Prop where
  quote : stop ≠ '"'
  nil : ∀ q, f q [] = []
  cons : ∀ q c cs, (q = .outside → c ≠ stop) → f q (c :: cs) = emit c :: f (q.next c) cs

/-- Hexadecimal digits are neither quotes nor backslashes. -/
theorem ne_of_hexValue? {c : Char} {d : Nat} (h : hexValue? c = some d) : c ≠ '"' ∧ c ≠ '\\' := by
  have hquote : hexValue? '"' = none := by decide
  have hslash : hexValue? '\\' = none := by decide
  constructor
  · rintro rfl
    rw [hquote] at h
    cases h
  · rintro rfl
    rw [hslash] at h
    cases h

namespace Copies

variable {f : Quoting → List Char → List β} {emit : Char → β} {stop : Char}

/-- Inside a string, ordinary characters are copied. -/
theorem inside (hf : Copies f emit stop) {c : Char} (hquote : c ≠ '"') (hslash : c ≠ '\\')
    (cs : List Char) : f .inside (c :: cs) = emit c :: f .inside cs := by
  rw [hf.cons _ _ _ (by simp), Quoting.next, if_neg hslash, if_neg hquote]

/-- Inside a string, escapes are copied with the character after them. -/
theorem escaped (hf : Copies f emit stop) (e : Char) (cs : List Char) :
    f .inside ('\\' :: e :: cs) = emit '\\' :: emit e :: f .inside cs := by
  have hnext : Quoting.inside.next '\\' = .escaped := rfl
  rw [hf.cons _ _ _ (by simp), hnext, hf.cons _ _ _ (by simp), Quoting.next]

/-- What a string holds is passed on up to the closing quote. -/
theorem pieces (hf : Copies f emit stop) {ps : List Piece} {body : List Char}
    (h : SpellsPieces ps body) (cs : List Char) :
    f .inside (body ++ '"' :: cs) = body.map emit ++ emit '"' :: f .outside cs := by
  induction h with
  | nil => exact hf.cons _ _ _ (by simp)
  | plain hquote hslash _ _ ih =>
    rw [List.cons_append, hf.inside hquote hslash, ih]
    rfl
  | short _ _ ih =>
    rw [List.cons_append, List.cons_append, hf.escaped, ih]
    rfl
  | unit h₁ h₂ h₃ h₄ _ ih =>
    obtain ⟨hquote₁, hslash₁⟩ := ne_of_hexValue? h₁
    obtain ⟨hquote₂, hslash₂⟩ := ne_of_hexValue? h₂
    obtain ⟨hquote₃, hslash₃⟩ := ne_of_hexValue? h₃
    obtain ⟨hquote₄, hslash₄⟩ := ne_of_hexValue? h₄
    simp only [List.cons_append]
    rw [hf.escaped, hf.inside hquote₁ hslash₁, hf.inside hquote₂ hslash₂,
      hf.inside hquote₃ hslash₃, hf.inside hquote₄ hslash₄, ih]
    rfl

/-- Outside of strings, all but the two special characters are copied. -/
theorem outside (hf : Copies f emit stop) {w : List Char} (h : ∀ c ∈ w, c ≠ stop ∧ c ≠ '"')
    (cs : List Char) : f .outside (w ++ cs) = w.map emit ++ f .outside cs := by
  induction w with
  | nil => rfl
  | cons c w ih =>
    rw [List.forall_mem_cons] at h
    rw [List.cons_append, hf.cons _ _ _ fun _ => h.1.1, Quoting.next, if_neg h.1.2, ih h.2]
    rfl

/-- White space is copied. -/
theorem space (hf : Copies f emit stop) (hstop : isSpace stop = false) {c : Char}
    (hc : isSpace c = true) (cs : List Char) : f .outside (c :: cs) = emit c :: f .outside cs := by
  have hne : c ≠ stop := by
    rintro rfl
    rw [hstop] at hc
    cases hc
  have hquote : c ≠ '"' := by
    rintro rfl
    cases hc
  rw [hf.cons _ _ _ fun _ => hne, Quoting.next, if_neg hquote]

/-- A spelled token is passed on, and leaves the scanner outside strings. -/
theorem spelled (hf : Copies f emit stop) {t : Token} {w : List Char} (h : Spells t w)
    (hstop : stop ∈ w → ∃ ps, t = .string ps) (cs : List Char) :
    f .outside (w ++ cs) = w.map emit ++ f .outside cs := by
  cases h with
  | @mark c t hmark =>
    refine hf.outside (List.forall_mem_singleton.mpr ⟨?_, ?_⟩) cs
    · rintro rfl
      obtain ⟨ps, rfl⟩ := hstop (List.mem_singleton.mpr rfl)
      unfold punctuation? at hmark
      split at hmark <;> cases hmark
    · rintro rfl
      cases hmark
  | word hne hcs ht hvalid =>
    refine hf.outside (fun c hc => ⟨?_, ?_⟩) cs
    · rintro rfl
      obtain ⟨ps, rfl⟩ := hstop hc
      cases isWord_of_ofWord ht hvalid
    · rintro rfl
      exact absurd (hcs _ hc) (by decide)
  | @string ps body hbody =>
    have hnext : Quoting.outside.next '"' = .inside := rfl
    rw [List.cons_append, hf.cons _ _ _ fun _ => hf.quote.symm, hnext, List.append_assoc,
      List.singleton_append, hf.pieces hbody]
    simp

/-- A character that is passed on inside a string was there. -/
theorem exists_of_cons {f : Quoting → List Char → List Char} (hf : Copies f id stop)
    {q : Quoting} (hq : q ≠ .outside) {cs out : List Char} {c : Char} (h : f q cs = c :: out) :
    ∃ rest, cs = c :: rest ∧ f (q.next c) rest = out := by
  cases cs with
  | nil =>
    rw [hf.nil] at h
    cases h
  | cons d rest =>
    rw [hf.cons _ _ _ fun h => absurd h hq] at h
    cases h
    exact ⟨rest, rfl, rfl⟩

/-- An ordinary character that is left inside a string was there. -/
theorem exists_of_inside {f : Quoting → List Char → List Char} (hf : Copies f id stop)
    {cs out : List Char} {c : Char} (hquote : c ≠ '"') (hslash : c ≠ '\\')
    (h : f .inside cs = c :: out) : ∃ rest, cs = c :: rest ∧ f .inside rest = out := by
  obtain ⟨rest, rfl, hrest⟩ := hf.exists_of_cons (by simp) h
  rw [Quoting.next, if_neg hslash, if_neg hquote] at hrest
  exact ⟨rest, rfl, hrest⟩

/-- An escape that is left inside a string was there. -/
theorem exists_of_escaped {f : Quoting → List Char → List Char} (hf : Copies f id stop)
    {cs out : List Char} {e : Char} (h : f .inside cs = '\\' :: e :: out) :
    ∃ rest, cs = '\\' :: e :: rest ∧ f .inside rest = out := by
  have hnext : Quoting.inside.next '\\' = .escaped := rfl
  obtain ⟨tail, rfl, htail⟩ := hf.exists_of_cons (by simp) h
  rw [hnext] at htail
  obtain ⟨rest, rfl, hrest⟩ := hf.exists_of_cons (by simp) htail
  exact ⟨rest, rfl, hrest⟩

/-- A closed string that is passed on was there. -/
theorem exists_of_pieces {f : Quoting → List Char → List Char} (hf : Copies f id stop)
    {ps : List Piece} {body : List Char} (h : SpellsPieces ps body) {cs out : List Char}
    (hout : f .inside cs = body ++ '"' :: out) :
    ∃ rest, cs = body ++ '"' :: rest ∧ f .outside rest = out := by
  induction h generalizing cs with
  | nil =>
    obtain ⟨rest, rfl, hrest⟩ := hf.exists_of_cons (by simp) hout
    exact ⟨rest, rfl, hrest⟩
  | plain hquote hslash _ _ ih =>
    obtain ⟨tail, rfl, htail⟩ := hf.exists_of_inside hquote hslash hout
    obtain ⟨rest, rfl, hrest⟩ := ih htail
    exact ⟨rest, rfl, hrest⟩
  | short _ _ ih =>
    obtain ⟨tail, rfl, htail⟩ := hf.exists_of_escaped hout
    obtain ⟨rest, rfl, hrest⟩ := ih htail
    exact ⟨rest, rfl, hrest⟩
  | unit h₁ h₂ h₃ h₄ _ ih =>
    obtain ⟨hquote₁, hslash₁⟩ := ne_of_hexValue? h₁
    obtain ⟨hquote₂, hslash₂⟩ := ne_of_hexValue? h₂
    obtain ⟨hquote₃, hslash₃⟩ := ne_of_hexValue? h₃
    obtain ⟨hquote₄, hslash₄⟩ := ne_of_hexValue? h₄
    obtain ⟨tail, rfl, htail⟩ := hf.exists_of_escaped hout
    obtain ⟨tail₁, rfl, htail₁⟩ := hf.exists_of_inside hquote₁ hslash₁ htail
    obtain ⟨tail₂, rfl, htail₂⟩ := hf.exists_of_inside hquote₂ hslash₂ htail₁
    obtain ⟨tail₃, rfl, htail₃⟩ := hf.exists_of_inside hquote₃ hslash₃ htail₂
    obtain ⟨tail₄, rfl, htail₄⟩ := hf.exists_of_inside hquote₄ hslash₄ htail₃
    obtain ⟨rest, rfl, hrest⟩ := ih htail₄
    exact ⟨rest, rfl, hrest⟩

end Copies

end ClassContract
