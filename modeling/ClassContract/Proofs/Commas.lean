import ClassContract.Proofs.Grammar
import ClassContract.Proofs.Lexing

/-!
# Commas before closing brackets

On the characters, `removeTrailingCommas` looks ahead over blanks. On the tokens of a valid text the
same is done by `dropCommas`, which looks at the next token only: `lexes_removeTrailingCommas`. The
way back is `exists_lexes_of_removeTrailingCommas`: a text that is valid without these commas was
valid with them, since they are only ever taken from between valid tokens.

`TrailingCommas ts us` adds commas where they are allowed, after the last item of an array or an
object. They are dropped again, and no other comma of a value is: `TrailingCommas.dropCommas_eq`.
What `dropCommas` drops beyond that stood right after an opening bracket:
`trailingCommas_of_dropCommas`.
-/

namespace ClassContract

open Token

/-- JSON white space is blank. -/
theorem isBlank_of_isSpace {c : Char} (h : isSpace c = true) : isBlank c = true := by
  simp only [isSpace, Bool.or_eq_true, beq_iff_eq] at h
  rcases h with ((rfl | rfl) | rfl) | rfl <;> decide

/-- JSON white space ends a word. -/
theorem endsWord_of_isSpace {c : Char} (h : isSpace c = true) : endsWord c = true := by
  rw [endsWord, h, Bool.true_or, Bool.true_or]

/-- Blanks do not matter for what comes next. -/
theorem closesNext_blank {c : Char} (h : isBlank c = true) (cs : List Char) :
    closesNext (c :: cs) = closesNext cs := by
  rw [closesNext, List.dropWhile_cons_of_pos h, closesNext]

/-- The first character that is not blank decides whether a bracket comes next. -/
theorem closesNext_of_not_blank {c : Char} (h : isBlank c = false) (cs : List Char) :
    closesNext (c :: cs) = (c == '\x7d' || c == ']') := by
  rw [closesNext, List.dropWhile_cons_of_neg (by simp [h])]
  rfl

/-- A character inside a word is no bracket. -/
theorem no_bracket_of_endsWord {c : Char} (h : endsWord c = false) :
    (c == '\x7d' || c == ']') = false := by
  refine Bool.or_eq_false_iff.mpr ⟨beq_eq_false_iff_ne.mpr ?_, beq_eq_false_iff_ne.mpr ?_⟩
  all_goals
    rintro rfl
    cases h

/-- The first character of a token is not blank, and it is a closing bracket if the token is one. -/
theorem Token.Spells.exists_cons {t : Token} {w : List Char} (h : Spells t w) :
    ∃ c rest, w = c :: rest ∧ isBlank c = false ∧ (c == '\x7d' || c == ']') = t.closes := by
  cases h with
  | @mark c t hmark =>
    refine ⟨c, [], rfl, ?_⟩
    unfold punctuation? at hmark
    split at hmark <;> cases hmark <;> decide
  | @word w t hne hcs ht hvalid =>
    obtain ⟨c, rest, rfl⟩ := List.exists_cons_of_ne_nil hne
    have hword := isWord_of_ofWord ht hvalid
    have hblank := isWordChar_of_ofWord (ht.symm ▸ hvalid) c List.mem_cons_self
    have hends := hcs c List.mem_cons_self
    have hcloses : t.closes = false := by cases t <;> first | rfl | cases hword
    exact ⟨c, rest, rfl, (isBlank_of_isWordChar hblank).1,
      (no_bracket_of_endsWord hends).trans hcloses.symm⟩
  | string => exact ⟨'"', _, rfl, by decide, rfl⟩

/-- A closing bracket comes next exactly if the next token is one. -/
theorem Token.Lexes.closesNext_eq {ts : List Token} {cs : List Char} (h : Lexes ts cs) :
    closesNext cs = ts.head?.any closes := by
  induction h with
  | nil => rfl
  | space hc _ ih => rw [closesNext_blank (isBlank_of_isSpace hc), ih]
  | token hw _ _ _ =>
    obtain ⟨c, rest, rfl, hblank, hcloses⟩ := hw.exists_cons
    rw [List.cons_append, closesNext_of_not_blank hblank, hcloses]
    rfl

/-- Where no word comes next, a word is not continued. -/
theorem Token.Lexes.breaks {ts : List Token} {cs : List Char} (h : Lexes ts cs)
    (hhead : ts.head?.any isWord = false) : Breaks cs := by
  cases h with
  | nil => exact breaks_nil
  | space hc _ =>
    intro d hd
    cases hd
    exact endsWord_of_isSpace hc
  | token hw _ _ => exact breaks_spells hw (by simpa using hhead) _

/-- Removing commas copies strings and everything but commas. -/
theorem copies_removeTrailingCommas : Copies removeTrailingCommas id ',' where
  quote := by decide
  nil := fun q => by rw [removeTrailingCommas]
  cons := by
    intro q c cs h
    have hnot : ¬ (q = .outside && c == ',' && closesNext cs) = true := by
      simp only [Bool.and_eq_true, decide_eq_true_eq, beq_iff_eq, not_and]
      exact fun hq => absurd hq.2 (h hq.1)
    rw [removeTrailingCommas, if_neg hnot]
    rfl

/-- A comma outside strings is left out exactly where a bracket comes next. -/
theorem removeTrailingCommas_comma (cs : List Char) :
    removeTrailingCommas .outside (',' :: cs) =
      if closesNext cs then removeTrailingCommas .outside cs
      else ',' :: removeTrailingCommas .outside cs := by
  rw [removeTrailingCommas]
  cases closesNext cs <;> rfl

/-- Leave out every comma that stands before a closing bracket. -/
def dropCommas : List Token → List Token
  | [] => []
  | t :: ts =>
    if t = .comma ∧ ts.head?.any closes = true then dropCommas ts else t :: dropCommas ts

/-- Other tokens than commas stay. -/
theorem dropCommas_of_ne {t : Token} (h : t ≠ .comma) (ts : List Token) :
    dropCommas (t :: ts) = t :: dropCommas ts := by
  rw [dropCommas, if_neg fun hcomma => h hcomma.1]

/-- A comma is spelled in one way. -/
theorem spells_comma {w : List Char} (h : Spells .comma w) : w = [','] := by
  generalize ht : Token.comma = t at h
  cases h with
  | mark hmark =>
    subst ht
    unfold punctuation? at hmark
    split at hmark <;> first | rfl | cases hmark
  | word hne hcs hword hvalid =>
    subst ht
    cases isWord_of_ofWord hword hvalid
  | string => cases ht

/-- A comma may stand before any text. -/
theorem Token.Lexes.comma {ts : List Token} {cs : List Char} (h : Lexes ts cs) :
    Lexes (.comma :: ts) (',' :: cs) :=
  .token (w := [',']) (.mark rfl) (by simp [isWord]) h

/-- A comma ends the word before it. -/
theorem breaks_comma (cs : List Char) : Breaks (',' :: cs) :=
  breaks_spells (.mark (c := ',') rfl) rfl cs

/-- Whether a text ends the word before it depends on its first character. -/
theorem Token.Breaks.of_append {w cs : List Char} (h : Breaks (w ++ cs)) (hne : w ≠ [])
    (rest : List Char) : Breaks (w ++ rest) := by
  obtain ⟨c, tail, rfl⟩ := List.exists_cons_of_ne_nil hne
  exact h

/-- No token has an empty spelling. -/
theorem Token.Spells.ne_nil {t : Token} {w : List Char} (h : Spells t w) : w ≠ [] := by
  obtain ⟨c, rest, rfl, _⟩ := h.exists_cons
  exact List.cons_ne_nil c rest

/-- Removing commas from a valid text leaves a valid text. A word before a removed comma still ends
where it did, since a closing bracket or white space moves up to it. -/
theorem lexes_removeTrailingCommas {ts : List Token} {cs : List Char} (h : Lexes ts cs) :
    Lexes (dropCommas ts) (removeTrailingCommas .outside cs) ∧
      (Breaks cs → Breaks (removeTrailingCommas .outside cs)) := by
  have hcopies := copies_removeTrailingCommas
  induction h with
  | nil => exact ⟨.nil, id⟩
  | @space c ts cs hc h ih =>
    rw [hcopies.space rfl hc]
    exact ⟨.space hc ih.1, fun hbreaks => hbreaks⟩
  | @token t w ts cs hw hbreaks h ih =>
    by_cases hcomma : t = .comma
    · subst hcomma
      rw [spells_comma hw, List.singleton_append, removeTrailingCommas_comma, h.closesNext_eq,
        dropCommas]
      by_cases hcloses : ts.head?.any closes = true
      · rw [if_pos hcloses, if_pos ⟨rfl, hcloses⟩]
        refine ⟨ih.1, fun _ => ih.2 (h.breaks ?_)⟩
        cases ts with
        | nil => rfl
        | cons u us => exact isWord_of_closes hcloses
      · rw [if_neg hcloses, if_neg fun hand => hcloses hand.2]
        exact ⟨ih.1.comma, fun _ => breaks_comma _⟩
    · have hstop : ',' ∈ w → ∃ ps, t = .string ps := by
        intro hmem
        rcases hw.cases_of_mem hmem with hstring | hmark | hword
        · exact hstring
        · cases hmark
          exact absurd rfl hcomma
        · cases hword.2.1
      have hout := hcopies.spelled hw hstop cs
      rw [List.map_id] at hout
      rw [hout, dropCommas_of_ne hcomma]
      refine ⟨.token hw (fun hword => ih.2 (hbreaks hword)) ih.1, fun hhead => ?_⟩
      exact hhead.of_append hw.ne_nil _

/-- A text in which a bracket comes next begins with neither a comma nor a quote. -/
theorem exists_cons_of_closesNext {cs : List Char} (h : closesNext cs = true) :
    ∃ c rest, cs = c :: rest ∧ c ≠ ',' ∧ c ≠ '"' := by
  cases cs with
  | nil => cases h
  | cons c rest =>
    refine ⟨c, rest, rfl, ?_, ?_⟩
    all_goals
      rintro rfl
      rw [closesNext_of_not_blank (by decide)] at h
      cases h

/-- The blanks and the bracket after a comma are copied. -/
theorem removeTrailingCommas_of_closesNext {c : Char} {cs : List Char}
    (h : closesNext (c :: cs) = true) :
    removeTrailingCommas .outside (c :: cs) = c :: removeTrailingCommas .outside cs := by
  obtain ⟨d, rest, heq, hstop, hquote⟩ := exists_cons_of_closesNext h
  cases heq
  exact copies_removeTrailingCommas.outside (w := [c])
    (List.forall_mem_singleton.mpr ⟨hstop, hquote⟩) cs

/-- Some character is always left. -/
theorem eq_nil_of_removeTrailingCommas {cs : List Char}
    (h : removeTrailingCommas .outside cs = []) : cs = [] := by
  cases cs with
  | nil => rfl
  | cons c cs =>
    by_cases hcomma : c = ','
    · subst hcomma
      rw [removeTrailingCommas_comma] at h
      split at h
      · next hcloses =>
        obtain ⟨d, rest, rfl, _⟩ := exists_cons_of_closesNext hcloses
        rw [removeTrailingCommas_of_closesNext hcloses] at h
        cases h
      · cases h
    · rw [copies_removeTrailingCommas.cons _ _ _ fun _ => hcomma] at h
      cases h

/-- The first character after the removal was the first one before it, or the second after a comma
that was removed. -/
theorem removeTrailingCommas_eq_cons {c : Char} {cs out : List Char}
    (h : removeTrailingCommas .outside cs = c :: out) :
    (∃ rest, cs = c :: rest ∧ (c = ',' → closesNext rest = false) ∧
        removeTrailingCommas (Quoting.outside.next c) rest = out) ∨
      ∃ rest, cs = ',' :: c :: rest ∧ closesNext (c :: rest) = true ∧
        removeTrailingCommas .outside rest = out := by
  cases cs with
  | nil =>
    rw [removeTrailingCommas] at h
    cases h
  | cons d cs =>
    by_cases hcomma : d = ','
    · subst hcomma
      rw [removeTrailingCommas_comma] at h
      split at h
      · next hcloses =>
        obtain ⟨e, rest, rfl, _⟩ := exists_cons_of_closesNext hcloses
        rw [removeTrailingCommas_of_closesNext hcloses] at h
        cases h
        exact .inr ⟨rest, rfl, hcloses, rfl⟩
      · next hcloses =>
        cases h
        exact .inl ⟨cs, rfl, fun _ => by simpa using hcloses, rfl⟩
    · rw [copies_removeTrailingCommas.cons _ _ _ fun _ => hcomma] at h
      cases h
      exact .inl ⟨cs, rfl, fun hd => absurd hd hcomma, rfl⟩

/-- A text ends the word before it if what is left of it does. -/
theorem breaks_of_removeTrailingCommas {cs : List Char}
    (h : Breaks (removeTrailingCommas .outside cs)) : Breaks cs := by
  cases cs with
  | nil => exact breaks_nil
  | cons c cs =>
    by_cases hcomma : c = ','
    · subst hcomma
      exact breaks_comma cs
    · rw [copies_removeTrailingCommas.cons _ _ _ fun _ => hcomma] at h
      exact h

/-- A word after the removal was there before it. -/
theorem exists_of_removeTrailingCommas_word {w cs out : List Char}
    (hw : ∀ c ∈ w, isWordChar c = true ∧ endsWord c = false)
    (h : removeTrailingCommas .outside cs = w ++ out) :
    ∃ rest, cs = w ++ rest ∧ removeTrailingCommas .outside rest = out := by
  induction w generalizing cs with
  | nil => exact ⟨cs, rfl, h⟩
  | cons c w ih =>
    rw [List.forall_mem_cons] at hw
    rw [List.cons_append] at h
    obtain ⟨hchar, hends⟩ := hw.1
    rcases removeTrailingCommas_eq_cons h with ⟨rest, rfl, _, hrest⟩ | ⟨rest, _, hcloses, _⟩
    · have hquote : c ≠ '"' := by
        rintro rfl
        cases hends
      rw [Quoting.next, if_neg hquote] at hrest
      obtain ⟨tail, rfl, htail⟩ := ih hw.2 hrest
      exact ⟨tail, rfl, htail⟩
    · rw [closesNext_of_not_blank (isBlank_of_isWordChar hchar).1,
        no_bracket_of_endsWord hends] at hcloses
      cases hcloses

/-- A token after the removal was there before it, with a removed comma in front of it or not. -/
theorem exists_of_removeTrailingCommas_spells {t : Token} {w cs out : List Char} (hw : Spells t w)
    (h : removeTrailingCommas .outside cs = w ++ out) :
    (∃ rest, cs = w ++ rest ∧ (t = .comma → closesNext rest = false) ∧
        removeTrailingCommas .outside rest = out) ∨
      t.closes = true ∧ ∃ rest, cs = ',' :: (w ++ rest) ∧
        removeTrailingCommas .outside rest = out := by
  obtain ⟨first, tail, hfirst, hblank, hbracket⟩ := hw.exists_cons
  cases hw with
  | @mark c t hmark =>
    have hquote : c ≠ '"' := by
      rintro rfl
      cases hmark
    cases hfirst
    rcases removeTrailingCommas_eq_cons h with
      ⟨rest, rfl, hkept, hrest⟩ | ⟨rest, rfl, hcloses, hrest⟩
    · rw [Quoting.next, if_neg hquote] at hrest
      refine .inl ⟨rest, rfl, fun ht => hkept ?_, hrest⟩
      rw [ht] at hmark
      exact List.singleton_inj.mp (spells_comma (.mark hmark))
    · rw [closesNext_of_not_blank hblank, hbracket] at hcloses
      exact .inr ⟨hcloses, rest, rfl, hrest⟩
  | word hne hcs ht hvalid =>
    have hchars := isWordChar_of_ofWord (ht.symm ▸ hvalid)
    obtain ⟨rest, rfl, hrest⟩ :=
      exists_of_removeTrailingCommas_word (fun c hc => ⟨hchars c hc, hcs c hc⟩) h
    refine .inl ⟨rest, rfl, fun hcomma => ?_, hrest⟩
    rw [hcomma] at ht hvalid
    cases isWord_of_ofWord ht hvalid
  | @string ps body hbody =>
    cases hfirst
    rw [List.cons_append, List.append_assoc, List.singleton_append] at h
    rcases removeTrailingCommas_eq_cons h with ⟨rest, rfl, _, hrest⟩ | ⟨rest, _, hcloses, _⟩
    · obtain ⟨final, rfl, hfinal⟩ := copies_removeTrailingCommas.exists_of_pieces hbody hrest
      exact .inl ⟨final, by simp, by simp, hfinal⟩
    · rw [closesNext_of_not_blank hblank] at hcloses
      cases hcloses

/-- A text that is valid after the removal was valid before it. -/
theorem exists_lexes_of_removeTrailingCommas {ts : List Token} {cs : List Char}
    (h : Lexes ts (removeTrailingCommas .outside cs)) : ∃ us, Lexes us cs ∧ dropCommas us = ts := by
  -- The text after the removal is followed as it is built up. Each of its characters and tokens was
  -- there before, where only a comma may have stood in front of it.
  generalize hout : removeTrailingCommas .outside cs = out at h
  induction h generalizing cs with
  | nil => exact ⟨[], eq_nil_of_removeTrailingCommas hout ▸ .nil, rfl⟩
  | @space c ts out hc h ih =>
    have hquote : c ≠ '"' := by
      rintro rfl
      cases hc
    rcases removeTrailingCommas_eq_cons hout with
      ⟨rest, rfl, _, hrest⟩ | ⟨rest, rfl, hcloses, hrest⟩
    · rw [Quoting.next, if_neg hquote] at hrest
      obtain ⟨us, hus, hdrop⟩ := ih hrest
      exact ⟨us, .space hc hus, hdrop⟩
    · obtain ⟨us, hus, hdrop⟩ := ih hrest
      have hspace : Lexes us (c :: rest) := .space hc hus
      rw [hspace.closesNext_eq] at hcloses
      refine ⟨.comma :: us, hspace.comma, ?_⟩
      rw [dropCommas, if_pos ⟨rfl, hcloses⟩, hdrop]
  | @token t w ts out hw hbreaks h ih =>
    rcases exists_of_removeTrailingCommas_spells hw hout with
      ⟨rest, rfl, hkept, hrest⟩ | ⟨hcloses, rest, rfl, hrest⟩
    · obtain ⟨us, hus, hdrop⟩ := ih hrest
      have hword : t.isWord = true → Breaks rest := by
        intro ht
        rw [← hrest] at hbreaks
        exact breaks_of_removeTrailingCommas (hbreaks ht)
      refine ⟨t :: us, .token hw hword hus, ?_⟩
      have hnot : ¬ (t = .comma ∧ us.head?.any closes = true) := by
        intro hand
        have hfalse := hkept hand.1
        rw [hus.closesNext_eq, hand.2] at hfalse
        cases hfalse
      rw [dropCommas, if_neg hnot, hdrop]
    · obtain ⟨us, hus, hdrop⟩ := ih hrest
      have htoken : Lexes (t :: us) (w ++ rest) :=
        .token hw (fun ht => by rw [isWord_of_closes hcloses] at ht; cases ht) hus
      refine ⟨.comma :: t :: us, htoken.comma, ?_⟩
      rw [dropCommas, if_pos ⟨rfl, hcloses⟩, dropCommas_of_ne (ne_comma_of_closes hcloses), hdrop]

/-- The sequence `us` is `ts` with at most one comma added after the last item of each array or
object that has one: between the end of a value and a closing bracket. -/
inductive TrailingCommas : List Token → List Token → Prop
  | nil : TrailingCommas [] []
  | same (t : Token) {ts us : List Token} (h : TrailingCommas ts us) :
      TrailingCommas (t :: ts) (t :: us)
  | comma {last close : Token} {ts us : List Token} (hlast : last.endsValue = true)
      (hclose : close.closes = true) (h : TrailingCommas (close :: ts) (close :: us)) :
      TrailingCommas (last :: close :: ts) (last :: .comma :: close :: us)

namespace TrailingCommas

/-- A token sequence has itself as a variant without additional commas. -/
theorem refl (ts : List Token) : TrailingCommas ts ts := by
  induction ts with
  | nil => exact .nil
  | cons t ts ih => exact .same t ih

/-- No comma is added in front. -/
theorem head?_eq {ts us : List Token} (h : TrailingCommas ts us) : us.head? = ts.head? := by
  cases h <;> rfl

/-- The added commas are dropped, and no others. -/
theorem dropCommas_eq {ts us : List Token} (h : TrailingCommas ts us)
    (hchain : ts.IsChain fun t u => t.mayFollow u = true) : dropCommas us = ts := by
  induction h with
  | nil => rfl
  | @same t ts us h ih =>
    rw [List.isChain_cons] at hchain
    have hnot : ¬ (t = .comma ∧ us.head?.any closes = true) := by
      rintro ⟨rfl, hcloses⟩
      rw [h.head?_eq] at hcloses
      cases ts with
      | nil => cases hcloses
      | cons u ts =>
        have hclose : u.closes = true := hcloses
        have hends := endsValue_of_mayFollow (hchain.1 u rfl) hclose rfl
        cases hends
    rw [dropCommas, if_neg hnot, ih hchain.2]
  | @comma last close ts us hlast hclose h ih =>
    rw [List.isChain_cons] at hchain
    rw [dropCommas_of_ne (ne_comma_of_endsValue hlast), dropCommas, if_pos ⟨rfl, hclose⟩,
      ih hchain.2]

/-- Neighbours after commas were added. -/
theorem isChain {ts us : List Token} (h : TrailingCommas ts us)
    (hchain : ts.IsChain fun t u => t.mayFollow u = true) :
    us.IsChain fun t u => t.mayFollow u = true ∨ t = .comma ∧ u.closes = true := by
  induction h with
  | nil => exact .nil
  | @same t ts us h ih =>
    rw [List.isChain_cons] at hchain ⊢
    rw [h.head?_eq]
    exact ⟨fun u hu => .inl (hchain.1 u hu), ih hchain.2⟩
  | @comma last close ts us hlast hclose h ih =>
    rw [List.isChain_cons] at hchain
    have hbefore : last.mayFollow .comma = true := by
      rw [mayFollow, if_pos hlast]
      rfl
    have hrest := List.isChain_cons_cons.mpr ⟨.inr ⟨rfl, hclose⟩, ih hchain.2⟩
    exact List.isChain_cons_cons.mpr ⟨.inl hbefore, hrest⟩

end TrailingCommas

/-- A dropped comma in front of a sequence has a closing bracket after it, which is kept. -/
theorem exists_of_first_dropped {us : List Token}
    (h : us.head? = some .comma ∧ us.tail.head?.any closes = true) :
    ∃ close rest, us = .comma :: close :: rest ∧ close.closes = true ∧
      dropCommas us = close :: dropCommas rest := by
  obtain ⟨tail, rfl⟩ : ∃ tail, us = .comma :: tail := ⟨us.tail, (List.cons_head?_tail h.1).symm⟩
  cases tail with
  | nil => cases h.2
  | cons close rest =>
    have hclose : close.closes = true := h.2
    refine ⟨close, rest, rfl, hclose, ?_⟩
    rw [dropCommas, if_pos ⟨rfl, hclose⟩, dropCommas_of_ne (ne_comma_of_closes hclose)]

/-- Where no comma follows an opening bracket, only allowed commas are dropped. -/
theorem trailingCommas_of_dropCommas {ts us : List Token} (h : dropCommas us = ts)
    (hchain : ts.IsChain fun t u => t.mayFollow u = true)
    (hhead : ¬ (us.head? = some .comma ∧ us.tail.head?.any closes = true))
    (hfilled : us.IsChain fun t u => t.opens = true → u ≠ .comma) : TrailingCommas ts us := by
  induction hn : us.length using Nat.strongRecOn generalizing ts us with
  | ind n ih =>
    subst hn h
    cases us with
    | nil => exact .nil
    | cons t us =>
      have hkept : ¬ (t = .comma ∧ us.head?.any closes = true) := by
        rintro ⟨rfl, hcloses⟩
        exact hhead ⟨rfl, hcloses⟩
      rw [dropCommas, if_neg hkept] at hchain ⊢
      rw [List.isChain_cons] at hchain hfilled
      by_cases hnext : us.head? = some .comma ∧ us.tail.head?.any closes = true
      · obtain ⟨close, rest, rfl, hclose, hdrop⟩ := exists_of_first_dropped hnext
        rw [hdrop] at hchain ⊢
        have hne := ne_comma_of_closes hclose
        have hopens : t.opens = false := by
          cases hopens : t.opens with
          | false => rfl
          | true => exact absurd rfl (hfilled.1 .comma rfl hopens)
        have hends := endsValue_of_mayFollow (hchain.1 close rfl) hclose hopens
        refine .comma hends hclose (ih _ ?_ (dropCommas_of_ne hne rest) hchain.2 ?_ ?_ rfl)
        · simp
        · exact fun hand => hne (Option.some.inj hand.1)
        · exact hfilled.2.tail
      · exact .same t (ih _ (by simp) rfl hchain.2 hnext hfilled.2 rfl)

end ClassContract
