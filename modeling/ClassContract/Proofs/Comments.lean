import ClassContract.Proofs.Commas

/-!
# Comments between tokens

`Layout ts cs` builds up a text from spellings of the tokens `ts` with white space and comments
between them. Removing the comments of such a text leaves a valid text with the same tokens,
`Layout.lexes`, provided that no two words come one after the other.

The way back has two conditions on the text. They are stated on its outline, in which every comment
is one mark: a block comment that is not closed has a mark of its own, and no comment may stand
between two characters of a word. `layout_of_outline` builds up the text from its tokens under these
conditions, and `Layout.unclosed_notMem` and `Layout.unsplit` say that there is no way without them.
-/

namespace ClassContract

open Token

/-- A part of a text with comments. -/
inductive Part
  /-- A character outside comments, or a line end inside a block comment. -/
  | char (c : Char)
  /-- The end of a comment. -/
  | comment
  /-- The end of the text inside a block comment. -/
  | unclosed
  deriving DecidableEq

mutual

/-- The parts of a text. -/
def outline : Quoting → List Char → List Part
  | .outside, '/' :: '/' :: cs => .comment :: lineOutline cs
  | .outside, '/' :: '*' :: cs => blockOutline cs
  | q, c :: cs => .char c :: outline (q.next c) cs
  | _, [] => []

/-- The parts after the beginning of a line comment. -/
def lineOutline : List Char → List Part
  | [] => []
  | c :: cs => if c = '\n' then .char c :: outline .outside cs else lineOutline cs

/-- The parts after the beginning of a block comment. -/
def blockOutline : List Char → List Part
  | [] => [.unclosed]
  | '*' :: '/' :: cs => .comment :: outline .outside cs
  | c :: cs => if c = '\n' then .char c :: blockOutline cs else blockOutline cs

end

/-- The character of a part. -/
def Part.char? : Part → Option Char
  | .char c => some c
  | _ => none

/-- The characters of an outline. -/
def kept (ps : List Part) : List Char := ps.filterMap Part.char?

@[simp] theorem kept_nil : kept [] = [] := rfl

@[simp] theorem kept_char (c : Char) (ps : List Part) : kept (.char c :: ps) = c :: kept ps := rfl

@[simp] theorem kept_comment (ps : List Part) : kept (.comment :: ps) = kept ps := rfl

@[simp] theorem kept_unclosed (ps : List Part) : kept (.unclosed :: ps) = kept ps := rfl

/-- What is kept of two outlines is kept of each. -/
@[simp] theorem kept_append (ps qs : List Part) : kept (ps ++ qs) = kept ps ++ kept qs :=
  List.filterMap_append

/-- Characters are kept. -/
@[simp] theorem kept_map_char (cs : List Char) : kept (cs.map .char) = cs := by
  induction cs with
  | nil => rfl
  | cons c cs ih => rw [List.map_cons, kept_char, ih]

/-- What is left when comments are removed are the characters of the outline. -/
theorem removeComments_eq_kept (q : Quoting) (cs : List Char) :
    removeComments q cs = kept (outline q cs) := by
  refine removeComments.induct (fun q cs => removeComments q cs = kept (outline q cs))
    (fun cs => afterBlock cs = kept (blockOutline cs))
    (fun cs => afterLine cs = kept (lineOutline cs)) ?_ ?_ ?_ ?_ ?_ ?_ ?_ ?_ ?_ ?_ ?_ q cs
  · intro cs ih
    rw [removeComments, outline, kept_comment, ih]
  · intro cs ih
    rw [removeComments, outline, ih]
  · intro q c cs hline hblock ih
    rw [removeComments.eq_3 _ _ _ hline hblock, outline.eq_3 _ _ _ hline hblock, kept_char, ih]
  · intro q
    rw [removeComments, outline, kept_nil]
  · rfl
  · intro cs ih
    rw [afterBlock, blockOutline, kept_comment, ih]
  · intro cs hend ih
    rw [afterBlock.eq_3 _ _ hend, blockOutline.eq_3 _ _ hend, if_pos rfl, if_pos rfl, kept_char, ih]
  · intro c cs hend hc ih
    rw [afterBlock.eq_3 _ _ hend, blockOutline.eq_3 _ _ hend, if_neg hc, if_neg hc, ih]
  · rfl
  · intro cs ih
    rw [afterLine, lineOutline, if_pos rfl, if_pos rfl, kept_char, ih]
  · intro c cs hc ih
    rw [afterLine, lineOutline, if_neg hc, if_neg hc, ih]

/-- The outline copies strings and everything but slashes. -/
theorem copies_outline : Copies outline .char '/' where
  quote := by decide
  nil := fun q => by rw [outline]
  cons := fun q c cs h =>
    outline.eq_3 _ _ _ (fun _ hq hc _ => h hq hc) (fun _ hq hc _ => h hq hc)

/-- Removing comments copies strings and everything but slashes. -/
theorem copies_removeComments : Copies removeComments id '/' where
  quote := by decide
  nil := fun q => by rw [removeComments]
  cons := by
    intro q c cs h
    rw [removeComments_eq_kept, copies_outline.cons q c cs h, kept_char, removeComments_eq_kept]
    rfl

/-- A line comment goes up to the end of its line. -/
theorem lineOutline_append {text cs : List Char} (htext : '\n' ∉ text)
    (hcs : ∀ c, cs.head? = some c → c = '\n') :
    lineOutline (text ++ cs) = outline .outside cs := by
  induction text with
  | nil =>
    cases cs with
    | nil => rfl
    | cons c cs =>
      cases hcs c rfl
      rw [List.nil_append, lineOutline, if_pos rfl, copies_outline.cons _ _ _ (by simp)]
      rfl
  | cons c text ih =>
    rw [List.mem_cons, not_or] at htext
    rw [List.cons_append, lineOutline, if_neg fun hc => htext.1 hc.symm, ih htext.2]

/-- The line ends of a text. -/
def lineEnds (cs : List Char) : List Char := cs.filter (· == '\n')

/-- The line ends of a text, character by character. -/
theorem lineEnds_cons (c : Char) (cs : List Char) :
    lineEnds (c :: cs) = if c = '\n' then c :: lineEnds cs else lineEnds cs := by
  rw [lineEnds, List.filter_cons]
  simp only [beq_iff_eq]
  rfl

/-- Line ends are line ends. -/
theorem eq_of_mem_lineEnds {text : List Char} {c : Char} (h : c ∈ lineEnds text) : c = '\n' := by
  simpa using (List.mem_filter.mp h).2

/-- A block comment goes on as long as its end mark has not come, and keeps line ends. -/
theorem blockOutline_append {text rest : List Char} (h : ¬ ['*', '/'] <:+: text)
    (hrest : rest.head? ≠ some '/') :
    blockOutline (text ++ rest) = (lineEnds text).map .char ++ blockOutline rest := by
  induction text with
  | nil => rfl
  | cons c text ih =>
    have hend : ∀ cs, c = '*' → text ++ rest = '/' :: cs → False := by
      rintro cs rfl heq
      cases text with
      | nil =>
        rw [List.nil_append] at heq
        rw [heq] at hrest
        exact hrest rfl
      | cons d text =>
        cases heq
        exact h ⟨[], text, rfl⟩
    have ih := ih fun hinside => h (hinside.trans (List.suffix_cons c text).isInfix)
    rw [List.cons_append, blockOutline.eq_3 _ _ hend, ih, lineEnds_cons]
    split <;> rfl

/-- A line comment ends before its line end, or with the text. -/
theorem outline_line {text cs : List Char} (htext : '\n' ∉ text)
    (hcs : ∀ c, cs.head? = some c → c = '\n') :
    outline .outside ('/' :: '/' :: (text ++ cs)) = .comment :: outline .outside cs := by
  rw [outline, lineOutline_append htext hcs]

/-- A block comment ends at the first mark that closes it; its line ends are characters of the
outline. -/
theorem outline_block {text : List Char} (h : ¬ ['*', '/'] <:+: text) (cs : List Char) :
    outline .outside ('/' :: '*' :: (text ++ '*' :: '/' :: cs)) =
      (lineEnds text).map .char ++ .comment :: outline .outside cs := by
  rw [outline, blockOutline_append h (by simp), blockOutline]

/-- A block comment that is never closed takes the rest of the text. -/
theorem outline_unclosed {text : List Char} (h : ¬ ['*', '/'] <:+: text) :
    outline .outside ('/' :: '*' :: text) = (lineEnds text).map .char ++ [.unclosed] := by
  have hblock : blockOutline (text ++ []) = _ := blockOutline_append h (by simp)
  rw [List.append_nil] at hblock
  rw [outline, hblock, blockOutline]

/-- A text either has an end mark for block comments, and then a first one, or it has none. -/
theorem exists_first_end (cs : List Char) :
    (∃ text rest, cs = text ++ '*' :: '/' :: rest ∧ ¬ ['*', '/'] <:+: text) ∨
      ¬ ['*', '/'] <:+: cs := by
  induction cs with
  | nil => exact .inr (by simp)
  | cons c cs ih =>
    by_cases hend : ['*', '/'] <+: c :: cs
    · obtain ⟨rest, hrest⟩ := hend
      exact .inl ⟨[], rest, hrest.symm, by simp⟩
    · rcases ih with ⟨text, rest, rfl, htext⟩ | hnone
      · refine .inl ⟨c :: text, rest, rfl, fun hinside => ?_⟩
        rcases List.infix_cons_iff.mp hinside with hstarts | hinside
        · exact hend (hstarts.trans ⟨'*' :: '/' :: rest, rfl⟩)
        · exact htext hinside
      · refine .inr fun hinside => ?_
        rcases List.infix_cons_iff.mp hinside with hstarts | hinside
        · exact hend hstarts
        · exact hnone hinside

/-- How a text begins: with a comment or with a character. -/
inductive Beginning : List Char → Prop
  | nil : Beginning []
  | line {text cs : List Char} (htext : '\n' ∉ text) (hcs : ∀ c, cs.head? = some c → c = '\n') :
      Beginning ('/' :: '/' :: (text ++ cs))
  | block {text cs : List Char} (htext : ¬ ['*', '/'] <:+: text) :
      Beginning ('/' :: '*' :: (text ++ '*' :: '/' :: cs))
  | unclosed {text : List Char} (htext : ¬ ['*', '/'] <:+: text) : Beginning ('/' :: '*' :: text)
  | char {c : Char} {cs : List Char}
      (h : outline .outside (c :: cs) = .char c :: outline (Quoting.outside.next c) cs) :
      Beginning (c :: cs)

/-- Every text begins in one of the ways that `Beginning` lists. -/
theorem beginning (cs : List Char) : Beginning cs := by
  cases cs with
  | nil => exact .nil
  | cons c cs =>
    by_cases hline : ['/', '/'] <+: c :: cs
    · obtain ⟨rest, hrest⟩ := hline
      rw [← hrest, List.cons_append, List.cons_append, List.nil_append,
        ← List.takeWhile_append_dropWhile (p := (· != '\n')) (l := rest)]
      refine .line ?_ ?_
      · intro hmem
        have hne := List.all_eq_true.mp List.all_takeWhile _ hmem
        simp at hne
      · intro d hd
        have hhead := List.head?_dropWhile_not (· != '\n') rest
        rw [hd] at hhead
        simpa using hhead
    by_cases hblock : ['/', '*'] <+: c :: cs
    · obtain ⟨rest, hrest⟩ := hblock
      rw [← hrest, List.cons_append, List.cons_append, List.nil_append]
      rcases exists_first_end rest with ⟨text, tail, rfl, htext⟩ | hnone
      · exact .block htext
      · exact .unclosed hnone
    · refine .char (outline.eq_3 _ _ _ ?_ ?_)
      · rintro rest _ rfl rfl
        exact hline ⟨rest, rfl⟩
      · rintro rest _ rfl rfl
        exact hblock ⟨rest, rfl⟩

/-- A text that has the given tokens with white space and comments before, between and after them.
A line comment goes up to the end of its line or of the text, a block comment up to the first end
mark. -/
inductive Layout : List Token → List Char → Prop
  | nil : Layout [] []
  | space {c : Char} {ts : List Token} {cs : List Char} (hc : isSpace c = true) (h : Layout ts cs) :
      Layout ts (c :: cs)
  | line {text : List Char} {ts : List Token} {cs : List Char} (htext : '\n' ∉ text)
      (hcs : ∀ c, cs.head? = some c → c = '\n') (h : Layout ts cs) :
      Layout ts ('/' :: '/' :: (text ++ cs))
  | block {text : List Char} {ts : List Token} {cs : List Char} (htext : ¬ ['*', '/'] <:+: text)
      (h : Layout ts cs) : Layout ts ('/' :: '*' :: (text ++ '*' :: '/' :: cs))
  | token {t : Token} {w : List Char} {ts : List Token} {cs : List Char} (hw : Spells t w)
      (h : Layout ts cs) : Layout (t :: ts) (w ++ cs)

/-- Tokens with white space between them are a layout without comments. -/
theorem Token.Lexes.layout {ts : List Token} {cs : List Char} (h : Lexes ts cs) : Layout ts cs := by
  induction h with
  | nil => exact .nil
  | space hc _ ih => exact .space hc ih
  | token hw _ _ ih => exact .token hw ih

/-- White space is a character of the outline. -/
theorem outline_space {c : Char} (h : isSpace c = true) (cs : List Char) :
    outline .outside (c :: cs) = .char c :: outline .outside cs :=
  copies_outline.space rfl h cs

/-- The characters of a token are characters of the outline, also if they look like comments. -/
theorem outline_spells {t : Token} {w : List Char} (h : Spells t w) (cs : List Char) :
    outline .outside (w ++ cs) = w.map .char ++ outline .outside cs := by
  refine copies_outline.spelled h (fun hmem => ?_) cs
  rcases h.cases_of_mem hmem with hstring | hmark | hword
  · exact hstring
  · cases hmark
  · cases hword.2.2

/-- Line ends end the word before them; without any, what follows has to. -/
theorem breaks_lineEnds {text cs : List Char} (h : lineEnds text = [] → Breaks cs) :
    Breaks (lineEnds text ++ cs) := by
  cases hends : lineEnds text with
  | nil => exact h hends
  | cons c rest =>
    have hmem : c ∈ lineEnds text := by simp [hends]
    intro d hd
    cases hd
    rw [eq_of_mem_lineEnds hmem]
    rfl

/-- Line ends are white space to the lexer. -/
theorem lex_lineEnds (text cs : List Char) : lex (lineEnds text ++ cs) = lex cs := by
  induction text with
  | nil => rfl
  | cons c text ih =>
    rw [lineEnds_cons]
    split
    · next hc => rw [List.cons_append, lex_space (by rw [hc]; rfl), ih]
    · exact ih

/-- No two words stand one after the other. -/
def WordsApart (ts : List Token) : Prop :=
  ts.IsChain fun t u => ¬ (t.isWord = true ∧ u.isWord = true)

/-- Words stay apart when the first token is left out. -/
theorem WordsApart.tail {t : Token} {ts : List Token} (h : WordsApart (t :: ts)) : WordsApart ts :=
  (List.isChain_cons.mp h).2

/-- What comes after a word is no word. -/
theorem WordsApart.next {t : Token} {ts : List Token} (h : WordsApart (t :: ts))
    (ht : t.isWord = true) : ts.head?.any isWord = false := by
  cases ts with
  | nil => rfl
  | cons u ts =>
    have hnot := (List.isChain_cons.mp h).1 u rfl
    simpa [ht] using hnot

namespace Layout

/-- Where no word comes next, a word is not continued after the comments are removed. -/
theorem breaks {ts : List Token} {cs : List Char} (h : Layout ts cs)
    (hhead : ts.head?.any isWord = false) : Breaks (kept (outline .outside cs)) := by
  induction h with
  | nil => exact breaks_nil
  | @space c ts cs hc h ih =>
    rw [outline_space hc, kept_char]
    intro d hd
    cases hd
    exact endsWord_of_isSpace hc
  | line htext hcs _ ih =>
    rw [outline_line htext hcs, kept_comment]
    exact ih hhead
  | block htext _ ih =>
    rw [outline_block htext, kept_append, kept_map_char, kept_comment]
    exact breaks_lineEnds fun _ => ih hhead
  | token hw _ _ =>
    rw [outline_spells hw, kept_append, kept_map_char]
    exact breaks_spells hw (by simpa using hhead) _

/-- Without its comments, the text has the same tokens. -/
theorem lexes {ts : List Token} {cs : List Char} (h : Layout ts cs)
    (hwords : WordsApart ts) : Lexes ts (kept (outline .outside cs)) := by
  induction h with
  | nil => exact .nil
  | space hc _ ih =>
    rw [outline_space hc, kept_char]
    exact .space hc (ih hwords)
  | line htext hcs _ ih =>
    rw [outline_line htext hcs, kept_comment]
    exact ih hwords
  | block htext _ ih =>
    rw [outline_block htext, kept_append, kept_map_char, kept_comment, lexes_iff, lex_lineEnds]
    exact lexes_iff.mp (ih hwords)
  | @token t w ts cs hw h ih =>
    rw [outline_spells hw, kept_append, kept_map_char]
    exact .token hw (fun ht => h.breaks (hwords.next ht)) (ih hwords.tail)

/-- Every block comment of a layout is closed. -/
theorem unclosed_notMem {ts : List Token} {cs : List Char} (h : Layout ts cs) :
    .unclosed ∉ outline .outside cs := by
  induction h with
  | nil => exact List.not_mem_nil
  | space hc _ ih =>
    rw [outline_space hc]
    simpa using ih
  | line htext hcs _ ih =>
    rw [outline_line htext hcs]
    simpa using ih
  | block htext _ ih =>
    rw [outline_block htext]
    simpa using ih
  | token hw _ ih =>
    rw [outline_spells hw]
    simpa using ih

end Layout

/-- No comment stands between two characters of a word. -/
def Unsplit (ps : List Part) : Prop :=
  ∀ before after c d, ps = before ++ .comment :: after → (kept before).getLast? = some c →
    (kept after).head? = some d → endsWord c = true ∨ endsWord d = true

/-- Whether the part at a place is no comment or one that does not stand inside a word. -/
def unsplitAt (ps : List Part) (i : Nat) : Bool :=
  ps[i]? != some .comment || (kept (ps.take i)).getLast?.all fun c =>
    (kept (ps.drop (i + 1))).head?.all fun d => endsWord c || endsWord d

/-- The test at one place says that a comment there divides no word. -/
theorem unsplitAt_eq_true_iff {ps : List Part} {i : Nat} :
    unsplitAt ps i = true ↔ (ps[i]? = some .comment → ∀ c d, (kept (ps.take i)).getLast? = some c →
      (kept (ps.drop (i + 1))).head? = some d → endsWord c = true ∨ endsWord d = true) := by
  rw [unsplitAt, Bool.or_eq_true, bne_iff_ne, ne_eq, ← Decidable.imp_iff_not_or]
  simp only [Option.all_eq_true, Bool.or_eq_true]
  exact ⟨fun h hcomment c d hc hd => h hcomment c hc d hd,
    fun h hcomment c hc d hd => h hcomment c d hc hd⟩

/-- No word is divided if the test succeeds at all places. -/
theorem unsplit_iff {ps : List Part} :
    Unsplit ps ↔ (List.range ps.length).all (unsplitAt ps) = true := by
  simp only [List.all_eq_true, List.mem_range, unsplitAt_eq_true_iff]
  constructor
  · intro h i hi hcomment c d hc hd
    obtain ⟨_, hget⟩ := List.getElem?_eq_some_iff.mp hcomment
    refine h (ps.take i) (ps.drop (i + 1)) c d ?_ hc hd
    rw [← hget, List.getElem_cons_drop, List.take_append_drop]
  · rintro h before after c d rfl hc hd
    refine h before.length (by simp) (by simp) c d ?_ ?_
    · rw [List.take_left]
      exact hc
    · rw [← List.drop_drop, List.drop_left]
      exact hd

instance (ps : List Part) : Decidable (Unsplit ps) := decidable_of_iff _ unsplit_iff.symm

namespace Unsplit

/-- Nothing is divided where there is nothing. -/
theorem nil : Unsplit [] := by
  intro before after c d h
  cases before <;> cases h

/-- No word is divided in the rest of an outline if none is in the whole. -/
theorem of_append (ps : List Part) {qs : List Part} (h : Unsplit (ps ++ qs)) : Unsplit qs := by
  intro before after c d heq hc hd
  refine h (ps ++ before) after c d (by rw [heq, List.append_assoc]) ?_ hd
  rw [kept_append, List.getLast?_append, hc]
  rfl

/-- A comment at the beginning divides no word. -/
theorem comment {ps : List Part} (h : Unsplit ps) : Unsplit (.comment :: ps) := by
  intro before after c d heq hc hd
  cases before with
  | nil => cases hc
  | cons p before =>
    cases heq
    exact h before after c d rfl hc hd

/-- Characters may be put in front of what does not go on with a word, or if the last of them does
not end inside one. -/
theorem chars {ps : List Part} (h : Unsplit ps) {w : List Char}
    (hlast : ∀ c, w.getLast? = some c → endsWord c = true ∨ Breaks (kept ps)) :
    Unsplit (w.map .char ++ ps) := by
  intro before after c d heq hc hd
  obtain ⟨rest, rfl, hps⟩ :
      ∃ rest, before = w.map .char ++ rest ∧ ps = rest ++ .comment :: after := by
    rcases List.append_eq_append_iff.mp heq with ⟨rest, hbefore, hps⟩ | ⟨rest, hw, hafter⟩
    · exact ⟨rest, hbefore, hps⟩
    · cases rest with
      | nil => exact ⟨[], by simpa using hw.symm, hafter.symm⟩
      | cons p rest =>
        cases hafter
        have hmem : Part.comment ∈ w.map Part.char := by simp [hw]
        simp at hmem
  rw [kept_append, kept_map_char, List.getLast?_append] at hc
  cases hkept : (kept rest).getLast? with
  | some e =>
    rw [hkept] at hc
    cases hc
    exact h rest after c d hps hkept hd
  | none =>
    rw [hkept, Option.none_or] at hc
    rcases hlast c hc with hends | hbreaks
    · exact .inl hends
    · right
      apply hbreaks
      rw [hps, kept_append, kept_comment, List.getLast?_eq_none_iff.mp hkept, List.nil_append, hd]

end Unsplit

/-- A token that is no word ends with a character that ends words. -/
theorem getLast?_spells {t : Token} {w : List Char} (h : Spells t w) (hword : t.isWord = false)
    {c : Char} (hc : w.getLast? = some c) : endsWord c = true := by
  cases h with
  | mark hmark =>
    rw [List.getLast?_singleton] at hc
    cases hc
    rw [endsWord, hmark, Option.isSome_some, Bool.or_true]
  | word hne hcs ht hvalid =>
    rw [isWord_of_ofWord ht hvalid] at hword
    cases hword
  | @string ps body hbody =>
    rw [← List.cons_append, List.getLast?_concat] at hc
    cases hc
    rfl

/-- No comment of a layout stands inside a word. -/
theorem Layout.unsplit {ts : List Token} {cs : List Char} (h : Layout ts cs)
    (hwords : WordsApart ts) : Unsplit (outline .outside cs) := by
  induction h with
  | nil => exact .nil
  | @space c ts cs hc h ih =>
    rw [outline_space hc]
    refine (ih hwords).chars (w := [c]) fun d hd => ?_
    cases hd
    exact .inl (endsWord_of_isSpace hc)
  | line htext hcs _ ih =>
    rw [outline_line htext hcs]
    exact (ih hwords).comment
  | @block text ts cs htext h ih =>
    rw [outline_block htext]
    refine (ih hwords).comment.chars fun c hc => .inl ?_
    rw [eq_of_mem_lineEnds (List.mem_of_getLast? hc)]
    rfl
  | @token t w ts cs hw h ih =>
    rw [outline_spells hw]
    refine (ih hwords.tail).chars fun c hc => ?_
    cases ht : t.isWord with
    | false => exact .inl (getLast?_spells hw ht hc)
    | true => exact .inr (h.breaks (hwords.next ht))

/-- After a word and a comment, the word does not go on. -/
theorem Unsplit.breaks {c : Char} (text : List Char) {ps : List Part}
    (h : Unsplit (.char c :: ((lineEnds text).map .char ++ .comment :: ps)))
    (hc : endsWord c = false) : Breaks (lineEnds text ++ kept ps) := by
  refine breaks_lineEnds fun hends d hd => ?_
  rw [hends] at h
  have hor := h [.char c] ps c d rfl rfl hd
  rw [hc] at hor
  exact hor.resolve_left Bool.false_ne_true

/-- A word of the text without comments was a word of the text, if no comment stands inside it. -/
theorem exists_of_removeComments_word {c : Char} {w cs out : List Char} (hc : endsWord c = false)
    (hw : ∀ d ∈ w, endsWord d = false) (h : removeComments .outside cs = w ++ out)
    (hunsplit : Unsplit (.char c :: outline .outside cs)) :
    ∃ rest, cs = w ++ rest ∧ removeComments .outside rest = out := by
  induction w generalizing c cs with
  | nil => exact ⟨cs, rfl, h⟩
  | cons d w ih =>
    rw [List.forall_mem_cons] at hw
    have hgoes : ¬ Breaks (kept (outline .outside cs)) := by
      intro hbreaks
      have hd := hbreaks d (by rw [← removeComments_eq_kept, h]; rfl)
      rw [hw.1] at hd
      cases hd
    cases beginning cs with
    | nil => exact absurd breaks_nil hgoes
    | @line text cs htext hcs =>
      rw [outline_line htext hcs] at hunsplit hgoes
      exact absurd (hunsplit.breaks [] hc) hgoes
    | @block text cs htext =>
      rw [outline_block htext] at hunsplit hgoes
      rw [kept_append, kept_map_char, kept_comment] at hgoes
      exact absurd (hunsplit.breaks text hc) hgoes
    | @unclosed text htext =>
      rw [outline_unclosed htext, kept_append, kept_map_char] at hgoes
      exact absurd (breaks_lineEnds fun _ => breaks_nil) hgoes
    | @char e cs hchar =>
      have hkept : e = d ∧ removeComments (Quoting.outside.next e) cs = w ++ out := by
        rw [removeComments_eq_kept, hchar, kept_char, ← removeComments_eq_kept] at h
        exact List.cons.inj h
      obtain ⟨rfl, hrest⟩ := hkept
      have hquote : e ≠ '"' := by
        rintro rfl
        cases hw.1
      rw [Quoting.next, if_neg hquote] at hrest hchar
      rw [hchar] at hunsplit
      obtain ⟨rest, rfl, hout⟩ := ih hw.1 hw.2 hrest (hunsplit.of_append [.char c])
      exact ⟨rest, rfl, hout⟩

/-- A character outside comments that is no white space begins a token of the text. -/
theorem exists_token {c : Char} {cs : List Char}
    (hchar : outline .outside (c :: cs) = .char c :: outline (Quoting.outside.next c) cs)
    (hspace : isSpace c = false) (hvalid : .invalid ∉ lex (removeComments .outside (c :: cs)))
    (hunsplit : Unsplit (outline .outside (c :: cs))) :
    ∃ t w rest, c :: cs = w ++ rest ∧ Spells t w ∧
      (t.isWord = true → Breaks (removeComments .outside rest)) := by
  have hkept : removeComments .outside (c :: cs) =
      c :: removeComments (Quoting.outside.next c) cs := by
    rw [removeComments_eq_kept, hchar, kept_char, ← removeComments_eq_kept]
  rw [hkept] at hvalid
  rcases cases_start c with hc | rfl | ⟨t, hmark⟩ | hword
  · rw [hspace] at hc
    cases hc
  · have htext : .invalid ∉ lexFrom (.text []) (removeComments .inside cs) := hvalid
    obtain ⟨ps, body, out, hout, hbody⟩ := exists_of_lexFrom_text htext
    obtain ⟨rest, rfl, _⟩ := copies_removeComments.exists_of_pieces hbody hout
    exact ⟨.string ps, '"' :: (body ++ ['"']), rest, by simp, .string hbody, by simp [isWord]⟩
  · exact ⟨t, [c], cs, rfl, .mark hmark, by simp [isWord_of_punctuation? hmark]⟩
  · have hquote : c ≠ '"' := by
      rintro rfl
      cases hword
    rw [Quoting.next, if_neg hquote] at hchar hvalid
    rw [hchar] at hunsplit
    obtain ⟨w, out, hsplit, hne, hw, hofWord, hbreaks⟩ := exists_word hword hvalid
    cases w with
    | nil => exact absurd rfl hne
    | cons d w =>
      obtain ⟨rfl, htail⟩ := List.cons.inj hsplit
      rw [List.forall_mem_cons] at hw
      obtain ⟨rest, rfl, rfl⟩ := exists_of_removeComments_word hw.1 hw.2 htail hunsplit
      have hspells : Spells (ofWord (c :: w)) (c :: w) :=
        .word hne (List.forall_mem_cons.mpr hw) rfl hofWord
      exact ⟨_, c :: w, rest, rfl, hspells, fun _ => hbreaks⟩

/-- A text whose comments are closed and stand between tokens is built up from the tokens that it
has without them. -/
theorem layout_of_outline {cs : List Char} (hvalid : .invalid ∉ lex (removeComments .outside cs))
    (hclosed : .unclosed ∉ outline .outside cs) (hunsplit : Unsplit (outline .outside cs)) :
    Layout (lex (removeComments .outside cs)) cs := by
  -- What stands first is put in front of the layout of the rest, so the induction is on the length.
  induction hn : cs.length using Nat.strongRecOn generalizing cs with
  | ind n ih =>
    subst hn
    cases beginning cs with
    | nil => exact .nil
    | @line text cs htext hcs =>
      rw [removeComments_eq_kept, outline_line htext hcs, kept_comment,
        ← removeComments_eq_kept] at hvalid ⊢
      rw [outline_line htext hcs] at hclosed hunsplit
      refine .line htext hcs (ih _ ?_ hvalid ?_ (hunsplit.of_append [.comment]) rfl)
      · simp only [List.length_cons, List.length_append]
        omega
      · exact fun hmem => hclosed (List.mem_cons_of_mem _ hmem)
    | @block text cs htext =>
      rw [removeComments_eq_kept, outline_block htext, kept_append, kept_map_char, kept_comment,
        lex_lineEnds, ← removeComments_eq_kept] at hvalid ⊢
      rw [outline_block htext] at hclosed hunsplit
      refine .block htext (ih _ ?_ hvalid ?_ ?_ rfl)
      · simp only [List.length_cons, List.length_append]
        omega
      · exact fun hmem => hclosed (List.mem_append_right _ (List.mem_cons_of_mem _ hmem))
      · exact (hunsplit.of_append _).of_append [.comment]
    | @unclosed text htext =>
      rw [outline_unclosed htext] at hclosed
      exact absurd (by simp) hclosed
    | @char c cs hchar =>
      cases hspace : isSpace c with
      | true =>
        rw [removeComments_eq_kept, outline_space hspace, kept_char, lex_space hspace,
          ← removeComments_eq_kept] at hvalid ⊢
        rw [outline_space hspace] at hclosed hunsplit
        refine .space hspace (ih _ (by simp) hvalid ?_ (hunsplit.of_append [.char c]) rfl)
        exact fun hmem => hclosed (List.mem_cons_of_mem _ hmem)
      | false =>
        obtain ⟨t, w, rest, hsplit, hw, hbreaks⟩ := exists_token hchar hspace hvalid hunsplit
        have hlex : lex (removeComments .outside (w ++ rest)) =
            t :: lex (removeComments .outside rest) := by
          rw [removeComments_eq_kept, outline_spells hw, kept_append, kept_map_char,
            ← removeComments_eq_kept]
          exact lexFrom_spells hw hbreaks
        rw [hsplit, hlex] at hvalid
        rw [hsplit, outline_spells hw] at hclosed hunsplit
        rw [hsplit, hlex]
        have hpos := List.length_pos_iff.mpr hw.ne_nil
        refine .token hw (ih _ ?_ ?_ ?_ (hunsplit.of_append _) rfl)
        · rw [hsplit, List.length_append]
          omega
        · exact fun hmem => hvalid (List.mem_cons_of_mem _ hmem)
        · exact fun hmem => hclosed (List.mem_append_right _ hmem)

end ClassContract
