import ClassContract.Config.Commented
import Mathlib.Data.List.Forall2

/-!
# Lines of texts with comments

The JSON text of a configuration is a part of the configuration, line by line. Comments and commas
are removed without their line ends, so that a text and what is left of it are cut into lines at the
same places: `Thinned.forall₂_lines`. Nothing is put in the place of a comment, but no two characters
that come together in this way begin a comment, and the strings stay where they are. So removing
comments a second time changes nothing: `removeComments_eq_self_iff`.
-/

namespace ClassContract

/-- Where the next character stands after a text. -/
def Quoting.after (q : Quoting) (cs : List Char) : Quoting := cs.foldl Quoting.next q

/-- A text that begins like a comment. -/
def OpensComment (cs : List Char) : Prop := ['/', '/'] <+: cs ∨ ['/', '*'] <+: cs

/-- A text in which no comment begins outside strings. -/
def Uncommented (q : Quoting) (cs : List Char) : Prop :=
  ∀ before rest, cs = before ++ rest → q.after before = .outside → ¬ OpensComment rest

/-- A comment opens with a slash and one of two characters behind it. -/
theorem opensComment_cons {c : Char} {cs : List Char} :
    OpensComment (c :: cs) ↔ c = '/' ∧ (cs.head? = some '/' ∨ cs.head? = some '*') := by
  unfold OpensComment
  cases cs with
  | nil => simp
  | cons d cs => grind

/-- No comment begins in the empty text. -/
theorem uncommented_nil (q : Quoting) : Uncommented q [] := by
  intro before rest heq _ hopens
  obtain ⟨-, rfl⟩ := List.nil_eq_append_iff.mp heq
  simp [OpensComment] at hopens

/-- No comment begins in a text if none begins at its first character and none later. -/
theorem uncommented_cons {q : Quoting} {c : Char} {cs : List Char} :
    Uncommented q (c :: cs) ↔
      (q = .outside → ¬ OpensComment (c :: cs)) ∧ Uncommented (q.next c) cs := by
  constructor
  · intro h
    exact ⟨h [] (c :: cs) rfl, fun before rest heq => h (c :: before) rest (by rw [heq]; rfl)⟩
  · rintro ⟨hhead, htail⟩ before rest heq
    cases before with
    | nil =>
      rw [show rest = c :: cs from heq.symm]
      exact hhead
    | cons d before =>
      cases heq
      exact htail before rest rfl

/-- A character that begins no comment is kept. -/
theorem removeComments_cons {q : Quoting} {c : Char} {cs : List Char}
    (h : q = .outside → ¬ OpensComment (c :: cs)) :
    removeComments q (c :: cs) = c :: removeComments (q.next c) cs := by
  apply removeComments.eq_3
  · rintro rest hq rfl rfl
    exact h hq (.inl ⟨rest, rfl⟩)
  · rintro rest hq rfl rfl
    exact h hq (.inr ⟨rest, rfl⟩)

/-- A slash that is kept is followed by the same character as before, so that no comment begins with
it afterwards. -/
theorem not_opensComment_removeComments {c : Char} {cs : List Char}
    (h : ¬ OpensComment (c :: cs)) :
    ¬ OpensComment (c :: removeComments (Quoting.outside.next c) cs) := by
  rw [opensComment_cons] at h ⊢
  rintro ⟨rfl, hhead⟩
  have hslash : Quoting.outside.next '/' = .outside := rfl
  rw [hslash] at hhead
  cases cs with
  | nil => simp [removeComments] at hhead
  | cons d ds =>
    have hd : d ≠ '/' ∧ d ≠ '*' := by simpa using h
    have hplain : ¬ OpensComment (d :: ds) := fun hopens => hd.1 (opensComment_cons.mp hopens).1
    rw [removeComments_cons fun _ => hplain] at hhead
    simp [hd] at hhead

/-- No comment begins in what is left. -/
theorem uncommented_removeComments (q : Quoting) (cs : List Char) :
    Uncommented q (removeComments q cs) := by
  have hline : ∀ {rest : List Char}, Uncommented .outside rest →
      Uncommented .outside ('\n' :: rest) :=
    fun hrest => uncommented_cons.mpr
      ⟨fun _ hopens => absurd (opensComment_cons.mp hopens).1 (by decide), hrest⟩
  refine removeComments.induct (fun q cs => Uncommented q (removeComments q cs))
    (fun cs => Uncommented .outside (afterBlock cs))
    (fun cs => Uncommented .outside (afterLine cs)) ?_ ?_ ?_ ?_ ?_ ?_ ?_ ?_ ?_ ?_ ?_ q cs
  · intro cs ih
    rwa [removeComments]
  · intro cs ih
    rwa [removeComments]
  · intro q c cs hslash hstar ih
    have hopens : q = .outside → ¬ OpensComment (c :: cs) := by
      rintro hq (⟨rest, heq⟩ | ⟨rest, heq⟩)
      · cases heq
        exact hslash _ hq rfl rfl
      · cases heq
        exact hstar _ hq rfl rfl
    rw [removeComments_cons hopens]
    refine uncommented_cons.mpr ⟨?_, ih⟩
    rintro rfl
    exact not_opensComment_removeComments (hopens rfl)
  · intro q
    rw [removeComments]
    exact uncommented_nil q
  · exact uncommented_nil _
  · intro cs ih
    rwa [afterBlock]
  · intro cs hend ih
    rw [afterBlock.eq_3 _ _ hend, if_pos rfl]
    exact hline ih
  · intro c cs hend hc ih
    rwa [afterBlock.eq_3 _ _ hend, if_neg hc]
  · exact uncommented_nil _
  · intro cs ih
    rw [afterLine, if_pos rfl]
    exact hline ih
  · intro c cs hc ih
    rwa [afterLine, if_neg hc]

/-- A text is left as it is exactly if it has no comments. -/
theorem removeComments_eq_self_iff {q : Quoting} {cs : List Char} :
    removeComments q cs = cs ↔ Uncommented q cs := by
  constructor
  · intro h
    rw [← h]
    exact uncommented_removeComments q cs
  · intro h
    induction cs generalizing q with
    | nil => rw [removeComments]
    | cons c cs ih =>
      obtain ⟨hhead, htail⟩ := uncommented_cons.mp h
      rw [removeComments_cons hhead, ih htail]

/-- The lines of a text. -/
def lines (cs : List Char) : List (List Char) := cs.splitOn '\n'

/-- A line end opens a line; any other character belongs to the first line. -/
theorem lines_cons (c : Char) (cs : List Char) :
    lines (c :: cs) = if c = '\n' then [] :: lines cs else (lines cs).modifyHead (c :: ·) := by
  rw [lines, List.splitOn_cons_eq_if_modifyHead]
  simp only [beq_iff_eq]
  rfl

/-- Lines that are parts of others stay so when the first ones change alike. -/
theorem forall₂_modifyHead {l l' : List (List Char)} {f g : List Char → List Char}
    (hfg : ∀ {a b : List Char}, a.Sublist b → (f a).Sublist (g b))
    (hl : List.Forall₂ List.Sublist l l') :
    List.Forall₂ List.Sublist (l.modifyHead f) (l'.modifyHead g) := by
  cases hl with
  | nil => exact .nil
  | cons hhead htail => exact .cons (hfg hhead) htail

/-- The second text is the first one with some characters left out, but no line ends. -/
structure Thinned (cs ds : List Char) : Prop where
  /-- What is left is in order. -/
  sublist : ds.Sublist cs
  /-- All line ends are there. -/
  count : ds.count '\n' = cs.count '\n'

namespace Thinned

variable {cs ds es : List Char} {c : Char}

/-- Nothing is left out of nothing. -/
theorem nil : Thinned [] [] := ⟨.slnil, rfl⟩

/-- A character is kept. -/
theorem keep (c : Char) (h : Thinned cs ds) : Thinned (c :: cs) (c :: ds) where
  sublist := h.sublist.cons_cons c
  count := by rw [List.count_cons, List.count_cons, h.count]

/-- A character that is no line end is left out. -/
theorem skip (hc : c ≠ '\n') (h : Thinned cs ds) : Thinned (c :: cs) ds where
  sublist := h.sublist.cons c
  count := by rw [List.count_cons_of_ne hc, h.count]

/-- A text may be thinned in two steps. -/
theorem trans (h : Thinned cs ds) (h' : Thinned ds es) : Thinned cs es where
  sublist := h'.sublist.trans h.sublist
  count := h'.count.trans h.count

/-- A character left out is no line end. -/
theorem of_skip (hsub : ds.Sublist cs) (h : ds.count '\n' = (c :: cs).count '\n') :
    c ≠ '\n' ∧ Thinned cs ds := by
  have hle := hsub.count_le '\n'
  by_cases hc : c = '\n'
  · subst hc
    rw [List.count_cons_self] at h
    omega
  · rw [List.count_cons_of_ne hc] at h
    exact ⟨hc, hsub, h⟩

/-- Every line is thinned for itself. -/
theorem forall₂_lines (h : Thinned cs ds) :
    List.Forall₂ List.Sublist (lines ds) (lines cs) := by
  obtain ⟨hsub, hcount⟩ := h
  induction hsub with
  | slnil => exact .cons .slnil .nil
  | @cons ds cs c hsub ih =>
    obtain ⟨hc, hthin⟩ := of_skip hsub hcount
    rw [lines_cons, if_neg hc]
    have hskip := forall₂_modifyHead (f := id) (g := (c :: ·)) (fun hab => hab.cons c)
      (ih hthin.count)
    simpa using hskip
  | @cons_cons ds cs c hsub ih =>
    rw [List.count_cons, List.count_cons] at hcount
    have ih := ih (Nat.add_right_cancel hcount)
    rw [lines_cons, lines_cons]
    split
    · exact .cons .slnil ih
    · exact forall₂_modifyHead (fun hab => hab.cons_cons c) ih

/-- Every line that is left is a part of the line with the same number. -/
theorem getElem?_lines (h : Thinned cs ds) {k : Nat} {line : List Char}
    (hk : (lines ds)[k]? = some line) :
    ∃ full, (lines cs)[k]? = some full ∧ line.Sublist full := by
  obtain ⟨hlength, hget⟩ := List.forall₂_iff_get.mp h.forall₂_lines
  obtain ⟨hlt, rfl⟩ := List.getElem?_eq_some_iff.mp hk
  have hlt' := hlength ▸ hlt
  exact ⟨_, List.getElem?_eq_getElem hlt', hget k hlt hlt'⟩

/-- Wherever a thinned text is cut, the text it comes from can be cut with as many line ends before
the cut. -/
theorem exists_cut (h : Thinned cs ds) {before rest : List Char} (hds : ds = before ++ rest) :
    ∃ before' rest', cs = before' ++ rest' ∧ Thinned before' before ∧ Thinned rest' rest := by
  subst hds
  obtain ⟨before', rest', rfl, hbefore, hrest⟩ := List.append_sublist_iff.mp h.sublist
  have hcount := h.count
  rw [List.count_append, List.count_append] at hcount
  have hle := hbefore.count_le '\n'
  have hle' := hrest.count_le '\n'
  exact ⟨before', rest', rfl, ⟨hbefore, by omega⟩, hrest, by omega⟩

end Thinned

/-- Removing comments leaves all line ends. -/
theorem thinned_removeComments (q : Quoting) (cs : List Char) :
    Thinned cs (removeComments q cs) := by
  have hslash : '/' ≠ '\n' := by decide
  have hstar : '*' ≠ '\n' := by decide
  refine removeComments.induct (fun q cs => Thinned cs (removeComments q cs))
    (fun cs => Thinned cs (afterBlock cs)) (fun cs => Thinned cs (afterLine cs))
    ?_ ?_ ?_ ?_ ?_ ?_ ?_ ?_ ?_ ?_ ?_ q cs
  · intro cs ih
    rw [removeComments]
    exact .skip hslash (.skip hslash ih)
  · intro cs ih
    rw [removeComments]
    exact .skip hslash (.skip hstar ih)
  · intro q c cs hline hblock ih
    rw [removeComments.eq_3 _ _ _ hline hblock]
    exact ih.keep c
  · intro q
    rw [removeComments]
    exact .nil
  · exact .nil
  · intro cs ih
    rw [afterBlock]
    exact .skip hstar (.skip hslash ih)
  · intro cs hend ih
    rw [afterBlock.eq_3 _ _ hend, if_pos rfl]
    exact ih.keep _
  · intro c cs hend hc ih
    rw [afterBlock.eq_3 _ _ hend, if_neg hc]
    exact .skip hc ih
  · exact .nil
  · intro cs ih
    rw [afterLine, if_pos rfl]
    exact ih.keep _
  · intro c cs hc ih
    rw [afterLine, if_neg hc]
    exact .skip hc ih

/-- Removing commas leaves all line ends. -/
theorem thinned_removeTrailingCommas (q : Quoting) (cs : List Char) :
    Thinned cs (removeTrailingCommas q cs) := by
  induction cs generalizing q with
  | nil =>
    rw [removeTrailingCommas]
    exact .nil
  | cons c cs ih =>
    rw [removeTrailingCommas]
    split
    · next h =>
      simp only [Bool.and_eq_true, beq_iff_eq] at h
      obtain ⟨⟨_, rfl⟩, _⟩ := h
      exact .skip (by decide) (ih .outside)
    · exact (ih (q.next c)).keep c

/-- Removing comments and then commas leaves all line ends. -/
theorem thinned_plainJson (cs : List Char) : Thinned cs (plainJson cs) :=
  (thinned_removeComments .outside cs).trans (thinned_removeTrailingCommas .outside _)

/-- Comments are removed once and for all, and none begins in what is left outside of strings. The
JSON text of a text has as many line ends, every line of it is a part of the line with the same
number, and up to any place in it there are as many line ends as up to the place in the text that it
comes from. -/
theorem plainJson_line_by_line (cs : List Char) :
    removeComments .outside (removeComments .outside cs) = removeComments .outside cs
      ∧ Uncommented .outside (removeComments .outside cs)
      ∧ (plainJson cs).count '\n' = cs.count '\n'
      ∧ (∀ (k : Nat) (line : List Char), (lines (plainJson cs))[k]? = some line →
        ∃ full, (lines cs)[k]? = some full ∧ line.Sublist full)
      ∧ ∀ before rest, plainJson cs = before ++ rest →
        ∃ before' rest', cs = before' ++ rest' ∧ before.Sublist before' ∧ rest.Sublist rest'
          ∧ before.count '\n' = before'.count '\n' := by
  have hnone := uncommented_removeComments .outside cs
  have hthin := thinned_plainJson cs
  refine ⟨removeComments_eq_self_iff.mpr hnone, hnone, hthin.count,
    fun k line hk => hthin.getElem?_lines hk, fun before rest hcut => ?_⟩
  obtain ⟨before', rest', hcs, hbefore, hrest⟩ := hthin.exists_cut hcut
  exact ⟨before', rest', hcs, hbefore.sublist, hrest.sublist, hbefore.count⟩

/-- A text of two lines: a string with a comment mark in it, a comma before a bracket, and between
them a comment over the end of the line. -/
def markedText : List Char := "[\"//\",/*\n*/]// *".toList

/-- The bracket on the second line of the text stays on the second line. -/
theorem markedText_second_line :
    plainJson markedText = "[\"//\"\n]".toList
      ∧ (lines (plainJson markedText))[1]? = some [']']
      ∧ ∃ full, (lines markedText)[1]? = some full ∧ [']'].Sublist full := by
  have hsecond : (lines (plainJson markedText))[1]? = some [']'] := by decide
  obtain ⟨_, _, _, hlines, _⟩ := plainJson_line_by_line markedText
  exact ⟨by decide, hsecond, hlines 1 [']'] hsecond⟩

end ClassContract
