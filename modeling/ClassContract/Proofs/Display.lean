import ClassContract.MemberType.Text
import ClassContract.Proofs.Assignability
import ClassContract.Proofs.PlainText
import ClassContract.Proofs.TypeFormat
import Mathlib.Data.List.Nodup

/-!
# The text of a type determines the type

Texts of types have no brackets around unions and none around functions unless they are members of
a union. Where unions are flat and have two members or more, names are identifiers and string
literals hold no quote, they are read in one way only, but for one word: `inf` is the text of a
number and may be the name of a class. `text_eq_iff_of_displayable` says that this is all.

The proof follows the texts of types without that number from left to right. A type ends at a comma,
a parenthesis or the end of the text, a member of a union also at a blank; with such a rest behind
it, the text of a type fixes both the type and the rest (`Readable`). In all other types the number
gives way to the class of the same text (`namingInfinity`).
-/

namespace ClassContract

/-- A character of a name. All characters beyond ASCII are allowed, and so the letters of every
script. -/
def isNameChar (c : Char) : Bool := c.isAlphanum || c == '_' || c == '$' || 128 ≤ c.toNat

/-- One or more characters of a name, the first of them no digit. -/
def isIdentifier : List Char → Bool
  | [] => false
  | c :: cs => !c.isDigit && (c :: cs).all isNameChar

/-- The words that are no names. -/
def reservedWords : List String := "true" :: "false" :: Keyword.all.map Keyword.word

/-- Whether a text can be the name of a class. -/
def isClassName (s : String) : Bool := isIdentifier s.toList && !reservedWords.contains s

/-- Characters of different kinds are different. -/
theorem ne_of_kind {p : Char → Bool} {c d : Char} (hc : p c = true) (hd : p d = false) : c ≠ d := by
  rintro rfl
  rw [hc] at hd
  cases hd

/-- A text that ends or goes on with a character of the given kind. -/
def GoesOn (p : Char → Bool) (r : List Char) : Prop := ∀ c, r.head? = some c → p c = true

/-- A text may end anywhere. -/
theorem goesOn_nil (p : Char → Bool) : GoesOn p [] := by
  intro c hc
  cases hc

/-- A text goes on with its first character. -/
theorem goesOn_cons {p : Char → Bool} {c : Char} (h : p c = true) (r : List Char) :
    GoesOn p (c :: r) := by
  intro d hd
  cases hd
  exact h

/-- A text that goes on with one kind of character goes on with any larger kind. -/
theorem GoesOn.mono {p q : Char → Bool} {r : List Char} (hr : GoesOn p r)
    (h : ∀ c, p c = true → q c = true) : GoesOn q r := fun c hc => h c (hr c hc)

/-- Two runs of one kind of character are equal where none of them goes on. -/
theorem append_inj_of_goesOn {p : Char → Bool} {xs ys r s : List Char}
    (hx : ∀ c ∈ xs, p c = true) (hy : ∀ c ∈ ys, p c = true) (hr : GoesOn (fun c => !p c) r)
    (hs : GoesOn (fun c => !p c) s) (h : xs ++ r = ys ++ s) : xs = ys ∧ r = s := by
  induction xs generalizing ys with
  | nil =>
    cases ys with
    | nil => exact ⟨rfl, h⟩
    | cons y ys =>
      rw [List.nil_append, List.cons_append] at h
      have hstop : (!p y) = true := hr y (by rw [h]; rfl)
      rw [hy y List.mem_cons_self] at hstop
      cases hstop
  | cons x xs ih =>
    cases ys with
    | nil =>
      rw [List.nil_append, List.cons_append] at h
      have hstop : (!p x) = true := hs x (by rw [← h]; rfl)
      rw [hx x List.mem_cons_self] at hstop
      cases hstop
    | cons y ys =>
      obtain ⟨hhead, htail⟩ := List.cons.inj h
      obtain ⟨htails, hrest⟩ := ih (fun c hc => hx c (List.mem_cons_of_mem _ hc))
        (fun c hc => hy c (List.mem_cons_of_mem _ hc)) htail
      exact ⟨by rw [hhead, htails], hrest⟩

/-- The characters that end a type. -/
def endsType (c : Char) : Bool := c == ',' || c == ')'

/-- The characters that end a member of a union. -/
def endsPart (c : Char) : Bool := c == ' ' || endsType c

/-- There are three characters that end a member of a union. -/
theorem endsPart_cases {c : Char} (h : endsPart c = true) : c = ' ' ∨ c = ',' ∨ c = ')' := by
  simpa [endsPart, endsType] using h

/-- What ends a type ends a member of a union. -/
theorem GoesOn.endsPart {r : List Char} (h : GoesOn endsType r) : GoesOn endsPart r :=
  h.mono fun c hc => by rw [ClassContract.endsPart, hc, Bool.or_true]

/-- What ends a member of a union is in no name. -/
theorem not_isNameChar_of_endsPart (c : Char) (h : endsPart c = true) :
    (!isNameChar c) = true := by
  rcases endsPart_cases h with rfl | rfl | rfl <;> rfl

/-- A character of a word or of a number. -/
def isBareChar (c : Char) : Bool := isNameChar c || isNumberChar c

/-- What ends a member of a union is in no word and in no number. -/
theorem not_isBareChar_of_endsPart (c : Char) (h : endsPart c = true) :
    (!isBareChar c) = true := by
  rcases endsPart_cases h with rfl | rfl | rfl <;> rfl

/-- The text of a double is made of characters of words and numbers. -/
theorem Double.isBareChar_of_mem_text (x : Double) {c : Char} (hc : c ∈ x.text.toList) :
    isBareChar c = true := by
  cases x with
  | finite x => rw [isBareChar, x.isNumberChar_of_mem_text hc, Bool.or_true]
  | infinite negative =>
    have hall : (Double.infinite negative).text.toList.all isBareChar = true := by
      cases negative <;> decide
    exact List.all_eq_true.mp hall c hc

/-- All doubles but the positive infinity begin like numbers. -/
theorem Double.exists_text_eq_cons {x : Double} (hx : x ≠ .infinite false) :
    ∃ c rest, x.text.toList = c :: rest ∧ isNumberChar c = true := by
  cases x with
  | finite x =>
    obtain ⟨c, rest, htext⟩ := List.exists_cons_of_ne_nil x.toList_text_ne_nil
    exact ⟨c, rest, htext, x.isNumberChar_of_mem_text (htext ▸ List.mem_cons_self)⟩
  | infinite negative =>
    cases negative with
    | false => exact absurd rfl hx
    | true => exact ⟨'-', ['i', 'n', 'f'], by decide, rfl⟩

namespace MemberType

mutual

/-- Types that can nearly be told apart by their texts: unions are flat and have two members or more,
names are names of classes, string literals hold no quote. -/
def isDisplayable : MemberType → Bool
  | .keyword _ => true
  | .literal (.string s) => !s.toList.contains '"'
  | .literal _ => true
  | .named name => isClassName name
  | .union ms => decide (2 ≤ ms.length) && !ms.any isUnion && allDisplayable ms
  | .function ps r => allDisplayable ps && isDisplayable r

/-- All types of a list are displayable. -/
def allDisplayable : List MemberType → Bool
  | [] => true
  | t :: ts => isDisplayable t && allDisplayable ts

end

/-- The test of a list tests all its types. -/
theorem allDisplayable_iff {ts : List MemberType} :
    allDisplayable ts = true ↔ ∀ t ∈ ts, t.isDisplayable = true := by
  induction ts with
  | nil => simp [allDisplayable]
  | cons t ts ih => rw [allDisplayable, Bool.and_eq_true, ih, List.forall_mem_cons]

/-- A union is displayable if it has two members or more, which are displayable and no unions. -/
theorem isDisplayable_union_iff {ms : List MemberType} :
    (union ms).isDisplayable = true ↔
      2 ≤ ms.length ∧ ∀ m ∈ ms, m.isDisplayable = true ∧ m.isUnion = false := by
  rw [isDisplayable, Bool.and_eq_true, Bool.and_eq_true, decide_eq_true_iff, allDisplayable_iff,
    Bool.not_eq_true', List.any_eq_false, and_assoc]
  refine and_congr_right fun _ => ⟨fun h m hm => ⟨h.2 m hm, ?_⟩, fun h => ⟨?_, ?_⟩⟩
  · exact Bool.eq_false_iff.mpr (h.1 m hm)
  · exact fun m hm => Bool.eq_false_iff.mp (h m hm).2
  · exact fun m hm => (h m hm).1

/-- A function is displayable if its parameters and its result are. -/
theorem isDisplayable_function_iff {ps : List MemberType} {r : MemberType} :
    (function ps r).isDisplayable = true ↔
      (∀ p ∈ ps, p.isDisplayable = true) ∧ r.isDisplayable = true := by
  rw [isDisplayable, Bool.and_eq_true, allDisplayable_iff]

/-- A displayable type without the number whose text is a word. -/
structure IsPlain (t : MemberType) : Prop where
  /-- The type is displayable. -/
  displayable : t.isDisplayable = true
  /-- None of its numbers is the positive infinity. -/
  numbers_ne : ∀ x ∈ t.numbers, x ≠ .infinite false

/-- A plain type that can be a member of a union. -/
def IsPart (t : MemberType) : Prop := t.IsPlain ∧ t.isUnion = false

/-- The numbers of a union have a property if those of its members do. -/
theorem forall_mem_numbers_union {p : Double → Prop} {ms : List MemberType} :
    (∀ x ∈ (union ms).numbers, p x) ↔ ∀ m ∈ ms, ∀ x ∈ m.numbers, p x := by
  rw [numbers, listNumbers_eq_flatMap, List.forall_mem_flatMap]

/-- The numbers of a function have a property if those of its parameters and its result do. -/
theorem forall_mem_numbers_function {p : Double → Prop} {ps : List MemberType} {r : MemberType} :
    (∀ x ∈ (function ps r).numbers, p x) ↔
      (∀ q ∈ ps, ∀ x ∈ q.numbers, p x) ∧ ∀ x ∈ r.numbers, p x := by
  rw [numbers, listNumbers_eq_flatMap, List.forall_mem_append, List.forall_mem_flatMap]

/-- A union is plain if it has two members or more, which are plain and no unions. -/
theorem isPlain_union_iff {ms : List MemberType} :
    (union ms).IsPlain ↔ 2 ≤ ms.length ∧ ∀ m ∈ ms, m.IsPart := by
  constructor
  · intro h
    obtain ⟨hlength, hms⟩ := isDisplayable_union_iff.mp h.displayable
    have hnumbers := forall_mem_numbers_union.mp h.numbers_ne
    exact ⟨hlength, fun m hm => ⟨⟨(hms m hm).1, hnumbers m hm⟩, (hms m hm).2⟩⟩
  · rintro ⟨hlength, hms⟩
    refine ⟨isDisplayable_union_iff.mpr ⟨hlength, fun m hm => ?_⟩, ?_⟩
    · exact ⟨(hms m hm).1.displayable, (hms m hm).2⟩
    · exact forall_mem_numbers_union.mpr fun m hm => (hms m hm).1.numbers_ne

/-- A function is plain if its parameters and its result are. -/
theorem isPlain_function_iff {ps : List MemberType} {r : MemberType} :
    (function ps r).IsPlain ↔ (∀ p ∈ ps, p.IsPlain) ∧ r.IsPlain := by
  constructor
  · intro h
    obtain ⟨hps, hr⟩ := isDisplayable_function_iff.mp h.displayable
    obtain ⟨hnumbers, hnumbers'⟩ := forall_mem_numbers_function.mp h.numbers_ne
    exact ⟨fun p hp => ⟨hps p hp, hnumbers p hp⟩, hr, hnumbers'⟩
  · rintro ⟨hps, hr⟩
    refine ⟨isDisplayable_function_iff.mpr ⟨fun p hp => (hps p hp).displayable, hr.displayable⟩, ?_⟩
    exact forall_mem_numbers_function.mpr ⟨fun p hp => (hps p hp).numbers_ne, hr.numbers_ne⟩

/-- A plain number literal is not the positive infinity. -/
theorem IsPlain.number_ne {x : Double} (h : (literal (.number x)).IsPlain) : x ≠ .infinite false :=
  h.numbers_ne x List.mem_cons_self

/-- The characters of the text of a type. -/
def chars (t : MemberType) : List Char := t.text.toList

/-- The characters of a member of a union: functions stand in parentheses. -/
def part (t : MemberType) : List Char := if t.isFunction then '(' :: (t.chars ++ [')']) else t.chars

/-- The characters of further members of a union. -/
def moreParts : List MemberType → List Char
  | [] => []
  | t :: ts => ' ' :: '|' :: ' ' :: (t.part ++ moreParts ts)

/-- What stands before the type of a parameter. -/
def label (i : Nat) : List Char := 'a' :: 'r' :: 'g' :: ((Nat.repr i).toList ++ [':', ' '])

/-- The characters of further parameters, numbered from `i` on. -/
def moreParams (i : Nat) : List MemberType → List Char
  | [] => []
  | t :: ts => ',' :: ' ' :: (label i ++ (t.chars ++ moreParams (i + 1) ts))

/-- The characters of all parameters. -/
def allParams : List MemberType → List Char
  | [] => []
  | t :: ts => label 0 ++ (t.chars ++ moreParams 1 ts)

/-- The text of a member of a union as characters. -/
theorem toList_partText (t : MemberType) :
    (if t.isFunction then parenthesized (text t) else text t).toList = t.part := by
  rw [part]
  split
  · simp [parenthesized, chars]
  · rfl

/-- The text of a union is that of its first member and of all further ones. -/
theorem toList_unionText_cons (t : MemberType) (ts : List MemberType) :
    (unionText (t :: ts)).toList = t.part ++ moreParts ts := by
  induction ts generalizing t with
  | nil => rw [unionText, toList_partText, moreParts, List.append_nil]
  | cons u ts ih =>
    rw [unionText, String.toList_append, String.toList_append, toList_partText, ih, moreParts]
    simp

/-- The text of parameters is that of the first one and of all further ones. -/
theorem toList_paramsText_cons (i : Nat) (t : MemberType) (ts : List MemberType) :
    (paramsText i (t :: ts)).toList = label i ++ (t.chars ++ moreParams (i + 1) ts) := by
  induction ts generalizing i t with
  | nil => simp [paramsText, label, moreParams, chars]
  | cons u ts ih => simp [paramsText, label, moreParams, chars, ih]

/-- The characters of a union are those of its members with bars between them. -/
theorem chars_union_cons (t : MemberType) (ts : List MemberType) :
    (union (t :: ts)).chars = t.part ++ moreParts ts := by
  rw [chars, text, toList_unionText_cons]

/-- The characters of a function are those of its parameters in parentheses, an arrow and those of
its result. -/
theorem chars_function (ps : List MemberType) (r : MemberType) :
    (function ps r).chars =
      '(' :: (allParams ps ++ (')' :: ' ' :: '=' :: '>' :: ' ' :: r.chars)) := by
  cases ps with
  | nil => simp [chars, text, paramsText, allParams]
  | cons t ts =>
    rw [chars, text, String.toList_append, String.toList_append, String.toList_append,
      toList_paramsText_cons, allParams]
    simp [chars]

/-- Members of a union that are no functions stand without parentheses. -/
theorem part_of_not_isFunction {t : MemberType} (h : t.isFunction = false) : t.part = t.chars := by
  rw [part, h, if_neg Bool.false_ne_true]

/-- Functions in a union stand in parentheses. -/
theorem part_function (ps : List MemberType) (r : MemberType) :
    (function ps r).part = '(' :: ((function ps r).chars ++ [')']) := rfl

/-- The kinds of first characters. -/
inductive Opening
  | word
  | number
  | quote
  | paren

/-- The kind of a first character. -/
def openingOf (c : Char) : Opening :=
  if c = '(' then .paren else if c = '"' then .quote else if isNumberChar c then .number else .word

/-- How a member of a union begins. -/
def opening : MemberType → Opening
  | .literal (.string _) => .quote
  | .literal (.number _) => .number
  | .function _ _ => .paren
  | _ => .word

/-- Of the members of a union only numbers begin like numbers. -/
theorem exists_number_of_opening {t : MemberType} (ho : t.opening = .number) :
    ∃ x, t = literal (.number x) := by
  cases t with
  | literal l =>
    cases l with
    | number x => exact ⟨x, rfl⟩
    | string | boolean => cases ho
  | keyword | named | union | function => cases ho

/-- Of the members of a union only string literals begin with a quote. -/
theorem exists_string_of_opening {t : MemberType} (ho : t.opening = .quote) :
    ∃ s, t = literal (.string s) := by
  cases t with
  | literal l =>
    cases l with
    | string s => exact ⟨s, rfl⟩
    | number | boolean => cases ho
  | keyword | named | union | function => cases ho

/-- Of the members of a union only functions begin with a parenthesis. -/
theorem exists_function_of_opening {t : MemberType} (ho : t.opening = .paren) :
    ∃ ps r, t = function ps r := by
  cases t with
  | function ps r => exact ⟨ps, r, rfl⟩
  | literal l => cases l <;> cases ho
  | keyword | named | union => cases ho

/-- The types whose texts are reserved words. -/
def reservedTypes : List MemberType :=
  .literal (.boolean true) :: .literal (.boolean false) :: Keyword.all.map keyword

/-- The reserved types are written as the reserved words. -/
theorem map_text_reservedTypes : reservedTypes.map text = reservedWords := rfl

/-- All keywords are reserved. -/
theorem keyword_mem_reservedTypes (k : Keyword) : keyword k ∈ reservedTypes := by
  have hall : k ∈ Keyword.all := by cases k <;> decide
  exact List.mem_cons_of_mem _ (List.mem_cons_of_mem _ (List.mem_map_of_mem hall))

/-- Both truth values are reserved. -/
theorem boolean_mem_reservedTypes (b : Bool) : literal (.boolean b) ∈ reservedTypes := by
  cases b with
  | true => exact List.mem_cons_self
  | false => exact List.mem_cons_of_mem _ List.mem_cons_self

/-- A type that begins like a word is a reserved one or a class. -/
theorem reserved_or_named {t : MemberType} (ht : t.IsPart) (ho : t.opening = .word) :
    t ∈ reservedTypes ∨ ∃ name, t = named name ∧ isClassName name = true := by
  cases t with
  | keyword k => exact .inl (keyword_mem_reservedTypes k)
  | literal l =>
    cases l with
    | string s => cases ho
    | number x => cases ho
    | boolean b => exact .inl (boolean_mem_reservedTypes b)
  | named name => exact .inr ⟨name, rfl, by rw [← ht.1.displayable, isDisplayable]⟩
  | union ms => cases ht.2
  | function ps r => cases ho

/-- A function does not begin like a word. -/
theorem isFunction_of_opening_word {t : MemberType} (ho : t.opening = .word) :
    t.isFunction = false := by
  cases t with
  | function ps r => cases ho
  | keyword | literal | named | union => rfl

/-- Reserved words are made like names. -/
theorem isIdentifier_of_mem_reservedWords {w : String} (h : w ∈ reservedWords) :
    isIdentifier w.toList = true := by
  have hall : reservedWords.all (fun w => isIdentifier w.toList) = true := by decide
  exact List.all_eq_true.mp hall w h

/-- A type that begins like a word is written like a name. -/
theorem isIdentifier_chars {t : MemberType} (ht : t.IsPart) (ho : t.opening = .word) :
    isIdentifier t.chars = true := by
  rcases reserved_or_named ht ho with hmem | ⟨name, rfl, hname⟩
  · exact isIdentifier_of_mem_reservedWords (map_text_reservedTypes ▸ List.mem_map_of_mem hmem)
  · rw [isClassName, Bool.and_eq_true] at hname
    rw [chars, text]
    exact hname.1

/-- Names are made of characters of names. -/
theorem isNameChar_of_isIdentifier {cs : List Char} (h : isIdentifier cs = true) :
    ∀ c ∈ cs, isNameChar c = true := by
  cases cs with
  | nil => cases h
  | cons c cs =>
    rw [isIdentifier, Bool.and_eq_true] at h
    exact List.all_eq_true.mp h.2

/-- The first character of a word is neither a bracket nor a quote nor one of a number. -/
theorem openingOf_of_isIdentifier {c : Char} {cs : List Char} (h : isIdentifier (c :: cs) = true) :
    openingOf c = .word := by
  have hname : isNameChar c = true := isNameChar_of_isIdentifier h c List.mem_cons_self
  have hdigit : c.isDigit = false := by
    rw [isIdentifier, Bool.and_eq_true, Bool.not_eq_true'] at h
    exact h.1
  have hnumber : isNumberChar c = false := by
    simp [isNumberChar, hdigit, ne_of_kind hname (d := '.') rfl, ne_of_kind hname (d := '-') rfl]
  rw [openingOf, if_neg (ne_of_kind hname rfl), if_neg (ne_of_kind hname rfl), hnumber,
    if_neg Bool.false_ne_true]

/-- The first character of a number tells that it is one. -/
theorem openingOf_of_isNumberChar {c : Char} (h : isNumberChar c = true) :
    openingOf c = .number := by
  rw [openingOf, if_neg (ne_of_kind h rfl), if_neg (ne_of_kind h rfl), if_pos h]

/-- A string literal is written between quotes. -/
theorem chars_string (s : String) : (literal (.string s)).chars = '"' :: (s.toList ++ ['"']) := by
  simp [chars, text, Literal.text]

/-- A number literal is written as the text of the number. -/
theorem chars_number (x : Double) : (literal (.number x)).chars = x.text.toList := rfl

/-- The first character of a member of a union. -/
theorem exists_part_eq_cons {t : MemberType} (ht : t.IsPart) :
    ∃ c rest, t.part = c :: rest ∧ openingOf c = t.opening := by
  cases ho : t.opening with
  | word =>
    have hword := isIdentifier_chars ht ho
    rw [part_of_not_isFunction (isFunction_of_opening_word ho)]
    cases hchars : t.chars with
    | nil =>
      rw [hchars] at hword
      cases hword
    | cons c rest => exact ⟨c, rest, rfl, openingOf_of_isIdentifier (hchars ▸ hword)⟩
  | number =>
    obtain ⟨x, rfl⟩ := exists_number_of_opening ho
    obtain ⟨c, rest, htext, hc⟩ := Double.exists_text_eq_cons ht.1.number_ne
    rw [part_of_not_isFunction rfl, chars_number, htext]
    exact ⟨c, rest, rfl, openingOf_of_isNumberChar hc⟩
  | quote =>
    obtain ⟨s, rfl⟩ := exists_string_of_opening ho
    rw [part_of_not_isFunction rfl, chars_string]
    exact ⟨_, _, rfl, rfl⟩
  | paren =>
    obtain ⟨ps, r, rfl⟩ := exists_function_of_opening ho
    exact ⟨_, _, part_function ps r, rfl⟩

/-- The text of the type, with a rest behind it that does not continue a type, is read in one way
only. -/
def Readable (t : MemberType) : Prop :=
  ∀ {u : MemberType} {r s : List Char}, u.IsPlain → GoesOn endsType r →
    GoesOn endsType s → t.chars ++ r = u.chars ++ s → t = u ∧ r = s

/-- Every reserved word is listed once. -/
theorem nodup_reservedWords : reservedWords.Nodup := by decide

/-- A reserved word is not the name of a class. -/
theorem text_ne_of_isClassName {t : MemberType} {name : String} (ht : t ∈ reservedTypes)
    (hname : isClassName name = true) : t.text ≠ name := by
  rintro rfl
  have hmem : t.text ∈ reservedWords := map_text_reservedTypes ▸ List.mem_map_of_mem ht
  rw [isClassName, List.contains_iff_mem.mpr hmem, Bool.not_true, Bool.and_false] at hname
  cases hname

/-- Types that begin like words are equal if their texts are. -/
theorem eq_of_word_text {t u : MemberType} (ht : t.IsPart) (hu : u.IsPart)
    (hto : t.opening = .word) (huo : u.opening = .word) (h : t.text = u.text) : t = u := by
  rcases reserved_or_named ht hto with hmem | ⟨name, rfl, hname⟩ <;>
    rcases reserved_or_named hu huo with hmem' | ⟨name', rfl, hname'⟩
  · have hnodup : (reservedTypes.map text).Nodup := map_text_reservedTypes ▸ nodup_reservedWords
    exact List.inj_on_of_nodup_map hnodup hmem hmem' h
  · rw [text] at h
    exact absurd h (text_ne_of_isClassName hmem hname')
  · rw [text] at h
    exact absurd h.symm (text_ne_of_isClassName hmem' hname)
  · rw [text, text] at h
    rw [h]

/-- Where two members of unions stand at one place, they begin alike. -/
theorem opening_eq_of_part {t u : MemberType} (ht : t.IsPart) (hu : u.IsPart) {r s : List Char}
    (h : t.part ++ r = u.part ++ s) : u.opening = t.opening := by
  obtain ⟨c, rest, hpart, hc⟩ := exists_part_eq_cons ht
  obtain ⟨d, rest', hpart', hd⟩ := exists_part_eq_cons hu
  rw [hpart, hpart'] at h
  rw [← hc, ← hd, (List.cons.inj h).1]

/-- A displayable string literal holds no quote. -/
theorem ne_quote_of_isPart {a : String} (h : (literal (.string a)).IsPart) :
    ∀ c ∈ a.toList, (c != '"') = true := by
  intro c hc
  have hnot : '"' ∉ a.toList := by simpa [isDisplayable] using h.1.displayable
  exact bne_iff_ne.mpr fun heq => hnot (heq ▸ hc)

/-- A member of a union is read in one way only, if it is a readable function or no function. -/
theorem part_inj {t u : MemberType} (ht : t.IsPart) (hu : u.IsPart)
    (hread : t.isFunction = true → t.Readable) {r s : List Char} (hr : GoesOn endsPart r)
    (hs : GoesOn endsPart s) (h : t.part ++ r = u.part ++ s) : t = u ∧ r = s := by
  have hopening := opening_eq_of_part ht hu h
  cases hto : t.opening with
  | word =>
    have huo := hopening.trans hto
    rw [part_of_not_isFunction (isFunction_of_opening_word hto),
      part_of_not_isFunction (isFunction_of_opening_word huo)] at h
    have hnames := isNameChar_of_isIdentifier (isIdentifier_chars ht hto)
    have hnames' := isNameChar_of_isIdentifier (isIdentifier_chars hu huo)
    obtain ⟨hchars, hrest⟩ := append_inj_of_goesOn hnames hnames'
      (hr.mono not_isNameChar_of_endsPart) (hs.mono not_isNameChar_of_endsPart) h
    exact ⟨eq_of_word_text ht hu hto huo (String.toList_inj.mp hchars), hrest⟩
  | number =>
    obtain ⟨x, rfl⟩ := exists_number_of_opening hto
    obtain ⟨y, rfl⟩ := exists_number_of_opening (hopening.trans hto)
    obtain ⟨hchars, hrest⟩ := append_inj_of_goesOn (fun _ hc => x.isBareChar_of_mem_text hc)
      (fun _ hc => y.isBareChar_of_mem_text hc) (hr.mono not_isBareChar_of_endsPart)
      (hs.mono not_isBareChar_of_endsPart) h
    rw [Double.text_injective (String.toList_inj.mp hchars)]
    exact ⟨rfl, hrest⟩
  | quote =>
    obtain ⟨a, rfl⟩ := exists_string_of_opening hto
    obtain ⟨b, rfl⟩ := exists_string_of_opening (hopening.trans hto)
    rw [part_of_not_isFunction rfl, part_of_not_isFunction rfl, chars_string, chars_string,
      List.cons_append, List.cons_append, List.append_assoc, List.append_assoc] at h
    obtain ⟨hchars, hrest⟩ := append_inj_of_goesOn (ne_quote_of_isPart ht)
      (ne_quote_of_isPart hu) (goesOn_cons rfl r) (goesOn_cons rfl s) (List.cons.inj h).2
    rw [String.toList_inj.mp hchars]
    exact ⟨rfl, (List.cons.inj hrest).2⟩
  | paren =>
    obtain ⟨ps, a, rfl⟩ := exists_function_of_opening hto
    obtain ⟨qs, b, rfl⟩ := exists_function_of_opening (hopening.trans hto)
    rw [part_function, part_function, List.cons_append, List.cons_append, List.append_assoc,
      List.append_assoc] at h
    obtain ⟨heq, hrest⟩ := hread rfl hu.1 (goesOn_cons rfl r) (goesOn_cons rfl s)
      (List.cons.inj h).2
    exact ⟨heq, (List.cons.inj hrest).2⟩

/-- What follows a member of a union ends it. -/
theorem goesOn_moreParts {r : List Char} (hr : GoesOn endsType r) (ms : List MemberType) :
    GoesOn endsPart (moreParts ms ++ r) := by
  cases ms with
  | nil => exact hr.endsPart
  | cons m ms => exact goesOn_cons rfl _

/-- What does not continue a type is not a further member of a union. -/
theorem not_goesOn_moreParts_cons (m : MemberType) (ms : List MemberType) (s : List Char) :
    ¬ GoesOn endsType (moreParts (m :: ms) ++ s) := by
  intro h
  have hblank : endsType ' ' = true := h ' ' rfl
  cases hblank

/-- Further members of a union are read in one way only. -/
theorem moreParts_inj {ms ns : List MemberType}
    (hms : ∀ m ∈ ms, m.IsPart ∧ (m.isFunction = true → m.Readable)) (hns : ∀ n ∈ ns, n.IsPart)
    {r s : List Char} (hr : GoesOn endsType r) (hs : GoesOn endsType s)
    (h : moreParts ms ++ r = moreParts ns ++ s) : ms = ns ∧ r = s := by
  induction ms generalizing ns with
  | nil =>
    cases ns with
    | nil => exact ⟨rfl, h⟩
    | cons n ns =>
      rw [moreParts, List.nil_append] at h
      exact absurd (h ▸ hr) (not_goesOn_moreParts_cons n ns s)
  | cons m ms ih =>
    cases ns with
    | nil => exact absurd (h ▸ hs) (not_goesOn_moreParts_cons m ms r)
    | cons n ns =>
      obtain ⟨hm, hms⟩ := List.forall_mem_cons.mp hms
      obtain ⟨hn, hns⟩ := List.forall_mem_cons.mp hns
      simp only [moreParts, List.cons_append, List.append_assoc, List.cons.injEq, true_and] at h
      obtain ⟨hhead, htail⟩ := part_inj hm.1 hn hm.2 (goesOn_moreParts hr ms)
        (goesOn_moreParts hs ns) h
      obtain ⟨hrest, hend⟩ := ih hms hns htail
      exact ⟨by rw [hhead, hrest], hend⟩

/-- A plain type that is no function is made of one or more members of unions. -/
theorem exists_parts {t : MemberType} (ht : t.IsPlain) (hf : t.isFunction = false) :
    ∃ m ms, t = ofParts (m :: ms) ∧ t.chars = m.part ++ moreParts ms ∧
      ∀ x ∈ m :: ms, x.IsPart ∧ (x.isFunction = true → x.height < t.height) := by
  cases hunion : t.isUnion with
  | false =>
    refine ⟨t, [], rfl, ?_, ?_⟩
    · rw [part_of_not_isFunction hf, moreParts, List.append_nil]
    · intro x hx
      rw [List.mem_singleton.mp hx]
      refine ⟨⟨ht, hunion⟩, fun htrue => ?_⟩
      rw [hf] at htrue
      cases htrue
  | true =>
    cases t with
    | union ns =>
      obtain ⟨hlen, hparts⟩ := isPlain_union_iff.mp ht
      cases ns with
      | nil => cases hlen
      | cons a as =>
        cases as with
        | nil => exact absurd hlen (Nat.lt_irrefl 1)
        | cons b bs =>
          exact ⟨a, b :: bs, rfl, chars_union_cons a (b :: bs),
            fun x hx => ⟨hparts x hx, fun _ => height_lt_of_mem_union hx⟩⟩
    | keyword | literal | named | function => cases hunion

/-- A text that begins with the parameters of a function. -/
def OpensParams (cs : List Char) : Prop := ∃ c rest, cs = '(' :: c :: rest ∧ c ≠ '('

/-- A function begins with its parameters. -/
theorem opensParams_function (ps : List MemberType) (r : MemberType) (s : List Char) :
    OpensParams ((function ps r).chars ++ s) := by
  rw [chars_function]
  cases ps with
  | nil => exact ⟨')', _, rfl, by decide⟩
  | cons p ps => exact ⟨'a', _, rfl, by decide⟩

/-- Only functions begin with their parameters: a function in a union has a parenthesis more. -/
theorem not_opensParams {t : MemberType} (ht : t.IsPlain) (hf : t.isFunction = false)
    (s : List Char) : ¬ OpensParams (t.chars ++ s) := by
  rintro ⟨c, rest, heq, hc⟩
  obtain ⟨m, ms, -, hchars, hparts⟩ := exists_parts ht hf
  have hm := (hparts m List.mem_cons_self).1
  obtain ⟨d, tail, hpart, hd⟩ := exists_part_eq_cons hm
  rw [hchars, hpart] at heq
  have hparen : m.opening = .paren := by
    rw [← hd, (List.cons.inj heq).1]
    rfl
  obtain ⟨ps, r, rfl⟩ := exists_function_of_opening hparen
  rw [part_function, chars_function] at hpart
  rw [← (List.cons.inj hpart).2] at heq
  exact hc (List.cons.inj (List.cons.inj heq).2).1.symm

/-- What follows a parameter ends its type. -/
theorem goesOn_moreParams (i : Nat) (ps : List MemberType) (r : List Char) :
    GoesOn endsType (moreParams i ps ++ ')' :: r) := by
  cases ps with
  | nil => exact goesOn_cons rfl r
  | cons p ps => exact goesOn_cons rfl _

/-- Further parameters are read in one way only. -/
theorem moreParams_inj {ps qs : List MemberType} (hps : ∀ p ∈ ps, p.Readable)
    (hqs : ∀ q ∈ qs, q.IsPlain) {i : Nat} {r s : List Char}
    (h : moreParams i ps ++ ')' :: r = moreParams i qs ++ ')' :: s) : ps = qs ∧ r = s := by
  induction ps generalizing qs i with
  | nil =>
    cases qs with
    | nil => exact ⟨rfl, (List.cons.inj h).2⟩
    | cons q qs => exact absurd (List.cons.inj h).1 (by decide)
  | cons p ps ih =>
    cases qs with
    | nil => exact absurd (List.cons.inj h).1 (by decide)
    | cons q qs =>
      obtain ⟨hp, hps⟩ := List.forall_mem_cons.mp hps
      obtain ⟨hq, hqs⟩ := List.forall_mem_cons.mp hqs
      simp only [moreParams, List.cons_append, List.append_assoc, List.cons.injEq, true_and,
        List.append_cancel_left_eq] at h
      obtain ⟨hhead, htail⟩ := hp hq (goesOn_moreParams _ ps r) (goesOn_moreParams _ qs s) h
      obtain ⟨hrest, hend⟩ := ih hps hqs htail
      exact ⟨by rw [hhead, hrest], hend⟩

/-- Parameters are read in one way only. -/
theorem allParams_inj {ps qs : List MemberType} (hps : ∀ p ∈ ps, p.Readable)
    (hqs : ∀ q ∈ qs, q.IsPlain) {r s : List Char}
    (h : allParams ps ++ ')' :: r = allParams qs ++ ')' :: s) : ps = qs ∧ r = s := by
  cases ps with
  | nil =>
    cases qs with
    | nil => exact ⟨rfl, (List.cons.inj h).2⟩
    | cons q qs => exact absurd (List.cons.inj h).1 (by decide)
  | cons p ps =>
    cases qs with
    | nil => exact absurd (List.cons.inj h).1 (by decide)
    | cons q qs =>
      have hcomma : moreParams 0 (p :: ps) ++ ')' :: r = moreParams 0 (q :: qs) ++ ')' :: s :=
        congrArg (',' :: ' ' :: ·) h
      exact moreParams_inj hps hqs hcomma

/-- A function is readable if its parameters and its result are. -/
theorem readable_function {ps : List MemberType} {a : MemberType} (hps : ∀ p ∈ ps, p.Readable)
    (ha : a.Readable) : (function ps a).Readable := by
  intro u r s hu hr hs h
  cases hf : u.isFunction with
  | false => exact absurd (h ▸ opensParams_function ps a r) (not_opensParams hu hf s)
  | true =>
    cases u with
    | function qs b =>
      obtain ⟨hqs, hb⟩ := isPlain_function_iff.mp hu
      rw [chars_function, chars_function] at h
      simp only [List.cons_append, List.append_assoc, List.cons.injEq, true_and] at h
      obtain ⟨hparams, hresult⟩ := allParams_inj hps hqs h
      simp only [List.cons.injEq, true_and] at hresult
      obtain ⟨hab, hend⟩ := ha hb hr hs hresult
      exact ⟨by rw [hparams, hab], hend⟩
    | keyword | literal | named | union => cases hf

/-- A type that is no function is readable if the functions among its members are. -/
theorem readable_of_parts {t m : MemberType} {ms : List MemberType} (hf : t.isFunction = false)
    (ht : t.IsPlain) (hparts : t = ofParts (m :: ms))
    (hchars : t.chars = m.part ++ moreParts ms)
    (hread : ∀ x ∈ m :: ms, x.IsPart ∧ (x.isFunction = true → x.Readable)) : t.Readable := by
  intro u r s hu hr hs h
  cases hfu : u.isFunction with
  | true =>
    cases u with
    | function qs b => exact absurd (h ▸ opensParams_function qs b s) (not_opensParams ht hf r)
    | keyword | literal | named | union => cases hfu
  | false =>
    obtain ⟨n, ns, hparts', hchars', hns⟩ := exists_parts hu hfu
    obtain ⟨hm, hms⟩ := List.forall_mem_cons.mp hread
    rw [hchars, hchars', List.append_assoc, List.append_assoc] at h
    obtain ⟨hhead, htail⟩ := part_inj hm.1 (hns n List.mem_cons_self).1 hm.2
      (goesOn_moreParts hr ms) (goesOn_moreParts hs ns) h
    obtain ⟨hrest, hend⟩ := moreParts_inj hms
      (fun x hx => (hns x (List.mem_cons_of_mem _ hx)).1) hr hs htail
    exact ⟨by rw [hparts, hparts', hhead, hrest], hend⟩

/-- Every plain type is readable. -/
theorem readable {t : MemberType} (ht : t.IsPlain) : t.Readable := by
  -- The induction is on the height, since the functions inside a union are read by themselves.
  induction hn : t.height using Nat.strongRecOn generalizing t with
  | _ n ih =>
    cases hf : t.isFunction with
    | true =>
      cases t with
      | function ps a =>
        obtain ⟨hps, ha⟩ := isPlain_function_iff.mp ht
        refine readable_function (fun p hp => ?_) ?_
        · exact ih p.height (hn ▸ height_lt_of_mem_params hp a) (hps p hp) rfl
        · exact ih a.height (hn ▸ height_result_lt ps a) ha rfl
      | keyword | literal | named | union => cases hf
    | false =>
      obtain ⟨m, ms, hparts, hchars, hall⟩ := exists_parts ht hf
      refine readable_of_parts hf ht hparts hchars fun x hx => ⟨(hall x hx).1, fun hfx => ?_⟩
      exact ih x.height (hn ▸ (hall x hx).2 hfx) (hall x hx).1.1 rfl

/-- Plain types have one text only if they are one type, number literals with the sign of zero
included. -/
theorem IsPlain.text_inj {t u : MemberType} (ht : t.IsPlain) (hu : u.IsPlain)
    (h : t.text = u.text) : t = u := by
  have hchars : t.chars ++ [] = u.chars ++ [] := by rw [chars, chars, h]
  exact (readable ht hu (goesOn_nil _) (goesOn_nil _) hchars).1

mutual

/-- The type with a class named `inf` in the place of every number literal with this text. -/
def namingInfinity : MemberType → MemberType
  | .literal (.number (.infinite false)) => .named "inf"
  | .union ms => .union (listNamingInfinity ms)
  | .function ps r => .function (listNamingInfinity ps) r.namingInfinity
  | t => t

/-- The types of a list with a class named `inf` in the place of the number. -/
def listNamingInfinity : List MemberType → List MemberType
  | [] => []
  | t :: ts => t.namingInfinity :: listNamingInfinity ts

end

/-- The types of a list change one by one. -/
theorem listNamingInfinity_eq_map (ts : List MemberType) :
    listNamingInfinity ts = ts.map namingInfinity := by
  induction ts with
  | nil => rfl
  | cons t ts ih => rw [listNamingInfinity, ih, List.map_cons]

/-- Any other literal stays as it is. -/
theorem namingInfinity_literal {l : Literal} (h : l ≠ .number (.infinite false)) :
    (literal l).namingInfinity = literal l := by
  rw [namingInfinity]
  · exact fun hl => h (MemberType.literal.inj hl)
  · exact fun _ hl => by cases hl
  · exact fun _ _ hl => by cases hl

/-- What does not tell the class from the number does not tell what a literal becomes from it. -/
theorem apply_namingInfinity_literal {α : Type} (f : MemberType → α)
    (hf : f (.named "inf") = f (.literal (.number (.infinite false)))) (l : Literal) :
    f (literal l).namingInfinity = f (literal l) := by
  by_cases hl : l = .number (.infinite false)
  · rw [hl]
    exact hf
  · rw [namingInfinity_literal hl]

/-- The members of a union change one by one. -/
theorem namingInfinity_union (ms : List MemberType) :
    (union ms).namingInfinity = union (ms.map namingInfinity) := by
  rw [namingInfinity, listNamingInfinity_eq_map]

/-- The parameters and the result of a function change one by one. -/
theorem namingInfinity_function (ps : List MemberType) (r : MemberType) :
    (function ps r).namingInfinity = function (ps.map namingInfinity) r.namingInfinity := by
  rw [namingInfinity, listNamingInfinity_eq_map]

/-- What holds of all types because it passes from the parts of a type to the type. -/
theorem induction {motive : MemberType → Prop} (keyword : ∀ k, motive (.keyword k))
    (literal : ∀ l, motive (.literal l)) (named : ∀ name, motive (.named name))
    (union : ∀ ms, (∀ m ∈ ms, motive m) → motive (.union ms))
    (function : ∀ ps r, (∀ p ∈ ps, motive p) → motive r → motive (.function ps r))
    (t : MemberType) : motive t := by
  induction hn : t.height using Nat.strongRecOn generalizing t with
  | _ n ih =>
    cases t with
    | keyword k => exact keyword k
    | literal l => exact literal l
    | named name => exact named name
    | union ms => exact union ms fun m hm => ih m.height (hn ▸ height_lt_of_mem_union hm) m rfl
    | function ps r =>
      refine function ps r (fun p hp => ?_) (ih r.height (hn ▸ height_result_lt ps r) r rfl)
      exact ih p.height (hn ▸ height_lt_of_mem_params hp r) p rfl

/-- Functions stay functions, and nothing becomes one. -/
theorem isFunction_namingInfinity (t : MemberType) :
    t.namingInfinity.isFunction = t.isFunction := by
  cases t with
  | literal l => exact apply_namingInfinity_literal isFunction rfl l
  | keyword | named | union | function => rfl

/-- Unions stay unions, and nothing becomes one. -/
theorem isUnion_namingInfinity (t : MemberType) : t.namingInfinity.isUnion = t.isUnion := by
  cases t with
  | literal l => exact apply_namingInfinity_literal isUnion rfl l
  | keyword | named | union | function => rfl

/-- The text of a union depends only on the texts of its members and on which are functions. -/
theorem unionText_map_namingInfinity {ms : List MemberType}
    (h : ∀ m ∈ ms, m.namingInfinity.text = m.text) :
    unionText (ms.map namingInfinity) = unionText ms := by
  induction ms with
  | nil => rfl
  | cons m ms ih =>
    obtain ⟨hm, hms⟩ := List.forall_mem_cons.mp h
    cases ms with
    | nil => rw [List.map_cons, List.map_nil, unionText, unionText, isFunction_namingInfinity, hm]
    | cons n ns =>
      have hrest := ih hms
      rw [List.map_cons] at hrest
      rw [List.map_cons, List.map_cons, unionText, unionText, isFunction_namingInfinity, hm, hrest]

/-- The text of parameters depends only on their texts. -/
theorem paramsText_map_namingInfinity {ps : List MemberType}
    (h : ∀ p ∈ ps, p.namingInfinity.text = p.text) (i : Nat) :
    paramsText i (ps.map namingInfinity) = paramsText i ps := by
  induction ps generalizing i with
  | nil => rfl
  | cons p ps ih =>
    obtain ⟨hp, hps⟩ := List.forall_mem_cons.mp h
    cases ps with
    | nil => rw [List.map_cons, List.map_nil, paramsText, paramsText, hp]
    | cons q qs =>
      have hrest := ih hps (i + 1)
      rw [List.map_cons] at hrest
      rw [List.map_cons, List.map_cons, paramsText, paramsText, hp, hrest]

/-- The class and the number have one text, and so have all types with the one or the other. -/
theorem text_namingInfinity (t : MemberType) : t.namingInfinity.text = t.text := by
  induction t using MemberType.induction with
  | keyword k => rfl
  | literal l => exact apply_namingInfinity_literal text rfl l
  | named name => rfl
  | union ms ih => rw [namingInfinity_union, text, text, unionText_map_namingInfinity ih]
  | function ps r ihps ihr =>
    rw [namingInfinity_function, text, text, paramsText_map_namingInfinity ihps, ihr]

/-- The name `inf` can be the name of a class, so that the class is as displayable as the number. -/
theorem isPlain_namingInfinity {t : MemberType} (ht : t.isDisplayable = true) :
    t.namingInfinity.IsPlain := by
  induction t using MemberType.induction with
  | keyword k => exact ⟨ht, fun _ hx => by cases hx⟩
  | literal l =>
    by_cases hl : l = .number (.infinite false)
    · rw [hl]
      exact ⟨by decide, fun _ hx => by cases hx⟩
    · rw [namingInfinity_literal hl]
      refine ⟨ht, fun x hx => ?_⟩
      cases l with
      | number y =>
        cases List.mem_singleton.mp hx
        exact fun hy => hl (by rw [hy])
      | string | boolean => cases hx
  | named name => exact ⟨ht, fun _ hx => by cases hx⟩
  | union ms ih =>
    obtain ⟨hlength, hms⟩ := isDisplayable_union_iff.mp ht
    rw [namingInfinity_union, isPlain_union_iff, List.length_map, List.forall_mem_map]
    refine ⟨hlength, fun m hm => ⟨ih m hm (hms m hm).1, ?_⟩⟩
    rw [isUnion_namingInfinity]
    exact (hms m hm).2
  | function ps r ihps ihr =>
    obtain ⟨hps, hr⟩ := isDisplayable_function_iff.mp ht
    rw [namingInfinity_function, isPlain_function_iff, List.forall_mem_map]
    exact ⟨fun p hp => ihps p hp (hps p hp), ihr hr⟩

/-- A list stays as it is if its types do. -/
theorem map_namingInfinity_eq_self {ts : List MemberType} (h : ∀ t ∈ ts, t.namingInfinity = t) :
    ts.map namingInfinity = ts :=
  calc ts.map namingInfinity = ts.map id := List.map_congr_left h
    _ = ts := List.map_id ts

/-- A type without the number stays as it is. -/
theorem namingInfinity_eq_self {t : MemberType} (h : ∀ x ∈ t.numbers, x ≠ .infinite false) :
    t.namingInfinity = t := by
  induction t using MemberType.induction with
  | keyword k => rfl
  | literal l =>
    refine namingInfinity_literal ?_
    rintro rfl
    exact h _ List.mem_cons_self rfl
  | named name => rfl
  | union ms ih =>
    have hms := forall_mem_numbers_union.mp h
    rw [namingInfinity_union, map_namingInfinity_eq_self fun m hm => ih m hm (hms m hm)]
  | function ps r ihps ihr =>
    obtain ⟨hps, hr⟩ := forall_mem_numbers_function.mp h
    rw [namingInfinity_function, ihr hr,
      map_namingInfinity_eq_self fun p hp => ihps p hp (hps p hp)]

/-- Displayable types have one text exactly if they are one type, number literals with the sign of
zero included, after the number `inf` has been replaced by the class of that name. So the text
determines every displayable type without that number, in particular all with finite numbers only. -/
theorem text_eq_iff_of_displayable {t u : MemberType} (ht : t.isDisplayable = true)
    (hu : u.isDisplayable = true) :
    (t.text = u.text ↔ t.namingInfinity = u.namingInfinity) ∧
      ((∀ x ∈ t.numbers, x ≠ .infinite false) → (∀ x ∈ u.numbers, x ≠ .infinite false) →
        (t.text = u.text ↔ t = u)) := by
  have hnaming : t.text = u.text ↔ t.namingInfinity = u.namingInfinity := by
    rw [← t.text_namingInfinity, ← u.text_namingInfinity]
    exact ⟨(isPlain_namingInfinity ht).text_inj (isPlain_namingInfinity hu), congrArg text⟩
  refine ⟨hnaming, fun hts hus => ?_⟩
  rw [hnaming, namingInfinity_eq_self hts, namingInfinity_eq_self hus]

/-- A function whose result is a union: `(arg0: "a | b", arg1: -inf) => null | Order`. -/
def optionalResult : MemberType :=
  .function [.literal (.string "a | b"), .literal (.number (.infinite true))]
    (.union [.keyword .null, .named "Order"])

/-- A union of a function and a class: `((arg0: "a | b", arg1: -inf) => null) | Order`. -/
def functionOrOrder : MemberType :=
  .union [.function [.literal (.string "a | b"), .literal (.number (.infinite true))]
    (.keyword .null), .named "Order"]

/-- The two readings of `(arg0: "a | b", arg1: -inf) => null | Order` have different texts. -/
theorem text_optionalResult_ne :
    optionalResult.isDisplayable = true ∧ functionOrOrder.isDisplayable = true ∧
      optionalResult.numbers = [.infinite true] ∧ functionOrOrder.numbers = [.infinite true] ∧
      optionalResult.text ≠ functionOrOrder.text := by
  have hresult : optionalResult.isDisplayable = true := by decide
  have hfunction : functionOrOrder.isDisplayable = true := by decide
  have hnumbers : ∀ x ∈ [Double.infinite true], x ≠ .infinite false := by simp
  refine ⟨hresult, hfunction, rfl, rfl, fun h => ?_⟩
  cases ((text_eq_iff_of_displayable hresult hfunction).2 hnumbers hnumbers).mp h

/-- The text `inf` has two readings. -/
theorem text_infinity_eq_named :
    (literal (.number (.infinite false))).isDisplayable = true ∧
      (named "inf").isDisplayable = true ∧
      (literal (.number (.infinite false))).text = (named "inf").text ∧
      literal (.number (.infinite false)) ≠ named "inf" :=
  ⟨rfl, by decide, rfl, fun h => by cases h⟩

-- The text of a union does not show a union among its members.
example : (union [.keyword .null, union [.keyword .void, .keyword .any]]).text =
    (union [.keyword .null, .keyword .void, .keyword .any]).text := by decide

end MemberType

end ClassContract
