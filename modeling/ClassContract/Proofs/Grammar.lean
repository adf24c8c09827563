import Mathlib.Data.List.Chain
import ClassContract.Proofs.Documents

/-!
# The token sequences of values

A token sequence is a complete document only if it is the token sequence of a value, and then it is
read as that value: `ofTokens_eq_iff`. Frames stand for the tokens that were read when they were
opened, so that the tokens read so far and those still to come always make up one sequence.

`Json.phrase_tokens` says which tokens may follow one another in a value. Words never do, a comma
never stands before a closing bracket, and before a closing bracket stands the end of a value or the
opening bracket.
-/

namespace ClassContract

namespace Json

/-- The tokens of items with one more item after them. -/
theorem itemTokens_concat (items : List Json) (v : Json) :
    itemTokens (items ++ [v]) = items.flatMap (fun w => w.tokens ++ [.comma]) ++ v.tokens := by
  induction items with
  | nil => rfl
  | cons w items ih =>
    obtain ⟨x, rest, hrest⟩ := List.exists_cons_of_ne_nil (List.concat_ne_nil v items)
    rw [List.cons_append, hrest, itemTokens, ← hrest, ih, List.flatMap_cons]
    simp only [List.append_assoc, List.cons_append, List.nil_append]

/-- The tokens of members with one more member after them. -/
theorem memberTokens_concat (members : List (List Piece × Json)) (k : List Piece) (v : Json) :
    memberTokens (members ++ [(k, v)]) =
      members.flatMap (fun m => .string m.1 :: .colon :: (m.2.tokens ++ [.comma])) ++
        .string k :: .colon :: v.tokens := by
  induction members with
  | nil => rfl
  | cons m members ih =>
    obtain ⟨m', rest, hrest⟩ := List.exists_cons_of_ne_nil (List.concat_ne_nil (k, v) members)
    rw [List.cons_append, hrest, memberTokens, ← hrest, ih, List.flatMap_cons]
    simp only [List.cons_append, List.append_assoc, List.nil_append]

end Json

namespace Document

/-- The tokens of an open array or object up to its next value. -/
def Frame.opened : Frame → List Token
  | .items before => .openArray :: before.reverse.flatMap fun v => v.tokens ++ [.comma]
  | .members before key =>
    .openObject :: (before.reverse.flatMap
      (fun m => .string m.1 :: .colon :: (m.2.tokens ++ [.comma])) ++ [.string key, .colon])

/-- The tokens of everything that is open, innermost first in the stack. -/
def opened : List Frame → List Token
  | [] => []
  | f :: fs => opened fs ++ f.opened

/-- A document that is complete only as the value of the given tokens. -/
def Read (d : Document) (ts : List Token) : Prop :=
  d.complete = true → ∃ v, d = ⟨some v, true⟩ ∧ v.tokens = ts

/-- Nothing is said of a document that is not complete. -/
theorem read_of_incomplete {d : Document} (h : d.complete = false) (ts : List Token) :
    d.Read ts := by
  intro hcomplete
  rw [h] at hcomplete
  cases hcomplete

/-- A document that breaks off is not complete. -/
theorem complete_brokenBefore (fs : List Frame) : (brokenBefore fs).complete = false := by
  cases fs <;> rfl

/-- The frames and the tokens that are left make up the sequence that is read. -/
theorem read_value (fs : List Frame) (ts : List Token) : (value fs ts).Read (opened fs ++ ts) := by
  refine value.induct (fun fs ts => (value fs ts).Read (opened fs ++ ts))
    (fun fs v ts => (next fs v ts).Read (opened fs ++ (v.tokens ++ ts)))
    ?_ ?_ ?_ ?_ ?_ ?_ ?_ ?_ ?_ ?_ ?_ ?_ ?_ ?_ ?_ ?_ fs ts
  · intro fs ts ih
    rw [value]
    exact ih
  · intro fs b ts ih
    rw [value]
    exact ih
  · intro fs n ts ih
    rw [value]
    exact ih
  · intro fs s ts ih
    rw [value]
    exact ih
  · intro fs ts ih
    rw [value]
    exact ih
  · intro fs ts hts ih
    rw [value.eq_6 _ _ hts]
    rw [opened, List.append_assoc] at ih
    exact ih
  · intro fs ts ih
    rw [value]
    exact ih
  · intro fs k ts ih
    rw [value]
    rw [opened, List.append_assoc] at ih
    exact ih
  · intro fs ts hclose hkey
    rw [value.eq_9 _ _ hclose hkey]
    exact read_of_incomplete rfl _
  · intro ts fs h1 h2 h3 h4 h5 h6 h7 h8 h9
    rw [value.eq_10 _ _ h1 h2 h3 h4 h5 h6 h7 h8 h9]
    exact read_of_incomplete (complete_brokenBefore fs) _
  · intro v ts hcomplete
    rw [next] at hcomplete ⊢
    have hts : ts = [] := List.isEmpty_iff.mp hcomplete
    subst hts
    exact ⟨v, rfl, (List.append_nil v.tokens).symm⟩
  · intro vs fs v ts ih
    rw [next]
    simp only [opened, Frame.opened, List.reverse_cons, List.flatMap_append, List.flatMap_singleton,
      List.append_assoc, List.cons_append, List.nil_append] at ih ⊢
    exact ih
  · intro vs fs v ts ih
    rw [next, List.reverse_cons]
    rw [List.reverse_cons, Json.tokens, Json.itemTokens_concat] at ih
    simp only [opened, Frame.opened, List.append_assoc, List.cons_append, List.nil_append] at ih ⊢
    exact ih
  · intro ms k fs v k' ts ih
    rw [next]
    simp only [opened, Frame.opened, List.reverse_cons, List.flatMap_append, List.flatMap_singleton,
      List.append_assoc, List.cons_append, List.nil_append] at ih ⊢
    exact ih
  · intro ms k fs v ts ih
    rw [next, List.reverse_cons]
    rw [List.reverse_cons, Json.tokens, Json.memberTokens_concat] at ih
    simp only [opened, Frame.opened, List.append_assoc, List.cons_append, List.nil_append] at ih ⊢
    exact ih
  · intro ts fs v h1 h2 h3 h4 h5
    rw [next.eq_6 _ _ _ h1 h2 h3 h4 h5]
    exact read_of_incomplete rfl _

/-- A token sequence is a complete document with a value exactly if it is the sequence of the
value. -/
theorem ofTokens_eq_iff {ts : List Token} {v : Json} :
    ofTokens ts = ⟨some v, true⟩ ↔ ts = v.tokens := by
  constructor
  · intro h
    have hcomplete : (ofTokens ts).complete = true := by rw [h]
    obtain ⟨w, hw, htokens⟩ := read_value [] ts hcomplete
    cases h.symm.trans hw
    exact htokens.symm
  · intro h
    rw [h, ofTokens_tokens]

/-- A complete document has a value. -/
theorem exists_of_complete {ts : List Token} (h : (ofTokens ts).complete = true) :
    ∃ v, ofTokens ts = ⟨some v, true⟩ := by
  obtain ⟨v, hv, _⟩ := read_value [] ts h
  exact ⟨v, hv⟩

end Document

namespace Token

/-- Opening brackets. -/
def opens : Token → Bool
  | .openObject => true
  | .openArray => true
  | _ => false

/-- Closing brackets. -/
def closes : Token → Bool
  | .closeObject => true
  | .closeArray => true
  | _ => false

/-- Tokens that are a value or a key. -/
def isAtom : Token → Bool
  | .string _ => true
  | t => t.isWord

/-- Tokens with which a value may end. -/
def endsValue (t : Token) : Bool := t.isAtom || t.closes

/-- Tokens with which a value may begin. -/
def beginsValue (t : Token) : Bool := t.isAtom || t.opens

/-- Whether a token may stand right after another one in a value. -/
def mayFollow (t u : Token) : Bool :=
  if t.endsValue then u == .comma || u == .colon || u.closes
  else u.beginsValue || (t.opens && u.closes)

/-- Closing brackets are no words. -/
theorem isWord_of_closes {t : Token} (h : t.closes = true) : t.isWord = false := by
  cases t <;> first | rfl | cases h

/-- A value does not end with a comma. -/
theorem ne_comma_of_endsValue {t : Token} (h : t.endsValue = true) : t ≠ .comma := by
  rintro rfl
  cases h

/-- Closing brackets are no commas. -/
theorem ne_comma_of_closes {t : Token} (h : t.closes = true) : t ≠ .comma := by
  rintro rfl
  cases h

/-- A value does not begin with a closing bracket. -/
theorem beginsValue_of_closes {t : Token} (h : t.closes = true) : t.beginsValue = false := by
  cases t <;> first | rfl | cases h

/-- Before a closing bracket stands the end of a value, or its opening bracket. -/
theorem endsValue_of_mayFollow {t u : Token} (h : t.mayFollow u = true) (hu : u.closes = true)
    (ht : t.opens = false) : t.endsValue = true := by
  cases hends : t.endsValue with
  | true => rfl
  | false =>
    rw [mayFollow, hends, if_neg Bool.false_ne_true, ht, beginsValue_of_closes hu] at h
    cases h

/-- No word comes right after a word. -/
theorem isWord_of_mayFollow {t u : Token} (h : t.mayFollow u = true) (ht : t.isWord = true) :
    u.isWord = false := by
  have hends : t.endsValue = true := by cases t <;> first | rfl | cases ht
  rw [mayFollow, if_pos hends] at h
  cases u <;> first | rfl | cases h

/-- No comma comes right after an opening bracket. -/
theorem ne_comma_of_mayFollow {t u : Token} (h : t.mayFollow u = true) (ht : t.opens = true) :
    u ≠ .comma := by
  have hends : t.endsValue = false := by cases t <;> first | rfl | cases ht
  rintro rfl
  rw [mayFollow, hends, if_neg Bool.false_ne_true, ht] at h
  cases h

/-- No neighbour of a token is invalid. -/
theorem ne_invalid_of_mayFollow {t u : Token} (h : t.mayFollow u = true) : u ≠ .invalid := by
  rintro rfl
  unfold mayFollow at h
  split at h
  · cases h
  · cases hopens : t.opens <;> rw [hopens] at h <;> cases h

/-- A sequence that begins and ends like a value and has no neighbours that a value cannot have. -/
structure Phrase (ts : List Token) : Prop where
  begins : ∃ t rest, ts = t :: rest ∧ t.beginsValue = true
  ends : ∃ rest t, ts = rest ++ [t] ∧ t.endsValue = true
  chain : ts.IsChain fun t u => t.mayFollow u = true

/-- A phrase has no invalid token. -/
theorem Phrase.invalid_notMem {ts : List Token} (h : Phrase ts) : .invalid ∉ ts := by
  obtain ⟨t, rest, rfl, hbegins⟩ := h.begins
  have hfirst : t ≠ .invalid := by
    rintro rfl
    cases hbegins
  have hchain := h.chain
  clear h hbegins
  induction rest generalizing t with
  | nil => exact fun hmem => hfirst (List.mem_singleton.mp hmem).symm
  | cons u rest ih =>
    rw [List.isChain_cons_cons] at hchain
    have hrest := ih u (ne_invalid_of_mayFollow hchain.1) hchain.2
    exact List.not_mem_cons_of_ne_of_not_mem hfirst.symm hrest

/-- An atom alone is a phrase. -/
theorem phrase_singleton {t : Token} (h : t.isAtom = true) : Phrase [t] := by
  refine ⟨⟨t, [], rfl, ?_⟩, ⟨[], t, rfl, ?_⟩, .singleton t⟩
  · rw [beginsValue, h, Bool.true_or]
  · rw [endsValue, h, Bool.true_or]

/-- Two sequences with a comma or a colon between them. -/
theorem Phrase.join {t : Token} (h : t = .comma ∨ t = .colon) {ts us : List Token} (hts : Phrase ts)
    (hus : Phrase us) : Phrase (ts ++ t :: us) := by
  obtain ⟨u, rest, hu, hbegins⟩ := hus.begins
  obtain ⟨before, last, hlast, hends⟩ := hts.ends
  have hbefore : last.mayFollow t = true := by
    rw [mayFollow, if_pos hends]
    rcases h with rfl | rfl <;> rfl
  have hafter : t.mayFollow u = true := by
    rw [mayFollow, if_neg (by rcases h with rfl | rfl <;> decide), hbegins, Bool.true_or]
  refine ⟨?_, ?_, ?_⟩
  · obtain ⟨first, tail, hfirst, hfirstBegins⟩ := hts.begins
    exact ⟨first, tail ++ t :: us, by rw [hfirst]; rfl, hfirstBegins⟩
  · obtain ⟨middle, final, hfinal, hfinalEnds⟩ := hus.ends
    exact ⟨ts ++ t :: middle, final, by rw [hfinal]; simp, hfinalEnds⟩
  · refine List.isChain_append.mpr ⟨hts.chain, List.isChain_cons.mpr ⟨?_, hus.chain⟩, ?_⟩
    · intro y hy
      rw [hu] at hy
      cases hy
      exact hafter
    · intro x hx y hy
      rw [hlast, List.getLast?_concat] at hx
      cases hx
      cases hy
      exact hbefore

/-- A sequence in brackets. -/
theorem Phrase.bracketed {a b : Token} (ha : a.opens = true) (hb : b.closes = true)
    {ts : List Token} (h : ts = [] ∨ Phrase ts) : Phrase (a :: (ts ++ [b])) := by
  have hopens : a.endsValue = false := by cases a <;> first | rfl | cases ha
  refine ⟨⟨a, ts ++ [b], rfl, ?_⟩, ⟨a :: ts, b, rfl, ?_⟩, ?_⟩
  · rw [beginsValue, ha, Bool.or_true]
  · rw [endsValue, hb, Bool.or_true]
  · rcases h with rfl | h
    · refine List.isChain_pair.mpr ?_
      rw [mayFollow, hopens, if_neg Bool.false_ne_true, ha, hb, Bool.and_true, Bool.or_true]
    · obtain ⟨t, rest, ht, hbegins⟩ := h.begins
      obtain ⟨before, last, hlast, hends⟩ := h.ends
      refine List.isChain_cons.mpr ⟨?_, List.isChain_append.mpr ⟨h.chain, .singleton b, ?_⟩⟩
      · intro y hy
        rw [ht] at hy
        cases hy
        rw [mayFollow, hopens, if_neg Bool.false_ne_true, hbegins, Bool.true_or]
      · intro x hx y hy
        rw [hlast, List.getLast?_concat] at hx
        cases hx
        cases hy
        rw [mayFollow, if_pos hends, hb, Bool.or_true]

end Token

namespace Json

open Token

/-- Items with commas between them are a phrase if each of them is. -/
theorem phrase_itemTokens {v : Json} {items : List Json}
    (h : ∀ w ∈ v :: items, Phrase w.tokens) : Phrase (itemTokens (v :: items)) := by
  induction items generalizing v with
  | nil => exact h v List.mem_cons_self
  | cons w items ih =>
    rw [List.forall_mem_cons] at h
    exact h.1.join (.inl rfl) (ih h.2)

/-- Members with commas between them are a phrase if each of their values is. -/
theorem phrase_memberTokens {m : List Piece × Json} {members : List (List Piece × Json)}
    (h : ∀ m' ∈ m :: members, Phrase m'.2.tokens) : Phrase (memberTokens (m :: members)) := by
  induction members generalizing m with
  | nil => exact (phrase_singleton (t := .string m.1) rfl).join (.inr rfl) (h m List.mem_cons_self)
  | cons m' members ih =>
    rw [List.forall_mem_cons] at h
    have hmember := (phrase_singleton (t := .string m.1) rfl).join (.inr rfl) h.1
    exact hmember.join (.inl rfl) (ih h.2)

/-- The tokens of a value have only neighbours that are allowed. -/
theorem phrase_tokens (v : Json) : Phrase v.tokens := by
  refine induction (motive := fun v => Phrase v.tokens) ?_ ?_ ?_ ?_ ?_ ?_ v
  · exact phrase_singleton rfl
  · exact fun b => phrase_singleton rfl
  · exact fun n => phrase_singleton rfl
  · exact fun ps => phrase_singleton rfl
  · intro items ih
    refine Phrase.bracketed rfl rfl ?_
    cases items with
    | nil => exact .inl rfl
    | cons v items => exact .inr (phrase_itemTokens ih)
  · intro members ih
    refine Phrase.bracketed rfl rfl ?_
    cases members with
    | nil => exact .inl rfl
    | cons m members => exact .inr (phrase_memberTokens ih)

end Json

end ClassContract
