import ClassContract.Failure
import ClassContract.Proofs.Tokens

/-!
# Documents are read as they are written

The text of a well-formed value is a complete document with that value, `ofChars_chars`. Values are
followed by their constructors with `Json.induction`, once for the lexer and once for the stack of
open arrays and objects; the brackets around the items and the commas between them are marks, so no
token runs into the next.
-/

namespace ClassContract

namespace Json

/-- What holds of arrays and objects because it holds inside them holds of every value. -/
theorem induction {motive : Json → Prop} (null : motive .null) (bool : ∀ b, motive (.bool b))
    (number : ∀ n, motive (.number n)) (string : ∀ ps, motive (.string ps))
    (array : ∀ items : List Json, (∀ v ∈ items, motive v) → motive (.array items))
    (object : ∀ members : List (List Piece × Json), (∀ m ∈ members, motive m.2) →
      motive (.object members)) : ∀ v, motive v
  | .null => null
  | .bool b => bool b
  | .number n => number n
  | .string ps => string ps
  | .array items => array items fun v _ => induction null bool number string array object v
  | .object members =>
    object members fun m _ => induction null bool number string array object m.2
termination_by v => sizeOf v
decreasing_by
  · next hv =>
    have hlt := List.sizeOf_lt_of_mem hv
    simp only [Json.array.sizeOf_spec]
    omega
  · next hm =>
    have hlt := List.sizeOf_lt_of_mem hm
    obtain ⟨k, v⟩ := m
    simp only [Json.object.sizeOf_spec, Prod.mk.sizeOf_spec] at hlt ⊢
    omega

/-- A value of which every token can be written. -/
def WellFormed (v : Json) : Prop := ∀ t ∈ v.tokens, t.WellFormed

/-- What holds of commas and of the tokens of all items holds of the tokens between the brackets. -/
theorem forall_mem_itemTokens {p : Token → Prop} (hcomma : p .comma) (items : List Json) :
    (∀ t ∈ itemTokens items, p t) ↔ ∀ v ∈ items, ∀ t ∈ v.tokens, p t := by
  induction items with
  | nil => simp [itemTokens]
  | cons v items ih =>
    cases items with
    | nil => simp [itemTokens]
    | cons w items =>
      rw [itemTokens, List.forall_mem_append, List.forall_mem_cons, ih]
      simp only [hcomma, true_and, List.forall_mem_cons]

/-- What holds of colons, commas, keys and the tokens of all values holds of the tokens between the
braces. -/
theorem forall_mem_memberTokens {p : Token → Prop} (hcolon : p .colon) (hcomma : p .comma)
    (members : List (List Piece × Json)) :
    (∀ t ∈ memberTokens members, p t) ↔
      ∀ m ∈ members, p (.string m.1) ∧ ∀ t ∈ m.2.tokens, p t := by
  induction members with
  | nil => simp [memberTokens]
  | cons m members ih =>
    cases members with
    | nil => simp [memberTokens, hcolon]
    | cons m' members =>
      rw [memberTokens, List.forall_mem_cons, List.forall_mem_cons, List.forall_mem_append,
        List.forall_mem_cons, ih]
      simp only [hcomma, hcolon, true_and, List.forall_mem_cons, and_assoc]

/-- An array is well formed if its items are. -/
theorem wellFormed_array {items : List Json} :
    (array items).WellFormed ↔ ∀ v ∈ items, v.WellFormed := by
  have hitems := forall_mem_itemTokens (p := Token.WellFormed) trivial items
  unfold WellFormed
  rw [tokens, List.forall_mem_cons, List.forall_mem_append, hitems]
  simp [Token.WellFormed]

/-- An object is well formed if its keys and its values are. -/
theorem wellFormed_object {members : List (List Piece × Json)} :
    (object members).WellFormed ↔
      ∀ m ∈ members, (∀ p ∈ m.1, p.WellFormed) ∧ m.2.WellFormed := by
  have hmembers := forall_mem_memberTokens (p := Token.WellFormed) trivial trivial members
  unfold WellFormed
  rw [tokens, List.forall_mem_cons, List.forall_mem_append, hmembers]
  simp [Token.WellFormed]

/-- Truth values are well formed. -/
theorem wellFormed_bool (b : Bool) : (bool b).WellFormed := by
  intro t ht
  cases List.mem_singleton.mp ht
  trivial

/-- Strings are well formed. -/
theorem wellFormed_text (s : String) : (text s).WellFormed := by
  intro t ht
  cases List.mem_singleton.mp ht
  exact wellFormed_encodePieces s

/-- What is written for a double is well formed, also for an infinity. -/
theorem wellFormed_double (x : Double) : (double x).WellFormed := by
  intro t ht
  cases x with
  | finite x =>
    cases List.mem_singleton.mp ht
    exact x.wellFormed_numeral
  | infinite negative =>
    cases List.mem_singleton.mp ht
    trivial

/-- A record is well formed if its values are. -/
theorem wellFormed_record {members : List (String × Json)} (h : ∀ m ∈ members, m.2.WellFormed) :
    (record members).WellFormed := by
  refine wellFormed_object.mpr fun m' hm' => ?_
  obtain ⟨m, hm, rfl⟩ := List.mem_map.mp hm'
  exact ⟨wellFormed_encodePieces m.1, h m hm⟩

open Token

/-- Items with commas between them can be told apart if each can be read. -/
theorem legible_itemTokens {items : List Json} (h : ∀ v ∈ items, Legible v.tokens) :
    Legible (itemTokens items) := by
  induction items with
  | nil => exact legible_nil
  | cons v items ih =>
    rw [List.forall_mem_cons] at h
    cases items with
    | nil => exact h.1
    | cons w items => exact .append_mark .comma trivial rfl h.1 (ih h.2)

/-- Members with commas between them can be told apart if each value can be read. -/
theorem legible_memberTokens {members : List (List Piece × Json)}
    (hkeys : ∀ m ∈ members, ∀ p ∈ m.1, p.WellFormed)
    (h : ∀ m ∈ members, Legible m.2.tokens) : Legible (memberTokens members) := by
  induction members with
  | nil => exact legible_nil
  | cons m members ih =>
    rw [List.forall_mem_cons] at h hkeys
    cases members with
    | nil => exact .mark (.string _) hkeys.1 rfl (.mark .colon trivial rfl h.1)
    | cons m' members =>
      exact .mark (.string _) hkeys.1 rfl
        (.mark .colon trivial rfl (.append_mark .comma trivial rfl h.1 (ih hkeys.2 h.2)))

/-- The tokens of a well-formed value are found again in its text. -/
theorem legible_tokens (v : Json) : v.WellFormed → Legible v.tokens := by
  refine induction (motive := fun v => v.WellFormed → Legible v.tokens) ?_ ?_ ?_ ?_ ?_ ?_ v
  · exact fun h => legible_singleton (h _ (List.mem_singleton.mpr rfl))
  · exact fun b h => legible_singleton (h _ (List.mem_singleton.mpr rfl))
  · exact fun n h => legible_singleton (h _ (List.mem_singleton.mpr rfl))
  · exact fun ps h => legible_singleton (h _ (List.mem_singleton.mpr rfl))
  · intro items ih h
    rw [wellFormed_array] at h
    exact .mark .openArray trivial rfl (.append_mark .closeArray trivial rfl
      (legible_itemTokens fun v hv => ih v hv (h v hv)) legible_nil)
  · intro members ih h
    rw [wellFormed_object] at h
    exact .mark .openObject trivial rfl (.append_mark .closeObject trivial rfl
      (legible_memberTokens (fun m hm => (h m hm).1) fun m hm => ih m hm (h m hm).2) legible_nil)

end Json

namespace Document

/-- The tokens of a value are read as that value, whatever is open and whatever follows. -/
def ReadsTokens (v : Json) : Prop := ∀ fs ts, value fs (v.tokens ++ ts) = next fs v ts

/-- A value does not begin with the end of an array. -/
theorem exists_tokens_eq (v : Json) : ∃ t ts, v.tokens = t :: ts ∧ t ≠ .closeArray := by
  cases v <;> exact ⟨_, _, rfl, by simp⟩

/-- After an opening bracket the first item is read. -/
theorem value_openArray (fs : List Frame) (v : Json) (items : List Json) (ts : List Token) :
    value fs (.openArray :: (Json.itemTokens (v :: items) ++ ts)) =
      value (.items [] :: fs) (Json.itemTokens (v :: items) ++ ts) := by
  obtain ⟨t, us, htokens, ht⟩ := exists_tokens_eq v
  cases items with
  | nil => rw [Json.itemTokens, htokens, List.cons_append, value.eq_6 _ _ (by simp [ht])]
  | cons w items =>
    rw [Json.itemTokens, htokens, List.cons_append, List.cons_append,
      value.eq_6 _ _ (by simp [ht])]

/-- The items of an open array up to its end. -/
theorem value_items {items : List Json} (h : ∀ v ∈ items, ReadsTokens v) (hne : items ≠ [])
    (before : List Json) (fs : List Frame) (ts : List Token) :
    value (.items before :: fs) (Json.itemTokens items ++ .closeArray :: ts) =
      next fs (.array (before.reverse ++ items)) ts := by
  induction items generalizing before with
  | nil => exact absurd rfl hne
  | cons v items ih =>
    rw [List.forall_mem_cons] at h
    cases items with
    | nil => rw [Json.itemTokens, h.1, next, List.reverse_cons]
    | cons w items =>
      rw [Json.itemTokens, List.append_assoc, h.1, List.cons_append, next,
        ih h.2 (List.cons_ne_nil _ _), List.reverse_cons, List.append_assoc]
      rfl

/-- The members of an object begin with a key and a colon. -/
theorem memberTokens_cons (k : List Piece) (v : Json) (members : List (List Piece × Json)) :
    Json.memberTokens ((k, v) :: members) =
      .string k :: .colon :: (Json.memberTokens ((k, v) :: members)).drop 2 := by
  cases members <;> rfl

/-- The members of an open object after its first key up to its end. -/
theorem value_members {members : List (List Piece × Json)} {v : Json}
    (h : ∀ m ∈ members, ReadsTokens m.2) (hv : ReadsTokens v) (k : List Piece)
    (before : List (List Piece × Json)) (fs : List Frame) (ts : List Token) :
    value (.members before k :: fs)
        ((Json.memberTokens ((k, v) :: members)).drop 2 ++ .closeObject :: ts) =
      next fs (.object (before.reverse ++ (k, v) :: members)) ts := by
  induction members generalizing v k before with
  | nil =>
    rw [Json.memberTokens]
    show value _ (v.tokens ++ _) = _
    rw [hv, next, List.reverse_cons]
  | cons m members ih =>
    obtain ⟨k', v'⟩ := m
    rw [List.forall_mem_cons] at h
    rw [Json.memberTokens, memberTokens_cons k' v']
    show value _ ((v.tokens ++ _) ++ _) = _
    rw [List.append_assoc, hv]
    simp only [List.cons_append]
    rw [next, ih h.2 h.1, List.reverse_cons, List.append_assoc]
    rfl

/-- The tokens of a value are read as the value, wherever they stand. -/
theorem readsTokens (v : Json) : ReadsTokens v := by
  refine Json.induction (motive := ReadsTokens) ?_ ?_ ?_ ?_ ?_ ?_ v
  · intro fs ts
    rw [Json.tokens, List.singleton_append, value]
  · intro b fs ts
    rw [Json.tokens, List.singleton_append, value]
  · intro n fs ts
    rw [Json.tokens, List.singleton_append, value]
  · intro ps fs ts
    rw [Json.tokens, List.singleton_append, value]
  · intro items ih fs ts
    cases items with
    | nil =>
      show value fs (.openArray :: .closeArray :: ts) = _
      rw [value]
    | cons v items =>
      rw [Json.tokens, List.cons_append, List.append_assoc, List.singleton_append, value_openArray,
        value_items ih (List.cons_ne_nil _ _)]
      rfl
  · intro members ih fs ts
    cases members with
    | nil =>
      show value fs (.openObject :: .closeObject :: ts) = _
      rw [value]
    | cons m members =>
      obtain ⟨k, v⟩ := m
      rw [List.forall_mem_cons] at ih
      have hmembers := value_members ih.2 ih.1 k [] fs ts
      rw [Json.tokens, memberTokens_cons]
      simp only [List.cons_append, List.append_assoc, List.nil_append]
      rw [value, hmembers]
      rfl

/-- The tokens of a value are a complete document. -/
theorem ofTokens_tokens (v : Json) : ofTokens v.tokens = ⟨some v, true⟩ := by
  have hvalue := readsTokens v [] []
  rw [List.append_nil] at hvalue
  rw [ofTokens, hvalue, next]
  rfl

/-- The text of a well-formed value is a complete document with that value. -/
theorem ofChars_chars {v : Json} (h : v.WellFormed) : ofChars v.chars = ⟨some v, true⟩ := by
  rw [ofChars, Json.chars, (Json.legible_tokens v h).lex_eq, ofTokens_tokens]

end Document

/-- A complete document is decoded like its value. -/
theorem Document.decode_complete (d : Decoder α) (v : Json) :
    decode d ⟨some v, true⟩ = d ⟨Decoder.maxLevels, false⟩ v :=
  bind_pure (d ⟨Decoder.maxLevels, false⟩ v)

/-- The text of a well-formed value is decoded like the value. -/
theorem Document.decode_chars {v : Json} (h : v.WellFormed) (d : Decoder α) :
    (ofChars v.chars).decode d = d ⟨Decoder.maxLevels, false⟩ v := by
  rw [ofChars_chars h, decode_complete]

/-- What is decoded from a text was decoded from the value of a complete document. -/
theorem Document.exists_complete_of_decode {d : Decoder α} {cs : List Char} {a : α}
    (h : (ofChars cs).decode d = .ok a) :
    ∃ v, ofChars cs = ⟨some v, true⟩ ∧ d ⟨Decoder.maxLevels, false⟩ v = .ok a := by
  unfold Document.decode at h
  cases hdocument : Document.ofChars cs with
  | mk root complete =>
    rw [hdocument] at h
    cases root with
    | none => cases h
    | some v =>
      cases hv : d ⟨Decoder.maxLevels, false⟩ v with
      | error f =>
        simp only [hv, bind, Except.bind] at h
        cases h
      | ok b =>
        simp only [hv, bind, Except.bind] at h
        cases complete with
        | false => cases h
        | true =>
          cases h
          exact ⟨v, rfl, hv⟩

/-- The context of a document shows in its failures only. -/
theorem readDocument_eq_ok_iff {context : String} {d : Decoder α} {cs : List Char} {a : α} :
    readDocument context d cs = .ok a ↔ (Document.ofChars cs).decode d = .ok a := by
  unfold readDocument
  cases (Document.ofChars cs).decode d <;> simp

/-- The text of a well-formed value is read like the value. -/
theorem readDocument_chars_iff {context : String} {d : Decoder α} {v : Json} (h : v.WellFormed)
    {a : α} :
    readDocument context d v.chars = .ok a ↔ d ⟨Decoder.maxLevels, false⟩ v = .ok a := by
  rw [readDocument_eq_ok_iff, Document.decode_chars h]

/-- What is read from a text was decoded from the value of a complete document. -/
theorem exists_complete_of_readDocument {context : String} {d : Decoder α} {cs : List Char} {a : α}
    (h : readDocument context d cs = .ok a) :
    ∃ v, Document.ofChars cs = ⟨some v, true⟩ ∧ d ⟨Decoder.maxLevels, false⟩ v = .ok a :=
  Document.exists_complete_of_decode (readDocument_eq_ok_iff.mp h)

/-- What is read from a text was decoded from some value. -/
theorem exists_of_readDocument {context : String} {d : Decoder α} {cs : List Char} {a : α}
    (h : readDocument context d cs = .ok a) : ∃ v, d ⟨Decoder.maxLevels, false⟩ v = .ok a := by
  obtain ⟨v, _, hv⟩ := exists_complete_of_readDocument h
  exact ⟨v, hv⟩

end ClassContract
