import ClassContract.Declaration.Json
import ClassContract.Report.Exchange
import ClassContract.Proofs.TypeFormat

/-!
# Classes come back from their JSON

The records of a class have defaults, so a class may have been read from less than what is written
for it. The keys that can be left out hold flags, which cost no level, and lists, which cost one;
classes and ancestors stand so far outside in a document that this level is always there. Types have
no defaults, and for them the limit is kept exactly.

The main statement is `readClasses_written_iff`: what was read from a text is read from its own text
again, exactly if all number literals in it are.
-/

namespace ClassContract

open Decoder

namespace MemberKind

/-- The kind of a member always comes back. -/
@[simp] theorem decoder_toJson (r : Reading) (k : MemberKind) : decoder r k.toJson = .ok k := by
  rw [decoder, toJson, choice_text]
  cases k <;> rfl

end MemberKind

namespace Member

/-- The numbers of all number literals in the type of a member. -/
def numbers (m : Member) : List Double := m.type.numbers

/-- What is written for a member is well formed. -/
theorem wellFormed_toJson (m : Member) : m.toJson.WellFormed :=
  Json.wellFormed_record (by
    simp [MemberKind.toJson, Json.wellFormed_text, Json.wellFormed_bool, m.type.wellFormed_toJson])

/-- A member comes back exactly if its type does. -/
theorem decoder_written_iff {n : Nat} {held : Bool} {m : Member} :
    decoder ⟨n + 1, held⟩ m.toJson = .ok m ↔
      MemberType.decoder ⟨n, held⟩ m.type.toJson = .ok m.type := by
  rw [decoder, toJson, record_written [.text m.name, m.kind.toJson, .bool m.isAbstract,
    .bool m.isReadonly, m.type.toJson, .text m.owner, .bool m.hasBody]]
  · obtain ⟨name, kind, isAbstract, isReadonly, type, owner, hasBody⟩ := m
    simp only [readInOrder, Field.need, Field.may, Decoder.map]
    cases MemberType.decoder ⟨n, held⟩ type.toJson <;> simp [Except.map, bind, Except.bind]
  · rfl
  · decide
  · rfl

/-- The type of a member was read one level further in. -/
theorem exists_of_decoder {r : Reading} {v : Json} {m : Member} (h : decoder r v = .ok m) :
    ∃ inner : Reading, inner.levels + 1 = r.levels ∧
      ∃ w, MemberType.decoder inner w = .ok m.type := by
  obtain ⟨inner, hinner, seen, hfilled, hrequired⟩ := exists_of_record h
  have htype := hfilled.part "valueType" MemberType.decoder Member.type (by
    intro f hf
    simp only [List.mem_cons, List.not_mem_nil, or_false] at hf
    rcases hf with rfl | rfl | rfl | rfl | rfl | rfl | rfl
    case inr.inr.inr.inr.inl => exact .inl (sets_map fun _ _ => rfl)
    all_goals exact .inr ⟨by decide, keeps_map fun _ _ => rfl⟩)
  have hseen : "valueType" ∈ seen := hrequired
    (.need "valueType" MemberType.decoder fun v m => { m with type := v }) (by simp) rfl
  exact ⟨inner, hinner, htype.resolve_right fun h => h.1 hseen⟩

/-- A member that was read comes back within the same levels. -/
theorem returns_of_decoder {r : Reading} {v : Json} {m : Member} (h : decoder r v = .ok m) :
    Returns decoder toJson numbers r.levels m := by
  obtain ⟨inner, hinner, w, hw⟩ := exists_of_decoder h
  have htype := (MemberType.returnsWithin_of_nestedDecoder hw).returns
  rw [← hinner]
  refine returns_succ fun n held hn => ?_
  rw [decoder_written_iff]
  exact htype ⟨n, held⟩ hn

end Member

namespace AncestorKind

/-- The kind of an ancestor always comes back. -/
@[simp] theorem decoder_toJson (r : Reading) (k : AncestorKind) : decoder r k.toJson = .ok k := by
  rw [decoder, toJson, choice_text]
  cases k <;> rfl

end AncestorKind

namespace Ancestor

/-- The numbers of all number literals in the members of an ancestor. -/
def numbers (a : Ancestor) : List Double := a.members.flatMap Member.numbers

/-- What is written for an ancestor is well formed. -/
theorem wellFormed_toJson (a : Ancestor) : a.toJson.WellFormed := by
  have hmembers : (Json.array (a.members.map Member.toJson)).WellFormed :=
    Json.wellFormed_array.mpr (List.forall_mem_map.mpr fun m _ => m.wellFormed_toJson)
  exact Json.wellFormed_record (by
    simp [AncestorKind.toJson, Json.wellFormed_text, hmembers])

/-- An ancestor comes back exactly if its members do. -/
theorem decoder_written_iff {n : Nat} {held : Bool} {a : Ancestor} :
    decoder ⟨n + 1, held⟩ a.toJson = .ok a ↔
      Decoder.list Member.decoder ⟨n, held⟩ (writeList Member.toJson a.members) =
        .ok a.members := by
  rw [decoder, toJson, record_written [.text a.name, a.kind.toJson,
    writeList Member.toJson a.members]]
  · obtain ⟨name, kind, members⟩ := a
    simp only [readInOrder, Field.need, Field.may, Decoder.map]
    cases Decoder.list Member.decoder ⟨n, held⟩ (writeList Member.toJson members) <;>
      simp [Except.map, bind, Except.bind]
  · rfl
  · decide
  · rfl

/-- The members of an ancestor were left out, or read one level further in. -/
theorem exists_of_decoder {r : Reading} {v : Json} {a : Ancestor} (h : decoder r v = .ok a) :
    ∃ inner : Reading, inner.levels + 1 = r.levels ∧
      (a.members = [] ∨ ∃ w, Decoder.list Member.decoder inner w = .ok a.members) := by
  obtain ⟨inner, hinner, seen, hfilled, _⟩ := exists_of_record h
  have hmembers := hfilled.part "members" (Decoder.list Member.decoder) Ancestor.members (by
    intro f hf
    simp only [List.mem_cons, List.not_mem_nil, or_false] at hf
    rcases hf with rfl | rfl | rfl
    case inr.inr => exact .inl (sets_map fun _ _ => rfl)
    all_goals exact .inr ⟨by decide, keeps_map fun _ _ => rfl⟩)
  exact ⟨inner, hinner, (hmembers.imp_right And.right).symm⟩

/-- An ancestor that was read comes back within the same levels, if these have room for a member
list that was left out. -/
theorem returns_of_decoder {r : Reading} {v : Json} {a : Ancestor} (h : decoder r v = .ok a)
    (hr : 2 ≤ r.levels) : Returns decoder toJson numbers r.levels a := by
  obtain ⟨inner, hinner, hread⟩ := exists_of_decoder h
  have hmembers : Returns (Decoder.list Member.decoder) (writeList Member.toJson)
      (List.flatMap Member.numbers) inner.levels a.members :=
    returns_list (fun _ _ _ hm (_ : 0 ≤ _) => Member.returns_of_decoder hm) (by omega) hread
  rw [← hinner]
  refine returns_succ fun n held hn => ?_
  rw [decoder_written_iff]
  exact hmembers ⟨n, held⟩ hn

end Ancestor

namespace ClassDecl

/-- The numbers of all number literals in a class. -/
def numbers (c : ClassDecl) : List Double :=
  c.members.flatMap Member.numbers ++ c.ancestors.flatMap Ancestor.numbers

/-- What is written for a class is well formed. -/
theorem wellFormed_toJson (c : ClassDecl) : c.toJson.WellFormed := by
  have hmembers : (Json.array (c.members.map Member.toJson)).WellFormed :=
    Json.wellFormed_array.mpr (List.forall_mem_map.mpr fun m _ => m.wellFormed_toJson)
  have hancestors : (Json.array (c.ancestors.map Ancestor.toJson)).WellFormed :=
    Json.wellFormed_array.mpr (List.forall_mem_map.mpr fun a _ => a.wellFormed_toJson)
  exact Json.wellFormed_record (by
    simp [Json.wellFormed_text, Json.wellFormed_bool, hmembers, hancestors])

/-- A class comes back exactly if its members and its ancestors do. -/
theorem decoder_written_iff {n : Nat} {held : Bool} {c : ClassDecl} :
    decoder ⟨n + 1, held⟩ c.toJson = .ok c ↔
      Decoder.list Member.decoder ⟨n, held⟩ (writeList Member.toJson c.members) =
          .ok c.members ∧
        Decoder.list Ancestor.decoder ⟨n, held⟩ (writeList Ancestor.toJson c.ancestors) =
          .ok c.ancestors := by
  rw [decoder, toJson, record_written [.text c.name, .bool c.isAbstract,
    writeList Member.toJson c.members, writeList Ancestor.toJson c.ancestors]]
  · obtain ⟨name, isAbstract, members, ancestors⟩ := c
    simp only [readInOrder, Field.need, Field.may, Decoder.map]
    cases Decoder.list Member.decoder ⟨n, held⟩ (writeList Member.toJson members) with
    | error e => simp [Except.map, bind, Except.bind]
    | ok ms =>
      cases Decoder.list Ancestor.decoder ⟨n, held⟩ (writeList Ancestor.toJson ancestors) <;>
        simp [Except.map, bind, Except.bind]
  · rfl
  · decide
  · rfl

/-- The members and the ancestors of a class were left out, or read one level further in. -/
theorem exists_of_decoder {r : Reading} {v : Json} {c : ClassDecl} (h : decoder r v = .ok c) :
    ∃ inner : Reading, inner.levels + 1 = r.levels ∧
      (c.members = [] ∨ ∃ w, Decoder.list Member.decoder inner w = .ok c.members) ∧
      (c.ancestors = [] ∨ ∃ w, Decoder.list Ancestor.decoder inner w = .ok c.ancestors) := by
  obtain ⟨inner, hinner, seen, hfilled, _⟩ := exists_of_record h
  have hmembers := hfilled.part "members" (Decoder.list Member.decoder) ClassDecl.members (by
    intro f hf
    simp only [List.mem_cons, List.not_mem_nil, or_false] at hf
    rcases hf with rfl | rfl | rfl | rfl
    case inr.inr.inl => exact .inl (sets_map fun _ _ => rfl)
    all_goals exact .inr ⟨by decide, keeps_map fun _ _ => rfl⟩)
  have hancestors := hfilled.part "ancestors" (Decoder.list Ancestor.decoder)
    ClassDecl.ancestors (by
      intro f hf
      simp only [List.mem_cons, List.not_mem_nil, or_false] at hf
      rcases hf with rfl | rfl | rfl | rfl
      case inr.inr.inr => exact .inl (sets_map fun _ _ => rfl)
      all_goals exact .inr ⟨by decide, keeps_map fun _ _ => rfl⟩)
  exact ⟨inner, hinner, (hmembers.imp_right And.right).symm,
    (hancestors.imp_right And.right).symm⟩

/-- A class that was read comes back within the same levels, if these have room for the lists that
were left out. -/
theorem returns_of_decoder {r : Reading} {v : Json} {c : ClassDecl} (h : decoder r v = .ok c)
    (hr : 4 ≤ r.levels) : Returns decoder toJson numbers r.levels c := by
  obtain ⟨inner, hinner, hmembers, hancestors⟩ := exists_of_decoder h
  have hms : Returns (Decoder.list Member.decoder) (writeList Member.toJson)
      (List.flatMap Member.numbers) inner.levels c.members :=
    returns_list (fun _ _ _ hm (_ : 0 ≤ _) => Member.returns_of_decoder hm) (by omega) hmembers
  have has : Returns (Decoder.list Ancestor.decoder) (writeList Ancestor.toJson)
      (List.flatMap Ancestor.numbers) inner.levels c.ancestors :=
    returns_list (fun _ _ _ ha hle => Ancestor.returns_of_decoder ha hle) (by omega) hancestors
  rw [← hinner]
  refine returns_succ fun n held hn => ?_
  rw [decoder_written_iff, numbers, List.forall_mem_append, hms ⟨n, held⟩ hn, has ⟨n, held⟩ hn]

end ClassDecl

/-- Classes as a JSON array. -/
def classesJson (cs : List ClassDecl) : Json := .array (cs.map ClassDecl.toJson)

/-- What is written for a list of classes is well formed. -/
theorem wellFormed_classesJson (cs : List ClassDecl) : (classesJson cs).WellFormed :=
  Json.wellFormed_array.mpr (List.forall_mem_map.mpr fun c _ => c.wellFormed_toJson)

/-- What was read from a text is read from its own text again, exactly if each number literal in it
is. -/
theorem readClasses_written_iff {input : String} {cs : List ClassDecl}
    (h : readClasses input = .ok cs) :
    readClasses (classesJson cs).render = .ok cs ↔
      ∀ x ∈ cs.flatMap ClassDecl.numbers, x.ReadsBack := by
  obtain ⟨v, hv⟩ := exists_of_readDocument h
  have hreturns : Returns (Decoder.list ClassDecl.decoder) (writeList ClassDecl.toJson)
      (List.flatMap ClassDecl.numbers) maxLevels cs :=
    returns_list (r := ⟨maxLevels, false⟩)
      (fun _ _ _ hc hle => ClassDecl.returns_of_decoder hc hle) (by decide) (.inr ⟨v, hv⟩)
  rw [readClasses, Json.render, String.toList_ofList,
    readDocument_chars_iff (wellFormed_classesJson cs)]
  exact hreturns ⟨maxLevels, false⟩ (Nat.le_refl _)

/-- A class as an array of its values, with a number in an unusual form, a value before its kind, a
key that is skipped and the last values left out. -/
def dialText : String :=
  "[[\"Dial\",true,[[\"size\",\"field\",false,false,\x7b\"note\":[],\"value\":[\"number\",15e-1]," ++
    "\"kind\":\"literal\"\x7d,\"Dial\"]]]]"

/-- The same class as it is written. -/
def dialWritten : String :=
  "[\x7b\"name\":\"Dial\",\"isAbstract\":true,\"members\":[\x7b\"name\":\"size\",\"kind\":\"field\"," ++
    "\"isAbstract\":false,\"isReadonly\":false,\"valueType\":\x7b\"kind\":\"literal\"," ++
    "\"value\":\x7b\"kind\":\"number\",\"value\":1.5\x7d\x7d,\"ownerClass\":\"Dial\"," ++
    "\"hasBody\":true\x7d],\"ancestors\":[]\x7d]"

/-- The unusual text of the dial and its own text are read as the same class. -/
theorem dial_comes_back :
    ∃ cs, readClasses dialText = .ok cs ∧ (classesJson cs).render = dialWritten ∧
      readClasses dialWritten = .ok cs := by
  have hcheck : ((readClasses dialText).toOption.any fun cs =>
      (classesJson cs).render == dialWritten &&
        decide (∀ x ∈ cs.flatMap ClassDecl.numbers, x.ReadsBack)) = true := by decide +kernel
  cases hread : readClasses dialText with
  | error f =>
    rw [hread] at hcheck
    cases hcheck
  | ok cs =>
    rw [hread] at hcheck
    obtain ⟨hwritten, hnumbers⟩ := Bool.and_eq_true_iff.mp hcheck
    refine ⟨cs, rfl, beq_iff_eq.mp hwritten, ?_⟩
    rw [← beq_iff_eq.mp hwritten]
    exact (readClasses_written_iff hread).mpr (of_decide_eq_true hnumbers)

end ClassContract
