import ClassContract.Distinct
import Mathlib.Data.List.Nodup

/-!
# What lists without repetitions keep

Adding items to a list one by one takes nothing away and brings in nothing else, and no item is added
that equals an earlier one. Under a test that does not tell equal items apart, selecting items and
leaving out repetitions may be exchanged. Where `==` is an equivalence, it does not matter whether
the added items have repetitions. Where it is equality of the items, `distinct` keeps every item and
keeps it once.
-/

namespace ClassContract

section Selection

variable [BEq α] {xs as : List α} {a : α}

/-- Elements are added one by one. -/
theorem addAllNew_cons (xs as : List α) (a : α) :
    addAllNew xs (a :: as) = addAllNew (addNew xs a) as := rfl

/-- Adding an element loses none. -/
theorem mem_addNew_of_mem (h : a ∈ xs) (b : α) : a ∈ addNew xs b := by
  unfold addNew
  split
  · exact h
  · exact List.mem_append_left _ h

/-- Adding an element brings no other one. -/
theorem mem_or_eq_of_mem_addNew {b : α} (h : a ∈ addNew xs b) : a ∈ xs ∨ a = b := by
  unfold addNew at h
  split at h
  · exact .inl h
  · simpa using h

/-- Adding items takes nothing away. -/
theorem mem_addAllNew_of_mem (h : a ∈ xs) (as : List α) : a ∈ addAllNew xs as := by
  induction as generalizing xs with
  | nil => exact h
  | cons b as ih => exact ih (mem_addNew_of_mem h b)

/-- Every item comes from the list or is one of those added. -/
theorem mem_or_mem_of_mem_addAllNew (h : a ∈ addAllNew xs as) : a ∈ xs ∨ a ∈ as := by
  induction as generalizing xs with
  | nil => exact .inl h
  | cons b as ih =>
    rcases ih h with hx | ha
    · rcases mem_or_eq_of_mem_addNew hx with hx | rfl
      · exact .inl hx
      · exact .inr List.mem_cons_self
    · exact .inr (List.mem_cons_of_mem b ha)

/-- Distinct elements come from the list. -/
theorem mem_of_mem_distinct (h : a ∈ distinct as) : a ∈ as := by
  rcases mem_or_mem_of_mem_addAllNew h with h | h
  · cases h
  · exact h

/-- Only nothing added to nothing is nothing. -/
theorem addAllNew_eq_nil_iff : addAllNew xs as = [] ↔ xs = [] ∧ as = [] := by
  induction as generalizing xs with
  | nil => simp [addAllNew]
  | cons b as ih =>
    rw [addAllNew_cons, ih]
    have hb : addNew xs b ≠ [] := by
      unfold addNew
      split
      · next h => rintro rfl; simp at h
      · simp
    simp [hb]

/-- Only the empty list has no first occurrences. -/
theorem distinct_eq_nil_iff : distinct as = [] ↔ as = [] := by
  simp [distinct, addAllNew_eq_nil_iff]

/-- Every added item has an equal one in the list. -/
theorem exists_mem_addAllNew (h : a ∈ as) (xs : List α) :
    ∃ b ∈ addAllNew xs as, b = a ∨ a == b := by
  induction as generalizing xs with
  | nil => cases h
  | cons c as ih =>
    rw [addAllNew_cons]
    rcases List.mem_cons.mp h with rfl | h
    · have hadd : ∃ b ∈ addNew xs a, b = a ∨ a == b := by
        unfold addNew
        split
        · next hc =>
          obtain ⟨b, hb, he⟩ := List.contains_iff_exists_mem_beq.mp hc
          exact ⟨b, hb, .inr he⟩
        · exact ⟨a, by simp, .inl rfl⟩
      obtain ⟨b, hb, he⟩ := hadd
      exact ⟨b, mem_addAllNew_of_mem hb as, he⟩
    · exact ih h _

/-- Adding elements does not change the first one. -/
theorem head?_addAllNew_cons (a : α) (xs as : List α) :
    (addAllNew (a :: xs) as).head? = some a := by
  induction as generalizing xs with
  | nil => rfl
  | cons b as ih =>
    rw [addAllNew_cons, addNew]
    split
    · exact ih xs
    · exact ih (xs ++ [b])

/-- The first item is a first occurrence. -/
theorem head?_distinct (as : List α) : (distinct as).head? = as.head? := by
  cases as with
  | nil => rfl
  | cons a as => exact head?_addAllNew_cons a [] as

/-- Items that equal none of the list and none of each other are all appended. -/
theorem addAllNew_eq_append (hx : ∀ a ∈ as, ∀ x ∈ xs, (a == x) = false)
    (ha : as.Pairwise fun a b => (b == a) = false) : addAllNew xs as = xs ++ as := by
  induction as generalizing xs with
  | nil => rw [List.append_nil]; rfl
  | cons b as ih =>
    obtain ⟨hb, ha⟩ := List.pairwise_cons.mp ha
    have hnew : addNew xs b = xs ++ [b] := by
      have hc : xs.contains b = false := by
        rw [Bool.eq_false_iff, ne_eq, List.contains_iff_exists_mem_beq]
        rintro ⟨x, hmem, he⟩
        rw [hx b List.mem_cons_self x hmem] at he
        cases he
      rw [addNew, hc]
      rfl
    rw [addAllNew_cons, hnew, ih _ ha, List.append_assoc, List.singleton_append]
    intro a hmem x hxb
    rcases List.mem_append.mp hxb with hxb | hxb
    · exact hx a (List.mem_cons_of_mem b hmem) x hxb
    · exact List.mem_singleton.mp hxb ▸ hb a hmem

/-- A list without repetitions stays as it is. -/
theorem distinct_eq_self (h : as.Pairwise fun a b => (b == a) = false) : distinct as = as :=
  addAllNew_eq_append (fun _ _ _ hx => nomatch hx) h

/-- Items are added only where they equal no earlier one. -/
theorem pairwise_ne_addAllNew (h : xs.Pairwise fun a b => (b == a) = false) (as : List α) :
    (addAllNew xs as).Pairwise fun a b => (b == a) = false := by
  induction as generalizing xs with
  | nil => exact h
  | cons b as ih =>
    apply ih
    unfold addNew
    split
    · exact h
    · next hb =>
      refine List.pairwise_append.mpr ⟨h, List.pairwise_singleton _ _, fun a ha c hc => ?_⟩
      rw [List.mem_singleton.mp hc, Bool.eq_false_iff]
      exact fun he => hb (List.contains_iff_exists_mem_beq.mpr ⟨a, ha, he⟩)

/-- First occurrences equal no earlier one. -/
theorem pairwise_ne_distinct (as : List α) :
    (distinct as).Pairwise fun a b => (b == a) = false :=
  pairwise_ne_addAllNew .nil as

/-- Items that equal one of the list add nothing to it. -/
theorem addAllNew_eq_self (h : ∀ a ∈ as, xs.contains a = true) : addAllNew xs as = xs := by
  induction as with
  | nil => rfl
  | cons b as ih =>
    obtain ⟨hb, has⟩ := List.forall_mem_cons.mp h
    rw [addAllNew_cons, addNew, if_pos hb, ih has]

/-- There is one first occurrence where all items equal the first. -/
theorem distinct_eq_singleton_iff [ReflBEq α] :
    distinct as = [a] ↔ ∃ rest, as = a :: rest ∧ ∀ x ∈ rest, (x == a) = true := by
  constructor
  · intro h
    have hhead : as.head? = some a := by rw [← head?_distinct, h, List.head?_cons]
    obtain ⟨rest, rfl⟩ := List.head?_eq_some_iff.mp hhead
    refine ⟨rest, rfl, fun x hx => ?_⟩
    obtain ⟨b, hb, hxb⟩ := exists_mem_addAllNew (List.mem_cons_of_mem a hx) []
    obtain rfl : b = a := List.mem_singleton.mp (h ▸ hb)
    rcases hxb with rfl | hxb
    · exact BEq.rfl
    · exact hxb
  · rintro ⟨rest, rfl, hrest⟩
    have hknown : ∀ x ∈ rest, [a].contains x = true := fun x hx => by simpa using hrest x hx
    exact addAllNew_eq_self hknown

/-- A test that does not tell equal items apart selects from a longer list what it selects of the
list and of the added item. -/
theorem filter_addNew {p : α → Bool} (hp : ∀ a b, a == b → p a = p b) (xs : List α) (a : α) :
    (addNew xs a).filter p = if p a then addNew (xs.filter p) a else xs.filter p := by
  by_cases ha : p a = true
  · have hc : (xs.filter p).contains a = xs.contains a := by
      rw [Bool.eq_iff_iff, List.contains_iff_exists_mem_beq, List.contains_iff_exists_mem_beq]
      constructor
      · rintro ⟨b, hb, hab⟩
        exact ⟨b, (List.mem_filter.mp hb).1, hab⟩
      · rintro ⟨b, hb, hab⟩
        exact ⟨b, List.mem_filter.mpr ⟨hb, (hp a b hab) ▸ ha⟩, hab⟩
    rw [if_pos ha, addNew, addNew, hc]
    split
    · rfl
    · simp [ha]
  · rw [if_neg ha, addNew]
    split
    · rfl
    · simp [ha]

/-- Selecting items and adding without repetition may be exchanged. -/
theorem filter_addAllNew {p : α → Bool} (hp : ∀ a b, a == b → p a = p b) (xs as : List α) :
    (addAllNew xs as).filter p = addAllNew (xs.filter p) (as.filter p) := by
  induction as generalizing xs with
  | nil => rfl
  | cons b as ih =>
    rw [addAllNew_cons, ih, filter_addNew hp, List.filter_cons]
    split
    · rw [addAllNew_cons]
    · rfl

/-- Where a key tells all first occurrences apart, items with the same key agree in everything in
which equal items do. -/
theorem eq_of_nodup_map_distinct {f : α → β} {g : α → γ} (hf : ∀ a b, a == b → f a = f b)
    (hg : ∀ a b, a == b → g a = g b) (h : ((distinct as).map f).Nodup) {b : α} (ha : a ∈ as)
    (hb : b ∈ as) (hab : f a = f b) : g a = g b := by
  obtain ⟨x, hx, hax⟩ := exists_mem_addAllNew ha []
  obtain ⟨y, hy, hby⟩ := exists_mem_addAllNew hb []
  have hagree : ∀ {c z : α}, z = c ∨ c == z → f c = f z ∧ g c = g z := by
    rintro c z (rfl | he)
    · exact ⟨rfl, rfl⟩
    · exact ⟨hf c z he, hg c z he⟩
  have hkey : f x = f y := by rw [← (hagree hax).1, ← (hagree hby).1, hab]
  obtain rfl : x = y := List.inj_on_of_nodup_map h hx hy hkey
  rw [(hagree hax).2, (hagree hby).2]

/-- A test that does not tell equal elements apart may be made before or after repetitions are
removed. -/
theorem filter_distinct {p : α → Bool} (hp : ∀ a b, a == b → p a = p b) (as : List α) :
    (distinct as).filter p = distinct (as.filter p) := filter_addAllNew hp [] as

end Selection

/-- Adding elements is the loop by which the library removes duplicates, with the result in order.
-/
theorem addAllNew_eq_loop [BEq α] (xs as : List α) :
    addAllNew xs as = List.eraseDupsBy.loop (· == ·) as xs.reverse := by
  induction as generalizing xs with
  | nil =>
    rw [List.eraseDupsBy.loop, List.reverse_reverse]
    rfl
  | cons a as ih =>
    rw [addAllNew_cons, ih, List.eraseDupsBy.loop, List.any_reverse, ← List.contains_eq_any_beq,
      addNew]
    cases xs.contains a with
    | true => rfl
    | false => rw [if_neg Bool.false_ne_true, List.reverse_concat]

/-- The first occurrences are what is left when later repetitions are erased. -/
theorem distinct_eq_eraseDups [BEq α] (as : List α) : distinct as = as.eraseDups :=
  addAllNew_eq_loop [] as

section Equivalence

variable [BEq α] [EquivBEq α]

/-- After an element has been added, it and what was there before are there. -/
theorem contains_addNew (xs : List α) (a b : α) :
    (addNew xs b).contains a = (xs.contains a || a == b) := by
  unfold addNew
  split
  · next hb =>
    cases hab : a == b with
    | false => rw [Bool.or_false]
    | true => rw [List.contains_congr hab, hb, Bool.or_true]
  · rw [List.contains_append, List.contains_cons, List.contains_nil, Bool.or_false]

/-- After elements have been added, they and what was there before are there. -/
theorem contains_addAllNew (xs as : List α) (a : α) :
    (addAllNew xs as).contains a = (xs.contains a || as.contains a) := by
  induction as generalizing xs with
  | nil =>
    rw [List.contains_nil, Bool.or_false]
    rfl
  | cons b as ih => rw [addAllNew_cons, ih, contains_addNew, List.contains_cons, Bool.or_assoc]

/-- Adding a list with one more element is adding the list and then the element. -/
theorem addAllNew_addNew (xs ys : List α) (a : α) :
    addAllNew xs (addNew ys a) = addNew (addAllNew xs ys) a := by
  by_cases ha : ys.contains a = true
  · have hknown : (addAllNew xs ys).contains a = true := by
      rw [contains_addAllNew, ha, Bool.or_true]
    rw [addNew, if_pos ha, addNew, if_pos hknown]
  · rw [addNew, if_neg ha]
    exact addAllNew_append xs ys [a]

/-- Adding without repetition is associative. -/
theorem addAllNew_assoc (xs ys as : List α) :
    addAllNew xs (addAllNew ys as) = addAllNew (addAllNew xs ys) as := by
  induction as generalizing ys with
  | nil => rfl
  | cons a as ih => rw [addAllNew_cons, ih, addAllNew_addNew, addAllNew_cons]

/-- Items may be added without their repetitions. -/
theorem addAllNew_distinct (xs as : List α) : addAllNew xs (distinct as) = addAllNew xs as :=
  addAllNew_assoc xs [] as

/-- Repetitions may be removed from each part before the parts are added. -/
theorem addAllNew_flatMap_distinct (f : β → List α) (xs : List α) (bs : List β) :
    addAllNew xs (bs.flatMap fun b => distinct (f b)) = addAllNew xs (bs.flatMap f) := by
  induction bs generalizing xs with
  | nil => rfl
  | cons b bs ih =>
    rw [List.flatMap_cons, List.flatMap_cons, addAllNew_append, addAllNew_append,
      addAllNew_distinct, ih]

/-- Adding an element to a list continued by what is new in another one is adding it to the other
one. -/
theorem addNew_append_filter (xs ys : List α) (a : α) :
    addNew (xs ++ ys.filter (!xs.contains ·)) a = xs ++ (addNew ys a).filter (!xs.contains ·) := by
  have hnew : ∀ b c, b == c → (!xs.contains b) = !xs.contains c :=
    fun b c h => by rw [List.contains_congr h]
  rw [filter_addNew hnew, addNew, List.contains_append]
  cases xs.contains a with
  | true => rfl
  | false =>
    rw [Bool.false_or, Bool.not_false, if_pos rfl, addNew]
    split
    · rfl
    · rw [List.append_assoc]

/-- Adding items appends the first occurrences of those that the list does not have. -/
theorem addAllNew_eq_append_filter (xs as : List α) :
    addAllNew xs as = xs ++ (distinct as).filter (!xs.contains ·) := by
  have hrun : ∀ ys, addAllNew (xs ++ ys.filter (!xs.contains ·)) as =
      xs ++ (addAllNew ys as).filter (!xs.contains ·) := by
    induction as with
    | nil => exact fun _ => rfl
    | cons a as ih =>
      intro ys
      rw [addAllNew_cons, addAllNew_cons, addNew_append_filter, ih]
  have hstart := hrun []
  rw [List.filter_nil, List.append_nil] at hstart
  exact hstart

end Equivalence

/-- First occurrences are pairwise different. -/
theorem nodup_distinct [BEq α] [ReflBEq α] (as : List α) : (distinct as).Nodup := by
  refine (pairwise_ne_distinct as).imp fun {a b} hne => ?_
  rintro rfl
  rw [BEq.rfl] at hne
  cases hne

section Lawful

variable [BEq α] [LawfulBEq α]

/-- Elements that are added are there. -/
theorem mem_addAllNew_of_mem_right {xs as : List α} {a : α} (h : a ∈ as) : a ∈ addAllNew xs as := by
  obtain ⟨b, hb, rfl | he⟩ := exists_mem_addAllNew h xs
  · exact hb
  · exact eq_of_beq he ▸ hb

/-- Every item has a first occurrence. -/
theorem mem_distinct {as : List α} {a : α} : a ∈ distinct as ↔ a ∈ as :=
  ⟨mem_of_mem_distinct, mem_addAllNew_of_mem_right⟩

end Lawful

end ClassContract
