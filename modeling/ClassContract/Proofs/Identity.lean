import ClassContract.Relation.Basic

/-!
# Identity of types without a depth limit

`alike` compares two types as `identical` does, however deep they are. The limit of `identical` only
turns answers into yes (`holds_identical_of_alike`), and it is not felt where there are more levels
than the left type is high (`alike_of_holds_identical`).
-/

namespace ClassContract

namespace MemberType

mutual

/-- How deep a type is nested: unions and functions are one higher than their highest part. -/
def height : MemberType → Nat
  | .union ms => 1 + maxHeight ms
  | .function ps r => 1 + max (maxHeight ps) (height r)
  | _ => 0

/-- The height of the highest type of a list. -/
def maxHeight : List MemberType → Nat
  | [] => 0
  | t :: ts => max (height t) (maxHeight ts)

end

/-- No type of a list is higher than the list. -/
theorem height_le_maxHeight {t : MemberType} {ts : List MemberType} (h : t ∈ ts) :
    t.height ≤ maxHeight ts := by
  induction ts with
  | nil => cases h
  | cons u ts ih =>
    rw [maxHeight]
    rcases List.mem_cons.mp h with rfl | h
    · omega
    · have := ih h
      omega

/-- The members of a union are less high than the union. -/
theorem height_lt_of_mem_union {m : MemberType} {ms : List MemberType} (h : m ∈ ms) :
    m.height < (union ms).height := by
  have := height_le_maxHeight h
  rw [height]
  omega

/-- The parameters of a function are less high than the function. -/
theorem height_lt_of_mem_params {p : MemberType} {ps : List MemberType} (h : p ∈ ps)
    (r : MemberType) : p.height < (function ps r).height := by
  have := height_le_maxHeight h
  rw [height]
  omega

/-- A function is higher than its result. -/
theorem height_result_lt (ps : List MemberType) (r : MemberType) :
    r.height < (function ps r).height := by
  rw [height]
  omega

mutual

/-- Identity of types of any depth. Union members are matched in any order. -/
def alike : MemberType → MemberType → Bool
  | .union ls, .union rs => ls.length == rs.length && allMatched ls rs
  | .function ps r, .function qs s => alikeLists ps qs && alike r s
  | .keyword j, .keyword k => j == k
  | .literal l, .literal m => l == m
  | .named x, .named y => x == y
  | _, _ => false

/-- Every type of the first list is identical to one of the second. -/
def allMatched : List MemberType → List MemberType → Bool
  | [], _ => true
  | l :: ls, rs => rs.any (alike l) && allMatched ls rs

/-- Two lists of types that are identical one by one. -/
def alikeLists : List MemberType → List MemberType → Bool
  | [], [] => true
  | p :: ps, q :: qs => alike p q && alikeLists ps qs
  | _, _ => false

end

/-- The test of members says that each has a partner. -/
theorem allMatched_iff {ls rs : List MemberType} :
    allMatched ls rs = true ↔ ∀ l ∈ ls, ∃ r ∈ rs, alike l r = true := by
  induction ls with
  | nil => simp [allMatched]
  | cons l ls ih => simp [allMatched, ih]

/-- The test of lists compares them place by place. -/
theorem alikeLists_iff {ps qs : List MemberType} :
    alikeLists ps qs = true ↔
      ps.length = qs.length ∧ ∀ pq ∈ ps.zip qs, alike pq.1 pq.2 = true := by
  induction ps generalizing qs with
  | nil => cases qs <;> simp [alikeLists]
  | cons p ps ih =>
    cases qs with
    | nil => simp [alikeLists]
    | cons q qs =>
      rw [alikeLists, Bool.and_eq_true, ih]
      simp only [List.length_cons, Nat.add_right_cancel_iff, List.zip_cons_cons,
        List.forall_mem_cons]
      exact and_left_comm

/-- Unions are alike if they are of one length and each member of the first has a partner in the
second. -/
theorem alike_union_iff {ls rs : List MemberType} :
    alike (union ls) (union rs) = true ↔
      ls.length = rs.length ∧ ∀ l ∈ ls, ∃ r ∈ rs, alike l r = true := by
  rw [alike, Bool.and_eq_true, beq_iff_eq, allMatched_iff]

/-- Functions are alike if their parameters and their results are. -/
theorem alike_function_iff {ps qs : List MemberType} {r s : MemberType} :
    alike (function ps r) (function qs s) = true ↔
      (ps.length = qs.length ∧ ∀ pq ∈ ps.zip qs, alike pq.1 pq.2 = true) ∧ alike r s = true := by
  rw [alike, Bool.and_eq_true, alikeLists_iff]

/-- Only a union is identical to a union. -/
theorem exists_union_of_alike {ls : List MemberType} {t : MemberType}
    (h : alike (union ls) t = true) : ∃ rs, t = union rs := by
  cases t with
  | union rs => exact ⟨rs, rfl⟩
  | _ => simp [alike] at h

/-- One level of identity on unions. -/
theorem holds_identical_union (n : Nat) (ls rs : List MemberType) :
    (identical (n + 1) (union ls) (union rs)).holds = true ↔
      ls.length = rs.length ∧ ∀ l ∈ ls, ∃ r ∈ rs, (identical n l r).holds = true := by
  simp [identical]

/-- One level of identity on functions. -/
theorem holds_identical_function (n : Nat) (ps qs : List MemberType) (r s : MemberType) :
    (identical (n + 1) (function ps r) (function qs s)).holds = true ↔
      (ps.length = qs.length ∧ ∀ pq ∈ ps.zip qs, (identical n pq.1 pq.2).holds = true)
        ∧ (identical n r s).holds = true := by
  simp [identical, and_assoc]

/-- Identical types are found identical within any number of levels. -/
theorem holds_identical_of_alike {a b : MemberType} (h : alike a b = true) (n : Nat) :
    (identical n a b).holds = true := by
  induction n generalizing a b with
  | zero => rfl
  | succ n ih =>
    cases a with
    | union ls =>
      obtain ⟨rs, rfl⟩ := exists_union_of_alike h
      obtain ⟨hlen, hall⟩ := alike_union_iff.mp h
      refine (holds_identical_union n ls rs).mpr ⟨hlen, fun l hl => ?_⟩
      obtain ⟨r, hr, hlr⟩ := hall l hl
      exact ⟨r, hr, ih hlr⟩
    | function ps r =>
      cases b with
      | function qs s =>
        obtain ⟨⟨hlen, hall⟩, hres⟩ := alike_function_iff.mp h
        exact (holds_identical_function n ps qs r s).mpr
          ⟨⟨hlen, fun pq hpq => ih (hall pq hpq)⟩, ih hres⟩
      | _ => simp [alike] at h
    | keyword j =>
      cases b with
      | keyword k => exact h
      | _ => simp [alike] at h
    | literal l =>
      cases b with
      | literal m => exact h
      | _ => simp [alike] at h
    | named x =>
      cases b with
      | named y => exact h
      | _ => simp [alike] at h

/-- With more levels than the left type is high, only identical types are found identical. -/
theorem alike_of_holds_identical {a b : MemberType} {n : Nat} (hn : a.height < n)
    (h : (identical n a b).holds = true) : alike a b = true := by
  induction n generalizing a b with
  | zero => omega
  | succ n ih =>
    cases a with
    | union ls =>
      cases b with
      | union rs =>
        obtain ⟨hlen, hall⟩ := (holds_identical_union n ls rs).mp h
        refine alike_union_iff.mpr ⟨hlen, fun l hl => ?_⟩
        obtain ⟨r, hr, hlr⟩ := hall l hl
        have hl := height_lt_of_mem_union hl
        exact ⟨r, hr, ih (by omega) hlr⟩
      | _ => simp [identical] at h
    | function ps r =>
      cases b with
      | function qs s =>
        obtain ⟨⟨hlen, hall⟩, hres⟩ := (holds_identical_function n ps qs r s).mp h
        refine alike_function_iff.mpr ⟨⟨hlen, fun pq hpq => ?_⟩, ?_⟩
        · have hp := height_lt_of_mem_params (List.of_mem_zip hpq).1 r
          exact ih (by omega) (hall pq hpq)
        · have hr := height_result_lt ps r
          exact ih (by omega) hres
      | _ => simp [identical] at h
    | keyword j =>
      cases b with
      | keyword k => exact h
      | _ => simp [identical] at h
    | literal l =>
      cases b with
      | literal m => exact h
      | _ => simp [identical] at h
    | named x =>
      cases b with
      | named y => exact h
      | _ => simp [identical] at h

end MemberType

end ClassContract
