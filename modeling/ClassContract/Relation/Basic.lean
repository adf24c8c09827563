import ClassContract.MemberType.Basic

/-!
# Identity and assignability of types

Two types are identical when they agree up to the order of union members. A source is assignable to
a target when a value of the source may stand where the target is expected. Both relations share one
depth limit: `assignable n` and `identical n` may descend `n` levels, and where no level is left the
answer is yes. Each answer comes as a `Verdict`, which lists the comparisons that were cut off, in
the order in which they were reached.
-/

namespace ClassContract

/-- The two relations between types. -/
inductive Relation
  | identity
  | assignability
  deriving DecidableEq

/-- A comparison that was not carried out because no level was left. -/
structure CutOff where
  /-- The relation that was asked for. -/
  relation : Relation
  /-- The left type, which is the source of an assignment. -/
  left : MemberType
  /-- The right type, which is the target of an assignment. -/
  right : MemberType

/-- An answer together with the comparisons that were cut off on the way to it. -/
structure Verdict where
  /-- The answer. -/
  holds : Bool
  /-- The cut-off comparisons in order. -/
  cutOffs : List CutOff

namespace Verdict

/-- An answer found without a cut-off. -/
def ofBool (b : Bool) : Verdict := ⟨b, []⟩

/-- The answer yes of a comparison that is cut off. -/
def cut (relation : Relation) (left right : MemberType) : Verdict :=
  ⟨true, [⟨relation, left, right⟩]⟩

/-- A verdict reached after earlier cut-offs. -/
def after (v : Verdict) (earlier : List CutOff) : Verdict := ⟨v.holds, earlier ++ v.cutOffs⟩

/-- Both, where the second is only asked for if the first holds. -/
@[macro_inline] def and (a b : Verdict) : Verdict :=
  match a with
  | ⟨true, earlier⟩ => b.after earlier
  | ⟨false, earlier⟩ => ⟨false, earlier⟩

/-- One of both, where the second is only asked for if the first fails. -/
@[macro_inline] def or (a b : Verdict) : Verdict :=
  match a with
  | ⟨true, earlier⟩ => ⟨true, earlier⟩
  | ⟨false, earlier⟩ => b.after earlier

/-- All items in order, up to the first that fails. -/
def all (f : α → Verdict) : List α → Verdict
  | [] => ofBool true
  | x :: xs => (f x).and (all f xs)

/-- Some item, up to the first that holds. -/
def any (f : α → Verdict) : List α → Verdict
  | [] => ofBool false
  | x :: xs => (f x).or (any f xs)

@[simp] theorem holds_ofBool (b : Bool) : (ofBool b).holds = b := rfl

@[simp] theorem holds_cut (r : Relation) (s t : MemberType) : (cut r s t).holds = true := rfl

@[simp] theorem holds_after (v : Verdict) (l : List CutOff) : (v.after l).holds = v.holds := rfl

@[simp] theorem holds_and (a b : Verdict) : (a.and b).holds = (a.holds && b.holds) := by
  rcases a with ⟨_ | _, l⟩ <;> rfl

@[simp] theorem holds_or (a b : Verdict) : (a.or b).holds = (a.holds || b.holds) := by
  rcases a with ⟨_ | _, l⟩ <;> rfl

@[simp] theorem holds_all (f : α → Verdict) (xs : List α) :
    (all f xs).holds = xs.all fun x => (f x).holds := by
  induction xs with
  | nil => rfl
  | cons x xs ih => rw [all, holds_and, ih, List.all_cons]

@[simp] theorem holds_any (f : α → Verdict) (xs : List α) :
    (any f xs).holds = xs.any fun x => (f x).holds := by
  induction xs with
  | nil => rfl
  | cons x xs ih => rw [any, holds_or, ih, List.any_cons]

end Verdict

namespace MemberType

/-- Identity of types within `n` levels. Union members are matched in any order. -/
def identical : Nat → MemberType → MemberType → Verdict
  | 0, a, b => .cut .identity a b
  | n + 1, .union ls, .union rs =>
    (Verdict.ofBool (ls.length == rs.length)).and
      (.all (fun l => .any (fun r => identical n l r) rs) ls)
  | n + 1, .function ps r, .function qs s =>
    (Verdict.ofBool (ps.length == qs.length)).and
      ((Verdict.all (fun pq => identical n pq.1 pq.2) (ps.zip qs)).and (identical n r s))
  | _ + 1, .keyword j, .keyword k => .ofBool (j == k)
  | _ + 1, .literal l, .literal m => .ofBool (l == m)
  | _ + 1, .named x, .named y => .ofBool (x == y)
  | _ + 1, _, _ => .ofBool false

/-- A literal fits an equal literal and the keyword type of its values. -/
def literalFits (l : Literal) : MemberType → Bool
  | .literal m => l == m
  | .keyword k => l.keyword == k
  | _ => false

/-- Assignability of types within `n` levels. Identical types are assignable; otherwise the first
rule that fits the two types decides. The parameters of functions are compared in both directions,
a source may have fewer of them than the target, and a target that returns `void` accepts every
result. -/
def assignable : Nat → MemberType → MemberType → Verdict
  | 0, s, t => .cut .assignability s t
  | n + 1, s, t =>
    (identical n s t).or
      (match s, t with
      | .keyword .any, _ => .ofBool true
      | _, .keyword .any => .ofBool true
      | _, .keyword .unknown => .ofBool true
      | .keyword .never, _ => .ofBool true
      | .union ms, t => .all (fun m => assignable n m t) ms
      | s, .union ms => .any (fun m => assignable n s m) ms
      | .keyword .undefined, .keyword .void => .ofBool true
      | .literal l, t => .ofBool (literalFits l t)
      | .function ps r, .function qs r' =>
        (Verdict.ofBool (ps.length ≤ qs.length)).and
          ((Verdict.all (fun pq => (assignable n pq.2 pq.1).or (assignable n pq.1 pq.2))
              (ps.zip qs)).and
            (if r'.isVoid then .ofBool true else assignable n r r'))
      | _, _ => .ofBool false)

/-- How many levels the two relations descend, counted together. -/
def maxDepth : Nat := 64

/-- The verdict on the identity of two types. -/
def identityVerdict (a b : MemberType) : Verdict := identical maxDepth a b

/-- The verdict on the assignability of a source to a target. -/
def assignabilityVerdict (source target : MemberType) : Verdict := assignable maxDepth source target

/-- Whether two types are the same up to the order of union members. -/
def isIdentical (a b : MemberType) : Bool := (identityVerdict a b).holds

/-- Whether the source may stand where the target is expected. -/
def isAssignable (source target : MemberType) : Bool := (assignabilityVerdict source target).holds

end MemberType

end ClassContract
