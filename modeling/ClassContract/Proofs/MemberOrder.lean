import ClassContract.Proofs.Interchange

/-!
# The order of union members

`Permuted` relates a type to the same type with the members of its unions in another order, in any
of the unions that it is made of. At each level a permuted type agrees with the first in both
directions, so the two are interchangeable, and neither relation depends on the order of union
members, wherever a comparison is cut off (`relations_of_permuted`).
-/

namespace ClassContract

namespace MemberType

/-- The same type up to the order of the members of its unions: of the type itself, of their members,
and of unions in parameters and results. -/
inductive Permuted : MemberType → MemberType → Prop
  | keyword (k : Keyword) : Permuted (.keyword k) (.keyword k)
  | literal (l : Literal) : Permuted (.literal l) (.literal l)
  | named (x : String) : Permuted (.named x) (.named x)
  /-- The members are permuted one by one and then put in another order. -/
  | union {ms ns ns' : List MemberType} (hmembers : List.Forall₂ Permuted ms ns)
    (horder : ns.Perm ns') : Permuted (.union ms) (.union ns')
  | function {ps qs : List MemberType} {r s : MemberType} (hparams : List.Forall₂ Permuted ps qs)
    (hresult : Permuted r s) : Permuted (.function ps r) (.function qs s)

namespace Permuted

variable {a b : MemberType}

/-- One level cannot tell permuted types apart, in either direction. -/
theorem agrees (h : Permuted a b) :
    Agrees Permuted a b ∧ Agrees (fun b a => Permuted a b) b a := by
  cases h with
  | keyword k => exact ⟨.keyword k, .keyword k⟩
  | literal l => exact ⟨.literal BEq.rfl, .literal BEq.rfl⟩
  | named x => exact ⟨.named x, .named x⟩
  | @union ms ns ns' hmembers horder =>
    have hlen : ms.length = ns'.length := hmembers.length_eq.trans horder.length_eq
    refine ⟨.union hlen fun m hm => ?_, .union hlen.symm fun n hn => ?_⟩
    · obtain ⟨n, hn, hmn⟩ := exists_mem_of_forall₂ hmembers hm
      exact ⟨n, horder.mem_iff.mp hn, hmn⟩
    · exact exists_mem_of_forall₂ hmembers.flip (horder.mem_iff.mpr hn)
  | function hparams hresult =>
    exact ⟨.function hparams hresult, .function hparams.flip hresult⟩

/-- Types that differ in the order of union members are interchangeable. -/
theorem interchangeable (h : Permuted a b) (n : Nat) : Interchangeable n a b :=
  .of_agrees (fun _ _ => agrees) n h

end Permuted

/-- The order of union members never matters: types and permuted types are assignable and identical
alike, however deep they are and however many levels are compared. -/
theorem relations_of_permuted {s s' t t' : MemberType} (hs : Permuted s s') (ht : Permuted t t') :
    s.isAssignable t = s'.isAssignable t' ∧ s.isIdentical t = s'.isIdentical t' ∧
      ∀ n, (assignable n s t).holds = (assignable n s' t').holds ∧
        (identical n s t).holds = (identical n s' t').holds := by
  have hlevels : ∀ n, (assignable n s t).holds = (assignable n s' t').holds ∧
      (identical n s t).holds = (identical n s' t').holds := fun n =>
    (hs.interchangeable n).holds_eq (ht.interchangeable n)
  obtain ⟨hassignable, hidentical⟩ := hlevels maxDepth
  exact ⟨hassignable, hidentical, hlevels⟩

/-- A function of a text, a number or nothing that may return a handle. -/
def listener : MemberType :=
  .function [.union [.keyword .string, .union [.keyword .number, .keyword .null]]]
    (.union [.keyword .undefined, .named "Handle"])

/-- The listener with the members of all its unions in another order. -/
def listenerPermuted : MemberType :=
  .function [.union [.union [.keyword .null, .keyword .number], .keyword .string]]
    (.union [.named "Handle", .keyword .undefined])

/-- The listener differs from its variant in the order of union members only. -/
theorem permuted_listener : Permuted listener listenerPermuted := by
  have hinner : Permuted (.union [.keyword .number, .keyword .null])
      (.union [.keyword .null, .keyword .number]) :=
    .union (.cons (.keyword _) (.cons (.keyword _) .nil)) (.swap _ _ _)
  have hparam : Permuted (.union [.keyword .string, .union [.keyword .number, .keyword .null]])
      (.union [.union [.keyword .null, .keyword .number], .keyword .string]) :=
    .union (.cons (.keyword _) (.cons hinner .nil)) (.swap _ _ _)
  have hresult : Permuted (.union [.keyword .undefined, .named "Handle"])
      (.union [.named "Handle", .keyword .undefined]) :=
    .union (.cons (.keyword _) (.cons (.named _) .nil)) (.swap _ _ _)
  exact .function (.cons hparam .nil) hresult

/-- The listener in both orders against an optional one, also where three levels cut it off. -/
theorem listener_in_any_order :
    (listener.isAssignable (.union [.keyword .null, listener]) =
        listenerPermuted.isAssignable (.union [listenerPermuted, .keyword .null]) ∧
      listener.isIdentical (.union [.keyword .null, listener]) =
        listenerPermuted.isIdentical (.union [listenerPermuted, .keyword .null])) ∧
    (assignable 3 listener (.union [.keyword .null, listener])).cutOffs.isEmpty = false ∧
      (assignable 3 listener (.union [.keyword .null, listener])).holds =
        (assignable 3 listenerPermuted (.union [listenerPermuted, .keyword .null])).holds := by
  have htarget : Permuted (.union [.keyword .null, listener])
      (.union [listenerPermuted, .keyword .null]) :=
    .union (.cons (.keyword _) (.cons permuted_listener .nil)) (.swap _ _ _)
  obtain ⟨hassignable, hidentical, hlevels⟩ := relations_of_permuted permuted_listener htarget
  exact ⟨⟨hassignable, hidentical⟩, by decide, (hlevels 3).1⟩

end MemberType

end ClassContract
