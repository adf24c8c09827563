import ClassContract.MemberType.Basic

/-!
# The text of a member type

Unions are written with bars, function types with numbered parameters and an arrow. A function type
inside a union stands in parentheses; a union inside a function type does not.
-/

namespace ClassContract.MemberType

/-- Put parentheses around a text. -/
def parenthesized (s : String) : String := "(" ++ s ++ ")"

mutual

/-- The text of a type. -/
def text : MemberType → String
  | .keyword k => k.word
  | .literal l => l.text
  | .named name => name
  | .union ms => unionText ms
  | .function ps r => "(" ++ paramsText 0 ps ++ ") => " ++ text r

/-- The members of a union with bars between them. -/
def unionText : List MemberType → String
  | [] => ""
  | [t] => if t.isFunction then parenthesized (text t) else text t
  | t :: u :: ts =>
    (if t.isFunction then parenthesized (text t) else text t) ++ " | " ++ unionText (u :: ts)

/-- The parameters of a function, numbered from `i` on, with commas between them. -/
def paramsText (i : Nat) : List MemberType → String
  | [] => ""
  | [t] => "arg" ++ Nat.repr i ++ ": " ++ text t
  | t :: u :: ts => "arg" ++ Nat.repr i ++ ": " ++ text t ++ ", " ++ paramsText (i + 1) (u :: ts)

end

end ClassContract.MemberType
