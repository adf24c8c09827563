import ClassContract.Declaration.Json
import ClassContract.Report.Basic

/-!
# Reports as JSON

A violation without a place of declaration is written without that key, and so is a report that
leaves nothing to subclasses. Both may be read back.
-/

namespace ClassContract

namespace Category

/-- Read a category. -/
def decoder : Decoder Category := .choice (all.map fun k => (k.word, k))

end Category

namespace Code

/-- A code as JSON. -/
def toJson (c : Code) : Json := .text c.text

/-- Read a code. -/
def decoder : Decoder Code := .choice (all.map fun c => (c.text, c))

end Code

namespace Side

/-- A side as JSON. -/
def toJson : Side → Json
  | .none => .record [("kind", .text "none")]
  | .kind k => .record [("kind", .text "kind"), ("value", k.toJson)]
  | .type t => .record [("kind", .text "type"), ("value", t.toJson)]
  | .count n => .record [("kind", .text "count"), ("value", .count n)]

/-- Read a side. -/
def decoder : Decoder Side :=
  .tagged "Side"
    [("none", .plain .none), ("kind", .holding (MemberKind.decoder.map .kind)),
      ("type", .holding (MemberType.decoder.map .type)),
      ("count", .holding (Decoder.count.map .count))]

end Side

namespace Violation

/-- A violation as JSON. -/
def toJson (v : Violation) : Json :=
  .record
    ([("memberName", .text v.member), ("category", .text v.category.word), ("code", v.code.toJson),
      ("ownerClass", .text v.owner)]
      ++ v.declaredIn.toList.map (fun s => ("declaredIn", .text s))
      ++ [("expected", v.expected.toJson), ("actual", v.actual.toJson)])

/-- Read a violation. -/
def decoder : Decoder Violation :=
  .record "Violation" ⟨"", .error, .unimplemented, "", none, .none, .none⟩
    [.need "memberName" .text fun v d => { d with member := v },
      .need "category" Category.decoder fun v d => { d with category := v },
      .need "code" Code.decoder fun v d => { d with code := v },
      .need "ownerClass" .text fun v d => { d with owner := v },
      .may "declaredIn" (.optional .text) fun v d => { d with declaredIn := v },
      .need "expected" Side.decoder fun v d => { d with expected := v },
      .need "actual" Side.decoder fun v d => { d with actual := v }]

end Violation

namespace Report

/-- A report as JSON. -/
def toJson (r : Report) : Json :=
  .record
    ([("className", .text r.className), ("isAbstract", .bool r.isAbstract),
      ("diagnostics", .array (r.violations.map Violation.toJson))]
      ++ if r.pending.isEmpty then [] else [("pending", .array (r.pending.map Member.toJson))])

/-- Read a report. -/
def decoder : Decoder Report :=
  .record "Report" ⟨"", false, [], []⟩
    [.need "className" .text fun v r => { r with className := v },
      .need "isAbstract" .bool fun v r => { r with isAbstract := v },
      .need "diagnostics" (.list Violation.decoder) fun v r => { r with violations := v },
      .may "pending" (.list Member.decoder) fun v r => { r with pending := v }]

end Report

end ClassContract
