import Stepwise.Scope.Panel

/-!
# Published states

What a session shows after a command.
-/

namespace Stepwise

/-- A terminal error, with the line it is reported for, counted from one. -/
structure Report where
  cause : Cause
  line : Nat

structure State where
  rows : List VariableRow
  /-- the line that is executed next, counted from zero; for a failed step its own line, counted from one -/
  currentLine : Nat
  callStack : List Text
  output : Array Text
  isComplete : Bool
  error : Option Report
  warnings : Array Text
  steps : Nat

def VariableRow.toJson (r : VariableRow) : Json :=
  .obj [("name", .text r.name), ("value", .text r.value.toText), ("type", .text r.type), ("changed", .bool r.changed)]

def Report.toJson (r : Report) : Json :=
  let hint := match r.cause.hint with
    | some hint => [("hint", .text hint)]
    | none => []
  .obj ([("name", .text r.cause.kind.name), ("message", .text r.cause.message), ("line", .nat r.line)] ++ hint)

structure StateNames where
  currentLine : String
  callStack : String
  isComplete : String

def StateNames.plain : StateNames := ⟨"current_line", "call_stack", "is_complete"⟩

def StateNames.camel : StateNames := ⟨"currentLine", "callStack", "isComplete"⟩

def Json.texts (items : List Text) : Json := .array (items.map .text)

def State.toJson (names : StateNames) (s : State) : Json :=
  .obj [
    ("variables", .array (s.rows.map VariableRow.toJson)),
    (names.currentLine, .nat s.currentLine),
    (names.callStack, .texts s.callStack),
    ("output", .texts s.output.toList),
    (names.isComplete, .bool s.isComplete),
    ("error", (s.error.map Report.toJson).getD .null),
    ("warnings", .texts s.warnings.toList),
    ("steps", .nat s.steps)]

end Stepwise
