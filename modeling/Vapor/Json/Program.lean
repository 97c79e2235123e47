/-
Vapor/Json/Program.lean

Programs and tokens as JSON.  Every node is an object that names its kind under
`node`; the notes of a program are shown by a function from a note to the
fields that stand for it, so that spans can be shown or left out.
-/
import Vapor.Json.Basic
import Vapor.Program.Basic
import Vapor.Source.Token

namespace Vapor

namespace Json

/-- A node of the given kind. -/
def node (kind : String) (fields : List (String × Json)) : Json :=
  .obj (("node", .str kind) :: fields)

/-- An optional value, `null` if it is absent. -/
def opt {β : Type} (toJson : β → Json) : Option β → Json
  | none => .null
  | some b => toJson b

end Json

/-! ### Places -/

/-- A position as JSON. -/
def Pos.toJson (p : Pos) : Json :=
  .node "SourcePos"
    [("path", .str p.path), ("offset", .int p.offset), ("line", .int p.line),
      ("column", .int p.column)]

/-- A span as JSON. -/
def Span.toJson (s : Span) : Json :=
  .node "SourceSpan" [("start", s.start.toJson), ("end", s.stop.toJson)]

/-- The fields that show a span, or none. -/
def Span.fields (shown : Bool) (s : Span) : List (String × Json) :=
  if shown then [("span", s.toJson)] else []

/-- A token as JSON. -/
def Token.toJson (spans : Bool) (t : Token) : Json :=
  .node "Token" ([("kind", .str t.kind.name), ("lexeme", .str t.lexeme)] ++ t.span.fields spans)

/-! ### Programs -/

variable {α : Type} (note : α → List (String × Json))

/-- A variable as JSON. -/
def Ref.varToJson (r : Ref α) : Json :=
  .node "VarRef" ([("name", .str r.name)] ++ note r.note)

/-- A label as JSON. -/
def Ref.labelToJson (r : Ref α) : Json :=
  .node "LabelRef" ([("name", .str r.name)] ++ note r.note)

/-- An integer as JSON. -/
def intToJson (value : Int) (n : α) : Json :=
  .node "IntLit" ([("value", .int value)] ++ note n)

/-- An operand as JSON. -/
def Operand.toJson : Operand α → Json
  | .var ref => ref.varToJson note
  | .int value n => intToJson note value n
  | .text lexeme n => .node "StringLit" ([("lexeme", .str lexeme)] ++ note n)
  | .label ref => ref.labelToJson note

/-- A callee as JSON. -/
def Callee.toJson : Callee α → Json
  | .var ref => ref.varToJson note
  | .label ref => ref.labelToJson note

/-- A word of a segment as JSON. -/
def Datum.toJson : Datum α → Json
  | .int value n => intToJson note value n
  | .label ref => ref.labelToJson note

/-- An address as JSON. -/
def Address.toJson (a : Address α) : Json :=
  .node "MemRef"
    ([("base", a.base.varToJson note), ("byte_offset", .int a.offset)] ++ note a.note)

/-- An instruction as JSON. -/
def Instr.toJson : Instr α → Json
  | .assign dest source n =>
    .node "Assign" ([("dest", dest.varToJson note), ("source", source.toJson note)] ++ note n)
  | .call dest callee args n =>
    .node "Call"
      ([("dest", .opt (Ref.varToJson note) dest), ("addr", callee.toJson note),
        ("args", .arr (args.map (Operand.toJson note)))] ++ note n)
  | .apply dest op args n =>
    .node "BuiltIn"
      ([("dest", .opt (Ref.varToJson note) dest), ("op_name", .str op),
        ("args", .arr (args.map (Operand.toJson note)))] ++ note n)
  | .store dest source n =>
    .node "MemWrite" ([("dest", dest.toJson note), ("source", source.toJson note)] ++ note n)
  | .load dest source n =>
    .node "MemRead" ([("dest", dest.varToJson note), ("source", source.toJson note)] ++ note n)
  | .branch test positive target n =>
    .node "Branch"
      ([("value", test.toJson note), ("positive", .bool positive),
        ("target", target.labelToJson note)] ++ note n)
  | .goto target n => .node "Goto" ([("target", target.labelToJson note)] ++ note n)
  | .ret value n => .node "Return" ([("value", .opt (Operand.toJson note) value)] ++ note n)

/-- A label of a function as JSON. -/
def Label.toJson (l : Label α) : Json :=
  .node "CodeLabel" ([("name", .str l.name), ("instr_index", .int l.index)] ++ note l.note)

/-- A function as JSON. -/
def Function.toJson (f : Function α) : Json :=
  .node "FunctionIr"
    ([("name", .str f.name), ("params", .arr (f.params.map (Ref.varToJson note))),
      ("body", .arr (f.body.map (Instr.toJson note))),
      ("labels", .arr (f.labels.map (Label.toJson note)))] ++ note f.note)

/-- A segment as JSON. -/
def Segment.toJson (s : Segment α) : Json :=
  .node "DataSegment"
    ([("name", .str s.name), ("is_mutable", .bool s.isMutable),
      ("values", .arr (s.values.map (Datum.toJson note)))] ++ note s.note)

/-- A program as JSON. -/
def Program.toJson (p : Program α) : Json :=
  .node "ProgramIr"
    ([("data_segments", .arr (p.segments.map (Segment.toJson note))),
      ("functions", .arr (p.functions.map (Function.toJson note)))] ++ note p.note)

/-- The dump of a program that was read from a text, with or without its spans. -/
def Program.dump (spans : Bool) (p : Program Span) : String :=
  (p.toJson (Span.fields spans)).text

end Vapor
