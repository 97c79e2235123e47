/-
Vapor/Program/Parser.lean

From tokens to programs, by recursive descent over a cursor.  Every item stands
on lines of its own: a segment or function reaches up to the next keyword that
opens an item, or to the end of the text, and empty lines count for nothing.

A failure is reported at the current token, except that an integer whose text
cannot be read fails where it is read and has no place of its own.

Loops carry a bound on their rounds.  Each round reads at least one token, so
the bound is never reached on tokens that come to an end; on tokens that do not,
running into it is the failure `endless`.
-/
import Vapor.Program.Basic
import Vapor.Source.Cursor
import Vapor.Text.Integer

namespace Vapor

/-- What is missing, or present twice, at some token. -/
inductive ParseFault where
  | noItem
  | noSegmentName
  | noSegmentLineEnd
  | noDatum
  | noDatumLineEnd
  | noFunctionName
  | noParams
  | noParamName
  | noHeaderLineEnd
  | noLabelLineEnd
  | noInstr
  | noInstrLineEnd
  | noAddressAssign
  | noBranchGoto
  | noCallee
  | noArgs
  | openArgs
  | noBase
  | noOffset
  | noAddressEnd
  | noOperand
  | noColon
  | noLabelName
  | duplicateItem (name : String)
  | duplicateParam (name : String)
  | duplicateLabel (name : String)
deriving DecidableEq, Repr

/-- The wording of a fault. -/
def ParseFault.text : ParseFault → String
  | noItem => "Expected 'func', 'const' or 'var' at top level"
  | noSegmentName => "Expected data segment name"
  | noSegmentLineEnd => "Expected end of line after data segment name"
  | noDatum => "Expected label reference or integer in data segment"
  | noDatumLineEnd => "Expected end of line after data value"
  | noFunctionName => "Expected function name"
  | noParams => "Expected '(' after function name"
  | noParamName => "Expected parameter name"
  | noHeaderLineEnd => "Expected end of line after function header"
  | noLabelLineEnd => "Expected end of line after label"
  | noInstr => "Expected instruction"
  | noInstrLineEnd => "Expected end of line after instruction"
  | noAddressAssign => "Expected '=' after memory reference"
  | noBranchGoto => "Expected 'goto' in branch"
  | noCallee => "Expected call target"
  | noArgs => "Expected '(' before arguments"
  | openArgs => "Unterminated argument list"
  | noBase => "Expected base variable in memory reference"
  | noOffset => "Expected integer offset after '+'"
  | noAddressEnd => "Expected ']' after memory reference"
  | noOperand => "Expected operand"
  | noColon => "Expected ':' before label reference"
  | noLabelName => "Expected label name after ':'"
  | duplicateItem name => s!"Duplicate top-level name '{name}'"
  | duplicateParam name => s!"Duplicate parameter '{name}'"
  | duplicateLabel name => s!"Duplicate label '{name}'"

/-- Why tokens are no program. -/
inductive ParseError where
  /-- There are no tokens at all. -/
  | noTokens
  /-- Something is wrong at a token. -/
  | fault (what : ParseFault) (span : Span)
  /-- The text of an integer cannot be read. -/
  | integer (cause : Text.IntegerError)
  /-- The tokens do not come to an end. -/
  | endless
deriving DecidableEq, Repr

/-- The place of a failure, if it has one. -/
def ParseError.span? : ParseError → Option Span
  | .fault _ span => some span
  | _ => none

/-- The message for the user. -/
def ParseError.message : ParseError → String
  | .noTokens => Cursor.emptyMessage
  | .fault what span => span.locate what.text
  | .integer cause => cause.message
  | .endless => "the tokens do not come to an end"

/-- A reader of tokens: moves the cursor and returns what it has read. -/
abbrev Parser := StateT Cursor (Except ParseError)

namespace Parser

/-! ### Single tokens -/

/-- The token to be read next. -/
def current : Parser Token := do
  return (← get).current

/-- Reads a token of any kind. -/
def next : Parser Token := do
  let s ← get
  set s.advance
  return s.current

/-- Fails at the current token. -/
def failHere {α : Type} (fault : ParseFault) : Parser α := do
  throw (.fault fault (← current).span)

/-- Reads a token of the given kind. -/
def expect (kind : Token.Kind) (fault : ParseFault) : Parser Token := do
  if (← current).kind = kind then next else failHere fault

/-- Reads the end of a line; the end of the text will do and stays unread. -/
def endOfLine (fault : ParseFault) : Parser Token := do
  if (← get).atEnd then current else expect .newline fault

/-- A bound for loops that read a token in each round. -/
def bound : Parser Nat := do
  return (← get).ahead.length + 2

/-! ### Operands -/

/-- The integer a token stands for. -/
def integer (t : Token) : Parser Int :=
  match Text.readInteger t.lexeme with
  | .ok n => pure n
  | .error e => throw (.integer e)

/-- Reads the name of a label behind a colon. -/
def label : Parser (Ref Span) := do
  let colon ← expect .colon .noColon
  let name ← expect .ident .noLabelName
  return ⟨name.lexeme, colon.span.join name.span⟩

/-- Reads an operand. -/
def operand : Parser (Operand Span) := do
  let t ← current
  match t.kind with
  | .ident =>
    let _ ← next
    return .var ⟨t.lexeme, t.span⟩
  | .integer =>
    let _ ← next
    return .int (← integer t) t.span
  | .text =>
    let _ ← next
    return .text t.lexeme t.span
  | .colon => return .label (← label)
  | _ => failHere .noOperand

/-- Reads operands up to the closing parenthesis, whose span is returned too. -/
def operands : Nat → Parser (List (Operand Span) × Span)
  | 0 => throw .endless
  | rounds + 1 => do
    let t ← current
    match t.kind with
    | .rparen =>
      let _ ← next
      return ([], t.span)
    | .newline | .eof => failHere .openArgs
    | _ =>
      let x ← operand
      let (xs, close) ← operands rounds
      return (x :: xs, close)

/-- Reads arguments in parentheses. -/
def args : Parser (List (Operand Span) × Span) := do
  let _ ← expect .lparen .noArgs
  operands (← bound)

/-- Reads the offset of an address: nothing, a plus and an integer, or an
integer that begins with a minus. -/
def offset : Parser Int := do
  let t ← current
  if t.kind = .plus then
    let _ ← next
    integer (← expect .integer .noOffset)
  else if t.kind = .integer ∧ t.lexeme.toList.head? = some '-' then
    let _ ← next
    integer t
  else return 0

/-- Reads an address; the current token is its opening bracket. -/
def address : Parser (Address Span) := do
  let opening ← next
  let base ← expect .ident .noBase
  let offset ← offset
  let close ← expect .rbracket .noAddressEnd
  return ⟨⟨base.lexeme, base.span⟩, offset, opening.span.join close.span⟩

/-! ### Instructions -/

/-- Reads a call; the current token is its keyword.  The instruction began at `start`. -/
def call (dest : Option (Ref Span)) (start : Span) : Parser (Instr Span) := do
  let _ ← next
  let callee ← do
    if (← current).kind = .colon then
      pure (Callee.label (← label))
    else
      let name ← expect .ident .noCallee
      pure (Callee.var ⟨name.lexeme, name.span⟩)
  let (args, close) ← args
  return .call dest callee args (start.join close)

/-- Reads the application of an operation, whose name is the current token.
The instruction began at `start`. -/
def application (dest : Option (Ref Span)) (start : Span) : Parser (Instr Span) := do
  let op ← next
  let (args, close) ← args
  return .apply dest op.lexeme args (start.join close)

/-- Reads the right-hand side of an assignment to a variable. -/
def assignment (dest : Ref Span) : Parser (Instr Span) := do
  let s ← get
  match s.current.kind, (s.peek 1).kind with
  | .lbracket, _ =>
    let source ← address
    return .load dest source (dest.note.join source.note)
  | .call, _ => call (some dest) dest.note
  | .ident, .lparen => application (some dest) dest.note
  | _, _ =>
    let source ← operand
    return .assign dest source (dest.note.join source.note)

/-- Reads a conditional jump; the current token is its keyword. -/
def branch (positive : Bool) : Parser (Instr Span) := do
  let keyword ← next
  let test ← operand
  let _ ← expect .goto .noBranchGoto
  let target ← label
  return .branch test positive target (keyword.span.join target.note)

/-- Reads an instruction. -/
def instr : Parser (Instr Span) := do
  let s ← get
  let t := s.current
  match t.kind, (s.peek 1).kind with
  | .ident, .assign =>
    let _ ← next
    let _ ← next
    assignment ⟨t.lexeme, t.span⟩
  | .ident, .lparen => application none t.span
  | .lbracket, _ =>
    let dest ← address
    let _ ← expect .assign .noAddressAssign
    let source ← operand
    return .store dest source (dest.note.join source.note)
  | .call, _ => call none t.span
  | .ifTrue, _ => branch true
  | .ifZero, _ => branch false
  | .goto, _ =>
    let _ ← next
    let target ← label
    return .goto target (t.span.join target.note)
  | .ret, _ =>
    let _ ← next
    if (← get).isAny [.newline, .eof] then
      return .ret none t.span
    else
      let value ← operand
      return .ret (some value) (t.span.join value.note)
  | _, _ => failHere .noInstr

/-! ### Items -/

/-- Reads a word of a data segment. -/
def datum : Parser (Datum Span) := do
  let t ← current
  match t.kind with
  | .colon => return .label (← label)
  | .integer =>
    let _ ← next
    return .int (← integer t) t.span
  | _ => failHere .noDatum

/-- Reads the words of a data segment.  Several may stand on a line; `last` is
the span of the latest line end, and the span of the last one is returned. -/
def data (last : Span) : Nat → Parser (List (Datum Span) × Span)
  | 0 => throw .endless
  | rounds + 1 => do
    let s ← get
    if s.atItem then return ([], last)
    else if s.current.kind = .newline then
      let _ ← next
      data last rounds
    else
      let value ← datum
      let last ← do
        if (← get).isAny [.ident, .colon, .integer] then pure last
        else pure (← endOfLine .noDatumLineEnd).span
      let (values, last) ← data last rounds
      return (value :: values, last)

/-- Reads a data segment after its keyword. -/
def segment (keyword : Token) : Parser (Segment Span) := do
  let name ← expect .ident .noSegmentName
  let header ← endOfLine .noSegmentLineEnd
  let (values, last) ← data header.span (← bound)
  return ⟨name.lexeme, keyword.kind == .var, values, keyword.span.join last⟩

/-- Reads parameters up to the closing parenthesis, whose span is returned too.
No name in `seen` may occur among them. -/
def params (seen : List String) : Nat → Parser (List (Ref Span) × Span)
  | 0 => throw .endless
  | rounds + 1 => do
    let t ← current
    if t.kind = .rparen then
      let _ ← next
      return ([], t.span)
    else
      let name ← expect .ident .noParamName
      if name.lexeme ∈ seen then
        throw (.fault (.duplicateParam name.lexeme) name.span)
      let (rest, close) ← params (name.lexeme :: seen) rounds
      return (⟨name.lexeme, name.span⟩ :: rest, close)

/-- The lines of a function below its header. -/
structure Block where
  body : List (Instr Span)
  labels : List (Label Span)
  /-- The span of the last label or instruction. -/
  last : Span

/-- Reads the lines of a function from the instruction with this index on.  No
name in `seen` may occur among the labels; `last` is the span of the latest
label or instruction. -/
def block (index : Nat) (seen : List String) (last : Span) : Nat → Parser Block
  | 0 => throw .endless
  | rounds + 1 => do
    let s ← get
    if s.atItem then return ⟨[], [], last⟩
    else if s.current.kind = .newline then
      let _ ← next
      block index seen last rounds
    else if s.current.kind = .ident ∧ (s.peek 1).kind = .colon then
      let name ← next
      let _ ← next
      if name.lexeme ∈ seen then
        throw (.fault (.duplicateLabel name.lexeme) name.span)
      let _ ← endOfLine .noLabelLineEnd
      let rest ← block index (name.lexeme :: seen) name.span rounds
      return { rest with labels := ⟨name.lexeme, index, name.span⟩ :: rest.labels }
    else
      let instr ← instr
      let _ ← endOfLine .noInstrLineEnd
      let rest ← block (index + 1) seen instr.note rounds
      return { rest with body := instr :: rest.body }

/-- Reads a function after its keyword. -/
def function (keyword : Token) : Parser (Function Span) := do
  let name ← expect .ident .noFunctionName
  let _ ← expect .lparen .noParams
  let (params, close) ← params [] (← bound)
  let _ ← endOfLine .noHeaderLineEnd
  let block ← block 0 [] close (← bound)
  return ⟨name.lexeme, params, block.body, block.labels, keyword.span.join block.last⟩

/-- Reads segments and functions up to the end of the text. -/
def items : Nat → Parser (List (Segment Span) × List (Function Span))
  | 0 => throw .endless
  | rounds + 1 => do
    let t ← current
    match t.kind with
    | .eof => return ([], [])
    | .newline =>
      let _ ← next
      items rounds
    | .const | .var =>
      let _ ← next
      let segment ← segment t
      let (segments, functions) ← items rounds
      return (segment :: segments, functions)
    | .func =>
      let _ ← next
      let function ← function t
      let (segments, functions) ← items rounds
      return (segments, function :: functions)
    | _ => failHere .noItem

/-! ### Programs -/

/-- The first item whose name is that of an earlier item. -/
def duplicate? (seen : List String) : List (String × Span) → Option (String × Span)
  | [] => none
  | item :: rest => if item.1 ∈ seen then some item else duplicate? (item.1 :: seen) rest

/-- Reads a whole program.  No two items may have the same name. -/
def program : Parser (Program Span) := do
  let start := (← current).span
  let (segments, functions) ← items (← bound)
  let names := segments.map (fun s => (s.name, s.note)) ++ functions.map (fun f => (f.name, f.note))
  match duplicate? [] names with
  | some (name, span) => throw (.fault (.duplicateItem name) span)
  | none => return ⟨segments, functions, start.join (← current).span⟩

end Parser

/-- The program that the tokens stand for. -/
def parse (tokens : List Token) : Except ParseError (Program Span) :=
  match Cursor.ofTokens? tokens with
  | none => .error .noTokens
  | some s => (Parser.program.run s).map Prod.fst

end Vapor
