/-
Vapor/Source/Lexer.lean

From text to tokens, in one pass over the characters.  Blanks and comments
separate tokens.  A line feed, or the end of the text, ends the line with a
newline token provided that the line has any token at all, so no two newline
tokens follow each other.  The last token is always the end of the text.

`Lexeme.read` looks at the text from the first character of a token on and says
how many more characters belong to the token; `scan` walks over the text and
leaves out as many.  Positions are kept by `Pos.next`, character by character.
-/
import Vapor.Source.Token
import Vapor.Text.CharClass

namespace Vapor

open Text

/-- What can be wrong with a text. -/
inductive LexFault where
  /-- A character that begins no token. -/
  | unexpected (c : Char)
  /-- A number that runs into a word. -/
  | badInteger
  /-- A backslash before a character that is not to be escaped. -/
  | badEscape
  /-- A string whose line ends before the closing quote. -/
  | openString
deriving DecidableEq, Repr

/-- The wording of a fault. -/
def LexFault.text : LexFault → String
  | unexpected c => s!"Unexpected character '{c}'"
  | badInteger => "Invalid integer literal"
  | badEscape => "Invalid string escape sequence"
  | openString => "Unterminated string literal"

/-- A fault and the span it covers. -/
structure LexError where
  fault : LexFault
  span : Span
deriving DecidableEq, Repr

/-- The message for the user. -/
def LexError.message (e : LexError) : String :=
  e.span.locate e.fault.text

/-! ### Classes of characters -/

/-- Blanks separate tokens; a carriage return is one of them. -/
def isBlank (c : Char) : Bool :=
  c == ' ' || c == '\t' || c == '\r'

/-- A character that an identifier may begin with. -/
def isIdentStart (c : Char) : Bool :=
  isLetter c || c == '_'

/-- A character that an identifier may go on with. -/
def isIdentPart (c : Char) : Bool :=
  isAlnum c || c == '_' || c == '.'

/-- A character that a backslash may stand before in a string. -/
def isEscapable (c : Char) : Bool :=
  c == '"' || c == '\\' || c == 'n' || c == 'r' || c == 't'

/-! ### Single tokens -/

namespace Lexeme

/-- A fault in a token, with the number of characters it covers. -/
abbrev Fault := LexFault × Nat

/-- The length of the rest of a string whose opening quote and `before` more
characters have been read, closing quote included.  Faults count from the
opening quote. -/
def stringRest (before : Nat) : List Char → Except Fault Nat
  | [] => .error (.openString, before + 1)
  | '"' :: _ => .ok (before + 1)
  | '\n' :: _ => .error (.openString, before + 1)
  | '\\' :: [] => .error (.openString, before + 1)
  | '\\' :: '\n' :: _ => .error (.openString, before + 1)
  | '\\' :: c :: rest =>
    if isEscapable c then stringRest (before + 2) rest else .error (.badEscape, before + 3)
  | _ :: rest => stringRest (before + 1) rest

/-- The length of the rest of a number, of which one character has been read.
No word may follow it immediately. -/
def numberRest (rest : List Char) : Except Fault Nat :=
  let digits := rest.takeWhile isDigit
  match rest.drop digits.length with
  | [] => .ok digits.length
  | c :: _ =>
    if isIdentStart c then .error (.badInteger, digits.length + 1) else .ok digits.length

/-- The kind of the token that begins with `c`, and how many of the characters
`rest` that follow belong to it as well. -/
def read (c : Char) (rest : List Char) : Except Fault (Token.Kind × Nat) :=
  if isIdentStart c then
    let more := rest.takeWhile isIdentPart
    .ok (Token.Kind.ofWord (String.ofList (c :: more)), more.length)
  else if isDigit c || (c == '-' && rest.head?.any isDigit) then
    (numberRest rest).map fun n => (.integer, n)
  else if c == '"' then
    (stringRest 0 rest).map fun n => (.text, n)
  else
    match Token.Kind.ofChar? c with
    | some kind => .ok (kind, 0)
    | none => .error (.unexpected c, 0)

end Lexeme

/-! ### Whole texts -/

/-- The tokens that end a line at `p`: one, unless the line has no tokens. -/
def lineEnd (used : Bool) (lexeme : String) (p q : Pos) : List Token :=
  if used then [⟨.newline, lexeme, ⟨p, q⟩⟩] else []

/-- The tokens of the text that begins at `p`, after `skip` characters that
have been accounted for.  `used` says whether the line of `p` has a token. -/
def scan (p : Pos) (used : Bool) (skip : Nat) : List Char → Except LexError (List Token)
  | [] => .ok (lineEnd used "" p p ++ [⟨.eof, "", Span.at p⟩])
  | c :: rest =>
    let q := p.next c
    match skip with
    | n + 1 => scan q used n rest
    | 0 =>
      if c = '\n' then
        (scan q false 0 rest).map (lineEnd used "\n" p q ++ ·)
      else if isBlank c then scan q used 0 rest
      else if c = '/' ∧ rest.head? = some '/' then
        scan q used (rest.takeWhile (· != '\n')).length rest
      else
        match Lexeme.read c rest with
        | .error (fault, n) => .error ⟨fault, ⟨p, p.right n⟩⟩
        | .ok (kind, n) =>
          let token := ⟨kind, String.ofList (c :: rest.take n), ⟨p, p.right (n + 1)⟩⟩
          (scan q true n rest).map (token :: ·)

/-- The tokens of a source text. -/
def lex (path source : String) : Except LexError (List Token) :=
  scan (Pos.first path) false 0 source.toList

end Vapor
