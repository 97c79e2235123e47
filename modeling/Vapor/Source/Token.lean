/-
Vapor/Source/Token.lean

The tokens of Vapor text.  A token has a kind, the text it was read from and
the span of that text.  Line ends are tokens of their own, because in Vapor an
item ends with its line.
-/
import Vapor.Source.Span

namespace Vapor

/-- The kinds of token. -/
inductive Token.Kind where
  | eof
  | newline
  | ident
  | integer
  | text
  | func
  | const
  | var
  | call
  | ifTrue
  | ifZero
  | goto
  | ret
  | lparen
  | rparen
  | lbracket
  | rbracket
  | plus
  | assign
  | colon
deriving DecidableEq, Repr

namespace Token.Kind

/-- All kinds, the two that end something first. -/
def all : List Token.Kind :=
  [eof, newline, ident, integer, text, func, const, var, call, ifTrue, ifZero, goto, ret,
    lparen, rparen, lbracket, rbracket, plus, assign, colon]

/-- The name under which a kind is listed. -/
def name : Token.Kind → String
  | eof => "EOF"
  | newline => "NEWLINE"
  | ident => "IDENT"
  | integer => "INT_LIT"
  | text => "STRING_LIT"
  | func => "FUNC"
  | const => "CONST"
  | var => "VAR"
  | call => "CALL"
  | ifTrue => "IF"
  | ifZero => "IF0"
  | goto => "GOTO"
  | ret => "RET"
  | lparen => "LPAREN"
  | rparen => "RPAREN"
  | lbracket => "LBRACKET"
  | rbracket => "RBRACKET"
  | plus => "PLUS"
  | assign => "ASSIGN"
  | colon => "COLON"

/-- The kind listed under a name. -/
def named? (name : String) : Option Token.Kind :=
  all.find? fun kind => kind.name == name

/-- The kind of a word: eight words are keywords, all others identifiers. -/
def ofWord : String → Token.Kind
  | "func" => func
  | "const" => const
  | "var" => var
  | "call" => call
  | "if" => ifTrue
  | "if0" => ifZero
  | "goto" => goto
  | "ret" => ret
  | _ => ident

/-- The kind of a character that is a token by itself. -/
def ofChar? : Char → Option Token.Kind
  | '(' => some lparen
  | ')' => some rparen
  | '[' => some lbracket
  | ']' => some rbracket
  | '+' => some plus
  | '=' => some assign
  | ':' => some colon
  | _ => none

/-- Does a token of this kind open an item at the top level? -/
def opensItem : Token.Kind → Bool
  | func | const | var => true
  | _ => false

end Token.Kind

/-- A token of a source text. -/
structure Token where
  kind : Token.Kind
  lexeme : String
  span : Span
deriving DecidableEq, Repr

end Vapor
