/-
Vapor/Json/Basic.lean

JSON values and the text they are dumped as: two blanks of indentation per
level, one item per line, the keys of an object in increasing order, and only
printable ASCII characters, all others escaped.
-/
import Vapor.Data.Sorted
import Vapor.Text.Quoted

namespace Vapor

/-- A JSON value without fractions. -/
inductive Json where
  | null
  | bool (value : Bool)
  | int (value : Int)
  | str (value : String)
  | arr (items : List Json)
  | obj (fields : List (String × Json))
deriving Inhabited, Repr

namespace Json

/-- A code unit of sixteen bits as an escape. -/
def escapeUnit (n : Nat) : List Char :=
  '\\' :: 'u' :: Text.hex 4 n

/-- One character of a string: escaped unless it is printable ASCII, and in two
halves if its code does not fit sixteen bits. -/
def escapeChar (c : Char) : List Char :=
  if c = '"' ∨ c = '\\' then ['\\', c]
  else if c = '\n' then ['\\', 'n']
  else if c = '\r' then ['\\', 'r']
  else if c = '\t' then ['\\', 't']
  else if c = '\x08' then ['\\', 'b']
  else if c = '\x0c' then ['\\', 'f']
  else if 32 <= c.toNat ∧ c.toNat < 127 then [c]
  else if c.toNat < 0x10000 then escapeUnit c.toNat
  else
    let n := c.toNat - 0x10000
    escapeUnit (0xD800 + n / 0x400) ++ escapeUnit (0xDC00 + n % 0x400)

/-- A string in quotes. -/
def quote (s : String) : String :=
  String.ofList ('"' :: (s.toList.flatMap escapeChar ++ ['"']))

/-- A new line, indented to a depth. -/
def lineBreak (depth : Nat) : String :=
  String.ofList ('\n' :: List.replicate (2 * depth) ' ')

/-- Items between brackets, one to a line, indented one level deeper than the
closing bracket at `depth`; nothing stands between the brackets of no items. -/
def enclose (opening closing : String) (depth : Nat) : List String → String
  | [] => opening ++ closing
  | items =>
    opening ++ lineBreak (depth + 1) ++ String.intercalate ("," ++ lineBreak (depth + 1)) items ++
      lineBreak depth ++ closing

mutual

/-- The text of a value whose first line stands at the given depth. -/
def render (depth : Nat) : Json → String
  | null => "null"
  | bool true => "true"
  | bool false => "false"
  | int value => toString value
  | str value => quote value
  | arr items => enclose "[" "]" depth (renderItems (depth + 1) items)
  | obj fields =>
    enclose "\x7b" "\x7d" depth
      ((Sorted.sort (fun a b => a.1 <= b.1) (renderFields (depth + 1) fields)).map fun field =>
        quote field.1 ++ ": " ++ field.2)

/-- The texts of several values. -/
def renderItems (depth : Nat) : List Json → List String
  | [] => []
  | item :: items => render depth item :: renderItems depth items

/-- The texts of the values of several fields, with their keys. -/
def renderFields (depth : Nat) : List (String × Json) → List (String × String)
  | [] => []
  | (key, value) :: fields => (key, render depth value) :: renderFields depth fields

end

/-- The text of a value. -/
def text (value : Json) : String :=
  value.render 0

end Json

end Vapor
