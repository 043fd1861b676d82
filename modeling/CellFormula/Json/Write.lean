import CellFormula.Json.Value
import CellFormula.Number.Layout

/-!
# Writing JSON

Two layouts: compact, without blanks, and indented by two spaces with one item on a line. A string
is escaped only where JSON demands it. A number that is not finite is written as null.
-/

namespace CellFormula.Json

def hexDigit (n : Nat) : Char :=
  if n < 10 then Char.ofNat (48 + n) else Char.ofNat (87 + n)

def escapedChar (c : Char) : List Char :=
  if c = '"' then "\\\"".toList
  else if c = '\\' then "\\\\".toList
  else if c = '\n' then "\\n".toList
  else if c = '\r' then "\\r".toList
  else if c = '\t' then "\\t".toList
  else if c.toNat = 0x8 then "\\b".toList
  else if c.toNat = 0xC then "\\f".toList
  else if c.toNat < 0x20 then "\\u00".toList ++ [hexDigit (c.toNat / 16), hexDigit (c.toNat % 16)]
  else [c]

def writeString (s : String) : List Char :=
  '"' :: s.toList.flatMap escapedChar ++ ['"']

def writeNumber : JsonNumber → List Char
  | .integer n => (toString n).toList
  | .real x => Layout.document.write x

mutual

def compact : Json → List Char
  | .null => "null".toList
  | .bool b => (if b then "true" else "false").toList
  | .number n => writeNumber n
  | .string s => writeString s
  | .array [] => "[]".toList
  | .array (j :: js) => '[' :: j.compact ++ compactItems js ++ [']']
  | .object [] => "\x7b\x7d".toList
  | .object ((k, v) :: rest) =>
    '\x7b' :: writeString k ++ ':' :: v.compact ++ compactMembers rest ++ ['\x7d']

def compactItems : List Json → List Char
  | [] => []
  | j :: js => ',' :: j.compact ++ compactItems js

def compactMembers : List (String × Json) → List Char
  | [] => []
  | (k, v) :: rest => ',' :: writeString k ++ ':' :: v.compact ++ compactMembers rest

end

/-- A line break and the indentation of the given level. -/
def lineAt (level : Nat) : List Char :=
  '\n' :: List.replicate (2 * level) ' '

mutual

def indented (level : Nat) : Json → List Char
  | .null => "null".toList
  | .bool b => (if b then "true" else "false").toList
  | .number n => writeNumber n
  | .string s => writeString s
  | .array [] => "[]".toList
  | .array (j :: js) =>
    '[' :: lineAt (level + 1) ++ j.indented (level + 1) ++ indentedItems (level + 1) js ++
      lineAt level ++ [']']
  | .object [] => "\x7b\x7d".toList
  | .object ((k, v) :: rest) =>
    '\x7b' :: lineAt (level + 1) ++ writeString k ++ ':' :: ' ' :: v.indented (level + 1) ++
      indentedMembers (level + 1) rest ++ lineAt level ++ ['\x7d']

def indentedItems (level : Nat) : List Json → List Char
  | [] => []
  | j :: js => ',' :: lineAt level ++ j.indented level ++ indentedItems level js

def indentedMembers (level : Nat) : List (String × Json) → List Char
  | [] => []
  | (k, v) :: rest =>
    ',' :: lineAt level ++ writeString k ++ ':' :: ' ' :: v.indented level ++
      indentedMembers level rest

end

def toText (j : Json) : String :=
  String.ofList j.compact

def toIndentedText (j : Json) : String :=
  String.ofList (j.indented 0)

end CellFormula.Json
