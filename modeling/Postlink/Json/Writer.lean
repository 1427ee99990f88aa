import Postlink.Json.Basic

/-!
# Writing JSON text

There is one way to write each value: compactly, without a blank, or indented by two blanks a level.
Strings escape quotes, backslashes and control characters and nothing else.
-/

namespace Postlink.Json

/-- A hexadecimal digit in lower case. -/
def hexChar (n : Nat) : Char := Char.ofNat (if n < 10 then 48 + n else 87 + n)

/-- The characters that write a character inside a string. -/
def escape (c : Char) : List Char :=
  if c = '"' then ['\\', '"']
  else if c = '\\' then ['\\', '\\']
  else if c = '\x08' then ['\\', 'b']
  else if c = '\x0c' then ['\\', 'f']
  else if c = '\n' then ['\\', 'n']
  else if c = '\r' then ['\\', 'r']
  else if c = '\t' then ['\\', 't']
  else if c.toNat < 32 then
    ['\\', 'u', '0', '0', hexChar (c.toNat / 16), hexChar (c.toNat % 16)]
  else [c]

/-- A string in quotes. -/
def quote (s : String) : String := "\"" ++ String.ofList (s.toList.flatMap escape) ++ "\""

/-- The text of a string value; one that is no text is written empty. -/
def quoteText (s : Option String) : String := quote (s.getD "")

mutual

/-- The compact text of a value. -/
def compact : Json → String
  | .null => "null"
  | .bool b => if b then "true" else "false"
  | .num d => d.text true
  | .str s => quoteText s
  | .arr items => "[" ++ String.intercalate "," (compactItems items) ++ "]"
  | .obj members => "\x7b" ++ String.intercalate "," (compactMembers members) ++ "\x7d"

/-- The compact texts of an array's items. -/
def compactItems : List Json → List String
  | [] => []
  | j :: js => j.compact :: compactItems js

/-- The compact texts of an object's members. -/
def compactMembers : List (Option String × Json) → List String
  | [] => []
  | (name, j) :: ms => (quoteText name ++ ":" ++ j.compact) :: compactMembers ms

end

/-- The start of a line at an indentation level. -/
def newline (level : Nat) : String := "\n" ++ String.ofList (List.replicate (2 * level) ' ')

/-- Parts on lines of their own between two marks, or the marks alone. -/
def bracket (level : Nat) (opening closing : String) (parts : List String) : String :=
  if parts.isEmpty then opening ++ closing
  else opening ++ newline (level + 1) ++ String.intercalate ("," ++ newline (level + 1)) parts
    ++ newline level ++ closing

mutual

/-- The indented text of a value that starts at a level. -/
def indented (level : Nat) : Json → String
  | .arr items => bracket level "[" "]" (indentedItems level items)
  | .obj members => bracket level "\x7b" "\x7d" (indentedMembers level members)
  | j => j.compact

/-- The indented texts of an array's items. -/
def indentedItems (level : Nat) : List Json → List String
  | [] => []
  | j :: js => indented (level + 1) j :: indentedItems level js

/-- The indented texts of an object's members. -/
def indentedMembers (level : Nat) : List (Option String × Json) → List String
  | [] => []
  | (name, j) :: ms =>
      (quoteText name ++ ": " ++ indented (level + 1) j) :: indentedMembers level ms

end

end Postlink.Json
