import AuditFields.Json.Basic
import AuditFields.Text.Blank

/-!
# JSON text

Two forms of a value: the compact one without any blanks, and the indented one with a member or an
item a line and two blanks for each level. Strings escape the quote, the backslash and the control
characters below U+0020, numbers that are no integers have the shortest digits that read back.
-/

namespace AuditFields.Json

/-! ## Leaves -/

/-- Numbers are positional from `10 ^ -5` up to `10 ^ 16`; an exponent has its sign always. -/
def numberFormat : Decimal.Format where
  tie := .toEven
  positional power := -5 ≤ power && power ≤ 15
  plusSign := true

def escape (c : Char) : List Char :=
  if c = '"' then ['\\', '"']
  else if c = '\\' then ['\\', '\\']
  else if c = '\x08' then ['\\', 'b']
  else if c = '\x0c' then ['\\', 'f']
  else if c = '\n' then ['\\', 'n']
  else if c = '\r' then ['\\', 'r']
  else if c = '\t' then ['\\', 't']
  else if c.toNat < 0x20 then
    ['\\', 'u', '0', '0', Nat.digitChar (c.toNat / 16), Nat.digitChar (c.toNat % 16)]
  else [c]

/-- The literal of a string, quotes included. -/
def quoted (s : String) : String :=
  String.ofList ('"' :: (s.toList.flatMap escape ++ ['"']))

/-! ## The compact form -/

mutual

def compact : Json → String
  | .null => "null"
  | .bool true => "true"
  | .bool false => "false"
  | .int n => toString n
  | .float x => x.text numberFormat
  | .string s => quoted s
  | .array items => "[" ++ Text.joinWith "," (compactItems items) ++ "]"
  | .object members => "\x7b" ++ Text.joinWith "," (compactMembers members) ++ "\x7d"

def compactItems : List Json → List String
  | [] => []
  | item :: items => compact item :: compactItems items

/-- The texts of the members, each a name, a colon and a value. -/
def compactMembers : List (String × Json) → List String
  | [] => []
  | (name, value) :: members => (quoted name ++ ":" ++ compact value) :: compactMembers members

end

/-! ## The indented form -/

def newline (level : Nat) : String :=
  "\n" ++ String.ofList (List.replicate (2 * level) ' ')

/-- A container with its parts on lines of their own, or its two brackets if it has no parts. -/
def block (level : Nat) (opening closing : String) : List String → String
  | [] => opening ++ closing
  | parts =>
    opening ++ newline (level + 1) ++ Text.joinWith ("," ++ newline (level + 1)) parts ++
      newline level ++ closing

mutual

/-- The text of a value at a level of indentation; its first line is not indented. -/
def indentedAt (level : Nat) : Json → String
  | .array items => block level "[" "]" (indentedItems (level + 1) items)
  | .object members => block level "\x7b" "\x7d" (indentedMembers (level + 1) members)
  | .null => compact .null
  | .bool b => compact (.bool b)
  | .int n => compact (.int n)
  | .float x => compact (.float x)
  | .string s => compact (.string s)

def indentedItems (level : Nat) : List Json → List String
  | [] => []
  | item :: items => indentedAt level item :: indentedItems level items

def indentedMembers (level : Nat) : List (String × Json) → List String
  | [] => []
  | (name, value) :: members =>
    (quoted name ++ ": " ++ indentedAt level value) :: indentedMembers level members

end

def indented (value : Json) : String :=
  indentedAt 0 value

end AuditFields.Json
