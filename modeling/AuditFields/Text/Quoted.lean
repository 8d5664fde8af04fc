import AuditFields.Text.Blank

/-!
# Quoted literals

A string literal as the schema language and the mapping templates write it: between double quotes,
with a backslash before a quote or a backslash, short escapes for the line feed, the carriage return
and the tab, and four upper-case hexadecimal digits for any other control character.
-/

namespace AuditFields.Text.Quoted

/-- The hexadecimal digit of a number below sixteen, with upper-case letters. -/
def hexDigit (n : Nat) : Char :=
  Nat.digitChar n |>.toUpper

/-- The last four hexadecimal digits of a number, highest first. -/
def hexDigits (n : Nat) : List Char :=
  [hexDigit (n / 4096 % 16), hexDigit (n / 256 % 16), hexDigit (n / 16 % 16), hexDigit (n % 16)]

def escape (c : Char) : List Char :=
  if c = '"' then ['\\', '"']
  else if c = '\\' then ['\\', '\\']
  else if c = '\n' then ['\\', 'n']
  else if c = '\r' then ['\\', 'r']
  else if c = '\t' then ['\\', 't']
  else if isControl c then '\\' :: 'u' :: hexDigits c.toNat
  else [c]

/-- The literal of a text, quotes included. -/
def encode (cs : List Char) : List Char :=
  '"' :: (cs.flatMap escape ++ ['"'])

end AuditFields.Text.Quoted

namespace AuditFields.Text

/-- The literal of a string, quotes included. -/
def quoted (s : String) : String :=
  String.ofList (Quoted.encode s.toList)

@[simp]
theorem toList_quoted (s : String) : (quoted s).toList = Quoted.encode s.toList := by
  simp [quoted]

end AuditFields.Text
