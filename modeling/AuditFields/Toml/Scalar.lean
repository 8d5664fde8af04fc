import AuditFields.Text.Blank
import AuditFields.Toml.Value

/-!
# Reading TOML scalars

Strings in their four forms, numbers, dates and times. A reader takes characters off the front of a
text or fails; why it fails is not told apart.
-/

namespace AuditFields.Toml

/-- Takes a part of a text off its front, or fails. -/
abbrev Reader (α : Type) := StateT (List Char) Option α

namespace Reader

variable {α : Type}

/-! ## Characters -/

def take : Reader Char := do
  match ← get with
  | [] => failure
  | c :: cs => set cs; return c

/-- The next character, which stays, if there is one. -/
def peek : Reader (Option Char) := do
  return (← get).head?

def expect (c : Char) : Reader Unit := do
  guard ((← take) == c)

/-- Whether the text goes on with the given characters, which are taken then. -/
def skip (word : List Char) : Reader Bool := do
  if word.isPrefixOf (← get) then
    modify (List.drop word.length)
    return true
  else return false

def takeWhile (p : Char → Bool) : Reader (List Char) := do
  let cs ← get
  set (cs.dropWhile p)
  return cs.takeWhile p

def isSpace (c : Char) : Bool :=
  c == ' ' || c == '\t'

def space : Reader Unit := do
  discard (takeWhile isSpace)

/-- Whether a line ends here; its end is taken then. -/
def newline : Reader Bool := do
  if ← skip ['\n'] then return true
  skip ['\r', '\n']

def isText (c : Char) : Bool :=
  c == '\t' || (0x20 ≤ c.toNat && c != '\x7f')

/-- Takes a comment up to the end of its line, if there is one. -/
def comment : Reader Unit := do
  if ← skip ['#'] then discard (takeWhile isText)

/-! ## Strings -/

def hexValue? (c : Char) : Option Nat :=
  if c.isDigit then some (c.toNat - '0'.toNat)
  else if 'a' ≤ c && c ≤ 'f' then some (c.toNat - 'a'.toNat + 10)
  else if 'A' ≤ c && c ≤ 'F' then some (c.toNat - 'A'.toNat + 10)
  else none

def codePoint (digits : Nat) : Reader Char := do
  let cs ← get
  let word := cs.take digits
  guard (word.length = digits)
  let n ← (word.foldlM (fun n c => (hexValue? c).map (n * 16 + ·)) 0 : Option Nat)
  guard n.isValidChar
  set (cs.drop digits)
  return Char.ofNat n

def escape : Reader Char := do
  match ← take with
  | 'b' => return '\x08'
  | 't' => return '\t'
  | 'n' => return '\n'
  | 'f' => return '\x0c'
  | 'r' => return '\r'
  | '"' => return '"'
  | '\\' => return '\\'
  | 'u' => codePoint 4
  | 'U' => codePoint 8
  | _ => failure

def basicRest : Nat → Reader (List Char)
  | 0 => failure
  | n + 1 => do
    match ← take with
    | '"' => return []
    | '\\' => return (← escape) :: (← basicRest n)
    | c => guard (isText c); return c :: (← basicRest n)

def literalRest : Reader (List Char) := do
  let body ← takeWhile fun c => isText c && c != '\''
  expect '\''
  return body

/-- Takes the quotes at the end of a string of several lines: three that end it, and up to two in
front of them that belong to it. Fewer than three belong to it too and do not end it. -/
def closingQuotes (quote : Char) : Reader (List Char × Bool) := do
  let run := ((← get).takeWhile (· == quote)).length
  let used := min run 5
  modify (List.drop used)
  if run < 3 then return (List.replicate run quote, false)
  else return (List.replicate (used - 3) quote, true)

/-- Drops a line break that is escaped, with all blanks and line breaks after it. -/
def joinLines : Nat → Reader Unit
  | 0 => return ()
  | n + 1 => do
    space
    if ← newline then joinLines n

/-- Whether an escaped line break follows a backslash: blanks may stand in front of it. -/
def atLineJoin : Reader Bool := do
  let rest := (← get).dropWhile isSpace
  return ['\n'].isPrefixOf rest || ['\r', '\n'].isPrefixOf rest

/-- Takes the rest of a string of several lines with escapes. Line ends count as line feeds. -/
def multilineBasicRest : Nat → Reader (List Char)
  | 0 => failure
  | n + 1 => do
    match ← peek with
    | some '"' =>
      let (quotes, closed) ← closingQuotes '"'
      if closed then return quotes else return quotes ++ (← multilineBasicRest n)
    | some '\\' =>
      discard take
      if ← atLineJoin then
        joinLines (← get).length
        multilineBasicRest n
      else return (← escape) :: (← multilineBasicRest n)
    | _ =>
      if ← newline then return '\n' :: (← multilineBasicRest n)
      let c ← take
      guard (isText c)
      return c :: (← multilineBasicRest n)

/-- Takes the rest of a string of several lines without escapes. Line ends count as line feeds. -/
def multilineLiteralRest : Nat → Reader (List Char)
  | 0 => failure
  | n + 1 => do
    match ← peek with
    | some '\'' =>
      let (quotes, closed) ← closingQuotes '\''
      if closed then return quotes else return quotes ++ (← multilineLiteralRest n)
    | _ =>
      if ← newline then return '\n' :: (← multilineLiteralRest n)
      let c ← take
      guard (isText c)
      return c :: (← multilineLiteralRest n)

def lineString (quote : Char) : Reader (List Char) := do
  if quote = '"' then basicRest (← get).length else literalRest

/-- Takes a string of any form. A line break right after three quotes does not count. -/
def string : Reader String := do
  if ← skip ['"', '"', '"'] then
    discard newline
    return String.ofList (← multilineBasicRest ((← get).length + 1))
  if ← skip ['\'', '\'', '\''] then
    discard newline
    return String.ofList (← multilineLiteralRest ((← get).length + 1))
  return String.ofList (← lineString (← take))

/-! ## Numbers -/

/-- Takes digits of a class, with single underscores between them. -/
def digits (isDigit : Char → Bool) : Reader (List Char) := do
  let word ← takeWhile fun c => isDigit c || c == '_'
  let spaced := fun (a b : Char) => a != '_' || b != '_'
  guard (word.head? != some '_' && word.getLast? != some '_' && !word.isEmpty)
  guard ((word.zip (word.drop 1)).all fun pair => spaced pair.1 pair.2)
  return word.filter (· != '_')

def wholeDigits : Reader (List Char) := do
  let word ← digits Char.isDigit
  guard (word.length ≤ 1 || word.head? != some '0')
  return word

/-- Takes a sign if there is one, and tells whether it is a minus. -/
def sign : Reader Bool := do
  if ← skip ['-'] then return true
  discard (skip ['+'])
  return false

def radixInteger (radix : Nat) : Reader Value := do
  let word ← digits fun c => (hexValue? c).any (· < radix)
  let n := word.foldl (fun n c => n * radix + (hexValue? c).getD 0) 0
  guard (n < Nat.pow 2 63)
  return .integer n

/-- Takes the exponent of a number, if there is one. -/
def exponent? : Reader (Option Int) := do
  let next ← peek
  if next = some 'e' || next = some 'E' then
    discard take
    let negative ← sign
    let value : Int := Nat.ofDigitChars 10 (← digits Char.isDigit) 0
    return some (if negative then -value else value)
  else return none

/-- Takes a number. A number with a fraction or an exponent must not be too large, and an integer
has to fit 64 bits. -/
def decimal : Reader Value := do
  let negative ← sign
  if ← skip ['i', 'n', 'f'] then return .float (.infinite negative)
  if ← skip ['n', 'a', 'n'] then return .float .nan
  let whole ← wholeDigits
  let fraction ← if ← skip ['.'] then some <$> digits Char.isDigit else pure none
  let exponent ← exponent?
  if fraction.isNone && exponent.isNone then
    let n : Int := Nat.ofDigitChars 10 whole 0
    let n := if negative then -n else n
    guard (-(Nat.pow 2 63 : Nat) ≤ n && n < (Nat.pow 2 63 : Nat))
    return .integer n
  else
    let places := fraction.getD []
    let power := exponent.getD 0 - (places.length : Int)
    let x := Binary64.ofDecimal negative (Nat.ofDigitChars 10 (whole ++ places) 0) power
    guard (x != .infinite false)
    return .float x

/-! ## Dates and times -/

/-- Takes a number of so many decimal digits that lies between two bounds. -/
def field (count low high : Nat) : Reader Nat := do
  let cs ← get
  let word := cs.take count
  guard (word.length = count && word.all Char.isDigit)
  let n := Nat.ofDigitChars 10 word 0
  guard (low ≤ n && n ≤ high)
  set (cs.drop count)
  return n

def daysIn (year month : Nat) : Nat :=
  if month = 2 then
    if (year % 4 = 0 && year % 100 ≠ 0) || year % 400 = 0 then 29 else 28
  else if [4, 6, 9, 11].contains month then 30
  else 31

def date : Reader Unit := do
  let year ← field 4 0 9999
  expect '-'
  let month ← field 2 1 12
  expect '-'
  discard (field 2 1 (daysIn year month))

/-- Takes a time of day; a second may be a leap second. -/
def time : Reader Unit := do
  discard (field 2 0 23)
  expect ':'
  discard (field 2 0 59)
  expect ':'
  discard (field 2 0 60)
  if ← skip ['.'] then guard (!(← takeWhile Char.isDigit).isEmpty)

/-- Takes the offset of a time, if there is one. -/
def offset : Reader Unit := do
  match ← peek with
  | some 'Z' => discard take
  | some 'z' => discard take
  | some '+' => signed
  | some '-' => signed
  | _ => return ()
where
  /-- Takes hours and minutes after a sign. -/
  signed : Reader Unit := do
    discard take
    discard (field 2 0 23)
    expect ':'
    discard (field 2 0 59)

def looksLikeDate (cs : List Char) : Bool :=
  (cs.take 4).length = 4 && (cs.take 4).all Char.isDigit && (cs.drop 4).head? == some '-'

def looksLikeTime (cs : List Char) : Bool :=
  (cs.take 2).length = 2 && (cs.take 2).all Char.isDigit && (cs.drop 2).head? == some ':'

/-- Takes a date with the time that may follow it, behind a letter or a blank. -/
def dateTime : Reader Value := do
  date
  match ← get with
  | c :: cs =>
    if (c == 'T' || c == 't' || c == ' ') && looksLikeTime cs then
      set cs
      time
      offset
  | [] => pure ()
  return .dateTime

/-- Takes a number, a date or a time. -/
def numberOrTime : Reader Value := do
  let cs ← get
  if looksLikeDate cs then dateTime
  else if looksLikeTime cs then
    time
    return .dateTime
  else if ← skip ['0', 'x'] then radixInteger 16
  else if ← skip ['0', 'o'] then radixInteger 8
  else if ← skip ['0', 'b'] then radixInteger 2
  else decimal

end Reader

end AuditFields.Toml
