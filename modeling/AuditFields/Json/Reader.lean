import AuditFields.Json.Number
import AuditFields.Json.Printer
import AuditFields.Text.Visible

/-!
# Reading JSON

A reader takes characters off the front of a text and refuses the text at the first problem: it is
malformed, or a part of it has another shape than the one asked for. Arrays and objects nest up to
127 levels. Members are handed on as they come, so that a shape can be checked while reading; the
value of a text has each repeated member once.
-/

namespace AuditFields.Json

/-- Why a text is refused. -/
inductive Refusal where
  | malformed
  | wrongShape (message : String)
  deriving DecidableEq, Repr

/-- Takes a part of the text, or refuses it. -/
abbrev Reader (α : Type) := StateT (List Char) (Except Refusal) α

/-- The levels of arrays and objects that may nest. -/
def maxDepth : Nat := 127

namespace Reader

/-! ## Characters -/

def malformed {α : Type} : Reader α :=
  throw .malformed

def isSpace (c : Char) : Bool :=
  c == ' ' || c == '\t' || c == '\n' || c == '\r'

def skipSpace : Reader Unit :=
  modify (List.dropWhile isSpace)

/-- The next character, which stays, if there is one. -/
def peek : Reader (Option Char) := do
  return (← get).head?

def take : Reader Char := do
  match ← get with
  | [] => malformed
  | c :: cs => set cs; return c

def expect (c : Char) : Reader Unit := do
  skipSpace
  if (← take) = c then return () else malformed

def word : List Char → Reader Unit
  | [] => return ()
  | c :: cs => do if (← take) = c then word cs else malformed

/-! ## Strings and numbers -/

def hexValue? (c : Char) : Option Nat :=
  if c.isDigit then some (c.toNat - '0'.toNat)
  else if 'a' ≤ c && c ≤ 'f' then some (c.toNat - 'a'.toNat + 10)
  else if 'A' ≤ c && c ≤ 'F' then some (c.toNat - 'A'.toNat + 10)
  else none

def hexUnit? : List Char → Option (Nat × List Char)
  | a :: b :: c :: d :: cs => do
    let a ← hexValue? a
    let b ← hexValue? b
    let c ← hexValue? c
    let d ← hexValue? d
    return (((a * 16 + b) * 16 + c) * 16 + d, cs)
  | _ => none

/-- The character of an escape with a code unit, and the rest. The first half of a pair has to be
followed by an escape with the second half. -/
def unicodeEscape? (cs : List Char) : Option (Char × List Char) := do
  let (unit, cs) ← hexUnit? cs
  if 0xD800 ≤ unit && unit ≤ 0xDBFF then
    match cs with
    | '\\' :: 'u' :: cs =>
      let (second, cs) ← hexUnit? cs
      if 0xDC00 ≤ second && second ≤ 0xDFFF then
        return (Char.ofNat (0x10000 + (unit - 0xD800) * 0x400 + (second - 0xDC00)), cs)
      else none
    | _ => none
  else if 0xDC00 ≤ unit && unit ≤ 0xDFFF then none
  else return (Char.ofNat unit, cs)

/-- The character of an escape, after its backslash, and the rest. -/
def escape? : List Char → Option (Char × List Char)
  | '"' :: cs => some ('"', cs)
  | '\\' :: cs => some ('\\', cs)
  | '/' :: cs => some ('/', cs)
  | 'b' :: cs => some ('\x08', cs)
  | 'f' :: cs => some ('\x0c', cs)
  | 'n' :: cs => some ('\n', cs)
  | 'r' :: cs => some ('\r', cs)
  | 't' :: cs => some ('\t', cs)
  | 'u' :: cs => unicodeEscape? cs
  | _ => none

/-- The characters of a string up to its closing quote, and what follows the quote. There are at most
as many as characters in the bound. -/
def stringBody? : List Char → List Char → Option (List Char × List Char)
  | [], _ => none
  | _, [] => none
  | _ :: bound, c :: cs =>
    if c = '"' then some ([], cs)
    else if c = '\\' then do
      let (c, cs) ← escape? cs
      let (body, cs) ← stringBody? bound cs
      return (c :: body, cs)
    else if c.toNat < 0x20 then none
    else do
      let (body, cs) ← stringBody? bound cs
      return (c :: body, cs)

def stringRest : Reader String := do
  let cs ← get
  match stringBody? cs cs with
  | some (body, rest) => set rest; return String.ofList body
  | none => malformed

def number (negative : Bool) : Reader Json := do
  match Number.read negative (← get) with
  | some (value, rest) => set rest; return value
  | none => malformed

def scalar : Reader Json := do
  match ← peek with
  | some 'n' => word ['n', 'u', 'l', 'l']; return .null
  | some 't' => word ['t', 'r', 'u', 'e']; return .bool true
  | some 'f' => word ['f', 'a', 'l', 's', 'e']; return .bool false
  | some '"' => discard take; return .string (← stringRest)
  | some '-' => discard take; number true
  | _ => number false

/-! ## Arrays and objects -/

/-- Takes the further items of an array, each after a comma, and the closing bracket. There is at
most one for each character of the bound. -/
def moreItems (item : Reader Json) : List Char → Reader (List Json)
  | [] => malformed
  | _ :: bound => do
    skipSpace
    match ← take with
    | ']' => return []
    | ',' => return (← item) :: (← moreItems item bound)
    | _ => malformed

def items (item : Reader Json) : Reader (List Json) := do
  skipSpace
  if (← peek) = some ']' then discard take; return []
  else
    let first ← item
    return first :: (← moreItems item (← get))

/-- Takes a member: the name, and what `member` makes of the state after the name. -/
def oneMember {σ : Type} (member : String → σ → Reader σ) (state : σ) : Reader σ := do
  expect '"'
  member (← stringRest) state

/-- Takes the further members of an object, each after a comma, and the closing brace. There is at
most one for each character of the bound. -/
def moreMembers {σ : Type} (member : String → σ → Reader σ) : List Char → σ → Reader σ
  | [], _ => malformed
  | _ :: bound, state => do
    skipSpace
    match ← take with
    | '}' => return state
    | ',' => moreMembers member bound (← oneMember member state)
    | _ => malformed

/-- Takes the members of an object after its opening brace, folding them from the left. -/
def members {σ : Type} (member : String → σ → Reader σ) (state : σ) : Reader σ := do
  skipSpace
  if (← peek) = some '}' then discard take; return state
  else
    let state ← oneMember member state
    moreMembers member (← get) state

/-- Takes a value in which arrays and objects nest up to the depth. Members are kept as they were
written, repeated ones too. -/
def value : Nat → Reader Json
  | 0 => do
    skipSpace
    match ← peek with
    | some '[' => malformed
    | some '{' => malformed
    | _ => scalar
  | depth + 1 => do
    skipSpace
    match ← peek with
    | some '[' => discard take; return .array (← items (value depth))
    | some '{' =>
      discard take
      let read := fun name (read : List (String × Json)) => do
        expect ':'
        return (name, ← value depth) :: read
      return .object (← members read []).reverse
    | _ => scalar

/-! ## Shapes -/

def kind : Json → String
  | .null => "null"
  | .bool true => "boolean `true`"
  | .bool false => "boolean `false`"
  | .int n => "integer `" ++ toString n ++ "`"
  | .float x => "floating point `" ++ x.text numberFormat ++ "`"
  | .string s => "string " ++ Text.Visible.shown s
  | .array _ => "sequence"
  | .object _ => "map"

/-- Refuses a value that has another shape than the expected one. -/
def wrongShape {α : Type} (found expected : String) : Reader α :=
  throw (.wrongShape ("invalid type: " ++ found ++ ", expected " ++ expected))

/-- Takes an object, folding its members from the left. Anything else is refused: an array at its
bracket, a scalar once it is read. -/
def object {σ : Type} (expected : String) (member : String → σ → Reader σ) (state : σ) :
    Reader σ := do
  skipSpace
  match ← peek with
  | some '{' => discard take; members member state
  | some '[' => wrongShape (kind (.array [])) expected
  | _ => wrongShape (kind (← scalar)) expected

/-- What the whole text holds: after the part taken by the reader only blanks may follow. -/
def whole {α : Type} (reader : Reader α) (text : String) : Except Refusal α :=
  match reader.run text.toList with
  | .error refusal => .error refusal
  | .ok (result, rest) => if rest.all isSpace then .ok result else .error .malformed

end Reader

/-! ## Whole texts -/

/-- The value of a text as it was written, repeated members included. -/
def ofTextRaw (text : String) : Except Refusal Json :=
  Reader.whole (Reader.value maxDepth) text

/-- The value of a text. -/
def ofText (text : String) : Except Refusal Json :=
  (ofTextRaw text).map settled

def membersOfText (text : String) : Except Refusal (Entries Json) :=
  let member := fun name (read : Entries Json) => do
    Reader.expect ':'
    let value ← Reader.value (maxDepth - 1)
    return Entries.put name value.settled read
  Reader.whole (Reader.object "a map" member []) text

end AuditFields.Json
