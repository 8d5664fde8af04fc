import AuditFields.Toml.Scalar
import AuditFields.Toml.Table

/-!
# Reading TOML

The grammar of values, keys, headers and lines. Arrays and inline tables nest up to 79 levels, and a
dotted key has up to 79 parts.
-/

namespace AuditFields.Toml

namespace Reader

/-- The levels that arrays and inline tables may nest, and the parts that a key may have. -/
def maxDepth : Nat := 79

/-! ## Keys -/

def isBareKeyChar (c : Char) : Bool :=
  c.isAlphanum || c == '_' || c == '-'

def keyPart : Reader String := do
  match ← peek with
  | some '"' => return String.ofList (← lineString (← take))
  | some '\'' => return String.ofList (← lineString (← take))
  | _ =>
    let word ← takeWhile isBareKeyChar
    guard (!word.isEmpty)
    return String.ofList word

/-- Takes the further parts of a key, each after a point. -/
def moreKeyParts : Nat → Reader (List String)
  | 0 => return []
  | n + 1 => do
    space
    if ← skip ['.'] then
      space
      return (← keyPart) :: (← moreKeyParts n)
    else return []

/-- Takes a key with the blanks around its parts: the path that its points give, and its last
part. -/
def key : Reader (List String × String) := do
  space
  let first ← keyPart
  let more ← moreKeyParts (← get).length
  guard (more.length < maxDepth)
  let parts := first :: more
  return (parts.dropLast, parts.getLastD first)

/-! ## Values -/

/-- Drops blanks, line ends and comments. -/
def filler : Nat → Reader Unit
  | 0 => return ()
  | n + 1 => do
    space
    if (← peek) = some '#' then
      comment
      guard (← newline)
      filler n
    else if ← newline then filler n

/-- Drops all blanks, line ends and comments in front. -/
def skipFiller : Reader Unit := do
  filler ((← get).length + 1)

/-- Takes the items of an array and its closing bracket. A comma may follow the last item. -/
def items (item : Reader Value) : Nat → Reader (List Value)
  | 0 => failure
  | n + 1 => do
    skipFiller
    if ← skip [']'] then return []
    let value ← item
    skipFiller
    if ← skip [','] then return value :: (← items item n)
    expect ']'
    return [value]

/-- Takes the entries of an inline table and its closing brace, at least one. -/
def inlineEntries (item : Reader Value) : Nat → Reader (List (List String × String × Value))
  | 0 => failure
  | n + 1 => do
    let (path, name) ← key
    expect '='
    space
    let value ← item
    space
    if ← skip [','] then return (path, name, value) :: (← inlineEntries item n)
    expect '}'
    return [(path, name, value)]

/-- Takes a value in which arrays and inline tables nest up to the depth. -/
def value : Nat → Reader Value
  | 0 => do
    match ← peek with
    | some '[' => failure
    | some '{' => failure
    | _ => scalar
  | depth + 1 => do
    match ← peek with
    | some '[' =>
      discard take
      return .array (← items (value depth) ((← get).length + 1))
    | some '{' =>
      discard take
      space
      if ← skip ['}'] then return .table []
      let entries ← inlineEntries (value depth) ((← get).length + 1)
      (inlineTable entries : Option Value)
    | _ => scalar
where
  /-- Takes a value that is no array and no table. -/
  scalar : Reader Value := do
    match ← peek with
    | some '"' => return .string (← string)
    | some '\'' => return .string (← string)
    | some 't' => guard (← skip ['t', 'r', 'u', 'e']); return .boolean true
    | some 'f' => guard (← skip ['f', 'a', 'l', 's', 'e']); return .boolean false
    | _ => numberOrTime

/-! ## Lines -/

/-- Takes the rest of a line: blanks, a comment, and the end of the line or of the text. -/
def lineRest : Reader Unit := do
  space
  comment
  if (← get).isEmpty then return ()
  guard (← newline)

def header (document : Document) : Reader Document := do
  if ← skip ['[', '['] then
    let (path, name) ← key
    guard (← skip [']', ']'])
    lineRest
    (document.repeatedHeader (path ++ [name]) : Option Document)
  else
    expect '['
    let (path, name) ← key
    expect ']'
    lineRest
    (document.header (path ++ [name]) : Option Document)

def definition (document : Document) : Reader Document := do
  let (path, name) ← key
  expect '='
  space
  let value ← value maxDepth
  lineRest
  (document.key path name value : Option Document)

def line (document : Document) : Reader Document := do
  match ← peek with
  | some '#' => lineRest; return document
  | some '[' => header document
  | some '\n' => lineRest; return document
  | some '\r' => lineRest; return document
  | _ => definition document

def lines : Nat → Document → Reader Document
  | 0, document => return document
  | n + 1, document => do
    space
    if (← get).isEmpty then return document
    lines n (← line document)

end Reader

/-- The entries of a text, in the order of their definition, if it is a TOML document. A byte order
mark may stand in front. -/
def entriesOf? (text : String) : Option (List (String × Value)) := do
  let cs := text.toList
  let cs := if cs.head? == some '\uFEFF' then cs.drop 1 else cs
  let (document, _) ← (Reader.lines (cs.length + 1) {}).run cs
  return entryValues (← document.complete)

end AuditFields.Toml
