import AuditFields.Text.Blank

/-!
# Block texts

Text between triple quotes. Reading removes the indentation that the lines after the first have in
common and the blank lines at both ends; an escaped triple quote stands for a triple quote. Writing
puts each line on a line of its own behind an indentation.
-/

namespace AuditFields.Text.Block

/-! ## Triple quotes -/

def unescape : List Char → List Char
  | '\\' :: '"' :: '"' :: '"' :: cs => '"' :: '"' :: '"' :: unescape cs
  | c :: cs => c :: unescape cs
  | [] => []

def escape : List Char → List Char
  | '"' :: '"' :: '"' :: cs => '\\' :: '"' :: '"' :: '"' :: escape cs
  | c :: cs => c :: escape cs
  | [] => []

/-! ## Indentation -/

def byteCount : List Char → Nat
  | [] => 0
  | c :: cs => c.utf8Size + byteCount cs

def indentation (line : List Char) : Nat :=
  byteCount (line.takeWhile isBlank)

/-- The least indentation of the lines that are not all blank, or zero if there are none. -/
def commonIndentation (lines : List (List Char)) : Nat :=
  ((lines.filter fun line => !isAllBlank line).map indentation).min?.getD 0

/-- The line without its first bytes. A line that is too short, or has a character across the place
of the cut, becomes empty. -/
def dropBytes : Nat → List Char → List Char
  | 0, cs => cs
  | _ + 1, [] => []
  | n + 1, c :: cs => if c.utf8Size ≤ n + 1 then dropBytes (n + 1 - c.utf8Size) cs else []
termination_by _ cs => cs

def trimLines (lines : List (List Char)) : List (List Char) :=
  ((lines.dropWhile isAllBlank).reverse.dropWhile isAllBlank).reverse

/-! ## Reading and writing -/

/-- The text that the characters between two triple quotes denote. -/
def content (body : List Char) : List Char :=
  match lines body with
  | [] => []
  | first :: others =>
    let indent := commonIndentation others
    let kept := trimLines (first :: others.map (dropBytes indent))
    unescape (['\n'].intercalate kept)

/-- A line of a block: behind the indentation, unless there is nothing on it. -/
def writeLine (indent : String) (line : List Char) : String :=
  if line.isEmpty then "\n" else indent ++ String.ofList (escape line) ++ "\n"

/-- The block of a text, with its triple quotes on lines of their own. -/
def write (indent : String) (text : String) : String :=
  indent ++ "\"\"\"\n" ++ String.join ((lines text.toList).map (writeLine indent)) ++
    indent ++ "\"\"\"\n"

end AuditFields.Text.Block
