import AuditFields.Text.Blank

/-!
# Type references

The type of a field or an argument: a name, wrapped in lists and non-null marks to any depth. Its
text puts brackets around a list and an exclamation mark after a non-null type, and reading a text
takes the wrappers off from the outside.
-/

namespace AuditFields.Schema

/-- A wrapper around a type. -/
inductive Wrapper where
  | nonNull
  | list
  deriving DecidableEq, Repr

/-- A reference to a type. -/
inductive TypeRef where
  | named (name : String)
  | list (item : TypeRef)
  | nonNull (nullable : TypeRef)
  deriving DecidableEq, Repr, Inhabited

namespace TypeRef

def baseName : TypeRef → String
  | .named name => name
  | .list item => item.baseName
  | .nonNull nullable => nullable.baseName

/-- The wrappers, outermost first. -/
def wrappers : TypeRef → List Wrapper
  | .named _ => []
  | .list item => .list :: item.wrappers
  | .nonNull nullable => .nonNull :: nullable.wrappers

def isNonNull : TypeRef → Bool
  | .nonNull _ => true
  | _ => false

/-- The type with a non-null mark outside, which is not doubled. -/
def asNonNull (type : TypeRef) : TypeRef :=
  if type.isNonNull then type else .nonNull type

/-- The text of a reference. -/
def render : TypeRef → String
  | .named name => name
  | .list item => "[" ++ item.render ++ "]"
  | .nonNull nullable => nullable.render ++ "!"

/-! ## Reading -/

/-- The reference that a text without outer blanks denotes: an exclamation mark at the end or a pair
of brackets around the text is a wrapper, and what is left is a name. No non-null mark may follow
another one. -/
def ofChars? (cs : List Char) : Option TypeRef :=
  match cs with
  | [] => none
  | c :: rest =>
    if (c :: rest).getLast? = some '!' then
      match ofChars? (c :: rest).dropLast with
      | some type => if type.isNonNull then none else some (.nonNull type)
      | none => none
    else if c = '[' ∧ rest.getLast? = some ']' then
      (ofChars? rest.dropLast).map .list
    else if Text.isName (c :: rest) then some (.named (String.ofList (c :: rest)))
    else none
termination_by cs.length
decreasing_by
  · simp only [List.length_dropLast, List.length_cons]; omega
  · simp only [List.length_dropLast, List.length_cons]; omega

/-- The reference that a text denotes. Blanks at its ends do not matter. -/
def ofString? (text : String) : Option TypeRef :=
  ofChars? (Text.trim text.toList)

def invalidMessage (text : String) : String :=
  "invalid type reference `" ++ text ++ "`"

/-! ## Non-null marks -/

@[simp]
theorem isNonNull_asNonNull (type : TypeRef) : type.asNonNull.isNonNull = true := by
  unfold asNonNull
  split
  · assumption
  · rfl

theorem asNonNull_of_isNonNull {type : TypeRef} (h : type.isNonNull = true) :
    type.asNonNull = type := by
  simp [asNonNull, h]

@[simp]
theorem baseName_asNonNull (type : TypeRef) : type.asNonNull.baseName = type.baseName := by
  unfold asNonNull
  split <;> rfl

end TypeRef

end AuditFields.Schema
