import AuditFields.Number.Decimal
import AuditFields.Text.Quoted

/-!
# Constant values

The values of directive arguments and defaults in a schema document, and their text. Items and
members are separated by a comma and a blank, strings are quoted literals, numbers with a fraction
have the shortest digits that read back.
-/

namespace AuditFields.Schema

/-- A constant value. An object keeps its members as written, repeated names included. -/
inductive Value where
  | null
  | int (value : Int)
  | float (value : Binary64)
  | string (value : String)
  | boolean (value : Bool)
  | enum (name : String)
  | list (items : List Value)
  | object (members : List (String × Value))
  deriving Inhabited

namespace Value

/-! ## Equality -/

mutual

/-- Whether two values are the same, member order included. -/
def same : Value → Value → Bool
  | .null, .null => true
  | .int a, .int b => a == b
  | .float a, .float b => decide (a = b)
  | .string a, .string b => a == b
  | .boolean a, .boolean b => a == b
  | .enum a, .enum b => a == b
  | .list as, .list bs => sameItems as bs
  | .object as, .object bs => sameMembers as bs
  | _, _ => false

def sameItems : List Value → List Value → Bool
  | [], [] => true
  | a :: as, b :: bs => same a b && sameItems as bs
  | _, _ => false

def sameMembers : List (String × Value) → List (String × Value) → Bool
  | [], [] => true
  | (k, a) :: as, (l, b) :: bs => k == l && (same a b && sameMembers as bs)
  | _, _ => false

end

mutual

theorem same_iff : ∀ a b : Value, same a b = true ↔ a = b
  | .null, b => by cases b <;> simp [same]
  | .int _, b => by cases b <;> simp [same]
  | .float _, b => by cases b <;> simp [same]
  | .string _, b => by cases b <;> simp [same]
  | .boolean _, b => by cases b <;> simp [same]
  | .enum _, b => by cases b <;> simp [same]
  | .list as, b => by cases b <;> simp [same, sameItems_iff as]
  | .object as, b => by cases b <;> simp [same, sameMembers_iff as]

theorem sameItems_iff : ∀ as bs : List Value, sameItems as bs = true ↔ as = bs
  | [], bs => by cases bs <;> simp [sameItems]
  | a :: as, bs => by cases bs <;> simp [sameItems, same_iff a, sameItems_iff as]

theorem sameMembers_iff : ∀ as bs : List (String × Value), sameMembers as bs = true ↔ as = bs
  | [], bs => by cases bs <;> simp [sameMembers]
  | (k, a) :: as, bs => by
    cases bs with
    | nil => simp [sameMembers]
    | cons b bs =>
      obtain ⟨l, b⟩ := b
      simp [sameMembers, same_iff a, sameMembers_iff as, and_assoc]

end

instance : DecidableEq Value := fun a b => decidable_of_iff _ (same_iff a b)

/-! ## Kinds -/

def string? : Value → Option String
  | .string s => some s
  | _ => none

def boolean? : Value → Option Bool
  | .boolean b => some b
  | _ => none

def kind : Value → String
  | .null => "null"
  | .int _ => "Int"
  | .float _ => "Float"
  | .string _ => "String"
  | .boolean _ => "Boolean"
  | .enum _ => "enum value"
  | .list _ => "list"
  | .object _ => "object"

/-! ## Text -/

/-- Numbers are positional from `10 ^ -4` up to `10 ^ 16`; only a negative exponent has a sign. -/
def numberFormat : Decimal.Format where
  tie := .up
  positional power := -4 ≤ power && power ≤ 15
  plusSign := false

mutual

/-- The text of a value. -/
def render : Value → String
  | .null => "null"
  | .int n => toString n
  | .float x => x.text numberFormat
  | .string s => Text.quoted s
  | .boolean true => "true"
  | .boolean false => "false"
  | .enum name => name
  | .list items => "[" ++ Text.joinWith ", " (renderItems items) ++ "]"
  | .object members => "\x7b" ++ Text.joinWith ", " (renderMembers members) ++ "\x7d"

def renderItems : List Value → List String
  | [] => []
  | item :: items => render item :: renderItems items

/-- The texts of the members, each a name, a colon, a blank and a value. -/
def renderMembers : List (String × Value) → List String
  | [] => []
  | (name, value) :: members => (name ++ ": " ++ render value) :: renderMembers members

end

end Value

end AuditFields.Schema
