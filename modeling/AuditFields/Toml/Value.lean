import AuditFields.Number.Decimal
import AuditFields.Text.Visible

/-!
# TOML values

The values of a configuration text. Dates and times are checked when they are read, but no setting
takes one, so their value is not kept.
-/

namespace AuditFields.Toml

/-- A value. The entries of a table stand in the order of their definition. -/
inductive Value where
  | string (value : String)
  | integer (value : Int)
  | float (value : Binary64)
  | boolean (value : Bool)
  | dateTime
  | array (items : List Value)
  | table (entries : List (String × Value))
  deriving Inhabited

def numberFormat : Decimal.Format where
  tie := .up
  positional _ := true
  plusSign := false

def Value.describe : Value → String
  | .string value => "string " ++ Text.Visible.shown value
  | .integer value => "integer `" ++ toString value ++ "`"
  | .float value => "floating point `" ++ value.text numberFormat ++ "`"
  | .boolean true => "boolean `true`"
  | .boolean false => "boolean `false`"
  | .dateTime => "map"
  | .array _ => "sequence"
  | .table _ => "map"

end AuditFields.Toml
