import AuditFields.Task

/-!
# The settings of an annotated type

What the arguments of the annotation say: the names of the bookkeeping fields, whether objects can be
marked as deleted, and whether every request needs an identity. A null argument says nothing, a
repeated one counts as last given, and an unknown one is reported and passed over.
-/

namespace AuditFields

open Schema

/-- The settings of an annotated type. -/
structure Settings where
  /-- The name of each bookkeeping field. -/
  name : AuditField → String := AuditField.defaultName
  /-- Whether there is a mutation that marks an object as deleted. -/
  softDelete : Bool := true
  /-- Whether requests without an identity are refused. -/
  identityRequired : Bool := false

namespace Settings

def names (settings : Settings) : List String :=
  AuditField.all.map settings.name

def isAuditName (settings : Settings) (name : String) : Bool :=
  settings.names.contains name

def rename (settings : Settings) (field : AuditField) (name : String) : Settings :=
  { settings with name := fun other => if other = field then name else settings.name other }

theorem eq_iff (a b : Settings) :
    (a.names = b.names ∧ a.softDelete = b.softDelete ∧ a.identityRequired = b.identityRequired) ↔
      a = b := by
  constructor
  · rintro ⟨hn, hs, hi⟩
    obtain ⟨an, as, ai⟩ := a
    obtain ⟨bn, bs, bi⟩ := b
    simp only [names, AuditField.all, List.map_cons, List.map_nil, List.cons.injEq, and_true] at hn
    obtain ⟨h1, h2, h3, h4, h5, h6, h7⟩ := hn
    have : an = bn := by
      funext field
      cases field <;> assumption
    subst this hs hi
    rfl
  · rintro rfl
    exact ⟨rfl, rfl, rfl⟩

instance : DecidableEq Settings := fun a b => decidable_of_iff _ (eq_iff a b)

/-! ## Arguments -/

/-- The argument that says whether objects can be marked as deleted. -/
def softDeleteArgument : String := "softDelete"

def identityRequiredArgument : String := "identityRequired"

/-- What an argument of the annotation sets. -/
inductive Argument where
  | softDelete
  | identityRequired
  | fieldName (field : AuditField)
  deriving DecidableEq, Repr

def Argument.ofName? (name : String) : Option Argument :=
  if name = softDeleteArgument then some .softDelete
  else if name = identityRequiredArgument then some .identityRequired
  else (AuditField.ofArgument? name).map .fieldName

def booleanOf (name : String) (value : Value) : Except Failure Bool :=
  match value.boolean? with
  | some b => .ok b
  | none => .error (.wrongArgument name .boolean value)

def stringOf (name : String) (value : Value) : Except Failure String :=
  match value.string? with
  | some s => .ok s
  | none => .error (.wrongArgument name .string value)

/-- The settings once an argument with a value that is not null is applied. -/
def set (settings : Settings) (argument : Argument) (name : String) (value : Value) :
    Except Failure Settings :=
  match argument with
  | .softDelete => (booleanOf name value).map fun b => { settings with softDelete := b }
  | .identityRequired =>
    (booleanOf name value).map fun b => { settings with identityRequired := b }
  | .fieldName field => (stringOf name value).map (settings.rename field)

def setArgument {σ : Type} (settings : Settings) (argument : String × Value) : Task σ Settings := do
  if argument.2 = .null then return settings
  match Argument.ofName? argument.1 with
  | some known => ofExcept (settings.set known argument.1 argument.2)
  | none =>
    Task.report (.unknownArgument argument.1)
    return settings
where
  /-- The result as a task. -/
  ofExcept : Except Failure Settings → Task σ Settings
    | .ok settings => return settings
    | .error failure => throw failure

def ofDirective {σ : Type} (directive : Directive) : Task σ Settings :=
  directive.arguments.foldlM setArgument {}

/-! ## The definition of the annotation -/

def definitionLine (argument type default : String) : String :=
  "  " ++ argument ++ ": " ++ type ++ " = " ++ default ++ "\n"

def definition : String :=
  "directive @" ++ Naming.auditDirective ++ "(\n" ++
    String.join (AuditField.all.map fun field =>
      definitionLine field.argument "String" (Text.quoted field.defaultName)) ++
    definitionLine softDeleteArgument "Boolean" "true" ++
    definitionLine identityRequiredArgument "Boolean" "false" ++ ") on OBJECT\n"

end Settings

end AuditFields
