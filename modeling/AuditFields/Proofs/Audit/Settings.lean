import AuditFields.Proofs.Audit.Effect

/-!
# What an annotation says

The arguments of an annotation are read one after the other, up to the first wrong one. Said without
the order of reading: the wrong arguments are those that set something and have a value of another kind
(`wrongArguments`), and a setting is what the last argument for it says, or its default (`given`).
Reading gives these settings unless an argument is wrong, and then fails with the first that is
(`read_eq`).
-/

namespace AuditFields

open Schema

/-- The value is of the kind. -/
def ArgumentKind.holds (kind : ArgumentKind) (value : Value) : Bool :=
  match kind with
  | .boolean => value.boolean?.isSome
  | .string => value.string?.isSome

namespace Settings

/-! ## Arguments by name -/

namespace Argument

def name : Argument → String
  | .softDelete => softDeleteArgument
  | .identityRequired => identityRequiredArgument
  | .fieldName field => field.argument

/-- The kind of value that an argument takes. -/
def kind : Argument → ArgumentKind
  | .softDelete => .boolean
  | .identityRequired => .boolean
  | .fieldName _ => .string

theorem ofName?_name (argument : Argument) : ofName? argument.name = some argument := by
  cases argument with
  | fieldName field => cases field <;> decide
  | _ => decide

theorem name_of_ofName? {name : String} {argument : Argument} (h : ofName? name = some argument) :
    argument.name = name := by
  unfold ofName? at h
  split at h
  · next hname =>
    obtain rfl := Option.some.inj h
    exact hname.symm
  split at h
  · next hname =>
    obtain rfl := Option.some.inj h
    exact hname.symm
  · obtain ⟨field, hfield, rfl⟩ := Option.map_eq_some_iff.mp h
    have hname := List.find?_some (p := fun field : AuditField => field.argument == name) hfield
    exact beq_iff_eq.mp hname

theorem name_inj {argument other : Argument} : argument.name = other.name ↔ argument = other := by
  constructor
  · intro h
    have hother := ofName?_name other
    rw [← h, ofName?_name] at hother
    exact Option.some.inj hother
  · rintro rfl
    rfl

end Argument

/-! ## What is given -/

section

variable {α : Type} (read : Value → Option α)

/-- The values that are given for a setting, in order. -/
def valuesFor (setting : Argument) (arguments : List (String × Value)) : List α :=
  arguments.filterMap fun argument => if argument.1 = setting.name then read argument.2 else none

theorem getLastD_valuesFor_concat (setting : Argument) (arguments : List (String × Value))
    (argument : String × Value) (default : α) :
    (valuesFor read setting (arguments ++ [argument])).getLastD default =
      (valuesFor read setting [argument]).getLastD
        ((valuesFor read setting arguments).getLastD default) := by
  simp only [valuesFor, List.filterMap_append, List.filterMap_cons, List.filterMap_nil]
  cases if argument.1 = setting.name then read argument.2 else none with
  | none => rw [List.append_nil, List.getLastD_nil]
  | some value => rw [List.getLastD_concat, List.getLastD_cons, List.getLastD_nil]

theorem valuesFor_single (setting known : Argument) (value : Value) :
    valuesFor read setting [(known.name, value)] =
      if known = setting then (read value).toList else [] := by
  simp only [valuesFor, List.filterMap_cons, List.filterMap_nil, Argument.name_inj]
  by_cases h : known = setting
  · simp only [h, if_true]
    cases read value with
    | none => rfl
    | some found => rfl
  · simp only [h, if_false]

theorem valuesFor_unknown (setting : Argument) {argument : String × Value}
    (h : Argument.ofName? argument.1 = none) : valuesFor read setting [argument] = [] := by
  have hne : argument.1 ≠ setting.name := by
    intro heq
    rw [heq, Argument.ofName?_name] at h
    cases h
  simp [valuesFor, hne]

end

/-- The settings with what arguments give in the place of what there was. -/
def updatedBy (settings : Settings) (arguments : List (String × Value)) : Settings where
  name field := (valuesFor Value.string? (.fieldName field) arguments).getLastD (settings.name field)
  softDelete := (valuesFor Value.boolean? .softDelete arguments).getLastD settings.softDelete
  identityRequired :=
    (valuesFor Value.boolean? .identityRequired arguments).getLastD settings.identityRequired

/-- The settings that an annotation gives: each as it is given last, or its default. -/
def given (directive : Directive) : Settings :=
  ({} : Settings).updatedBy directive.arguments

theorem updatedBy_concat (settings : Settings) (arguments : List (String × Value))
    (argument : String × Value) :
    settings.updatedBy (arguments ++ [argument]) =
      (settings.updatedBy arguments).updatedBy [argument] := by
  simp only [updatedBy, getLastD_valuesFor_concat _ _ arguments argument]

/-! ## What is wrong -/

/-- An argument is wrong if it sets something and its value is of another kind. A null value sets
nothing. -/
def wrong? (argument : String × Value) : Option Failure :=
  match Argument.ofName? argument.1 with
  | none => none
  | some known =>
    if argument.2 = .null ∨ known.kind.holds argument.2 then none
    else some (.wrongArgument argument.1 known.kind argument.2)

/-- What is wrong with the arguments of an annotation, in their order. -/
def wrongArguments (directive : Directive) : List Failure :=
  directive.arguments.filterMap wrong?

/-! ## Reading -/

theorem updatedBy_null (settings : Settings) (name : String) :
    settings.updatedBy [(name, .null)] = settings := by
  have hnone : ∀ {α : Type} (read : Value → Option α) (setting : Argument), read .null = none →
      valuesFor read setting [(name, .null)] = [] := by
    intro α read setting hread
    simp [valuesFor, hread]
  simp only [updatedBy, hnone Value.string? _ rfl, hnone Value.boolean? _ rfl, List.getLastD_nil]

theorem updatedBy_unknown (settings : Settings) {argument : String × Value}
    (h : Argument.ofName? argument.1 = none) : settings.updatedBy [argument] = settings := by
  simp only [updatedBy, valuesFor_unknown _ _ h, List.getLastD_nil]

theorem updatedBy_fieldName (settings : Settings) (field : AuditField) (name : String) :
    settings.updatedBy [((Argument.fieldName field).name, .string name)] =
      settings.rename field name := by
  have hnames : ∀ other, (valuesFor Value.string? (.fieldName other)
      [((Argument.fieldName field).name, .string name)]).getLastD (settings.name other) =
      if other = field then name else settings.name other := by
    intro other
    rw [valuesFor_single]
    by_cases h : other = field
    · subst h
      simp [Value.string?]
    · simp [h, Ne.symm h]
  simp only [updatedBy, hnames]
  simp only [valuesFor_single, reduceCtorEq, if_false, List.getLastD_nil, rename]

theorem set_eq (settings : Settings) (known : Argument) (value : Value) :
    settings.set known known.name value =
      if known.kind.holds value then .ok (settings.updatedBy [(known.name, value)])
      else .error (.wrongArgument known.name known.kind value) := by
  cases known with
  | softDelete =>
    cases value with
    | boolean b =>
      have hupdated : settings.updatedBy [(Argument.softDelete.name, .boolean b)] =
          { settings with softDelete := b } := by
        simp [updatedBy, valuesFor_single, Value.boolean?]
      rw [hupdated]
      rfl
    | _ => rfl
  | identityRequired =>
    cases value with
    | boolean b =>
      have hupdated : settings.updatedBy [(Argument.identityRequired.name, .boolean b)] =
          { settings with identityRequired := b } := by
        simp [updatedBy, valuesFor_single, Value.boolean?]
      rw [hupdated]
      rfl
    | _ => rfl
  | fieldName field =>
    cases value with
    | string name =>
      rw [updatedBy_fieldName]
      rfl
    | _ => rfl

/-- The step: an argument is read into the settings unless it is wrong. -/
theorem readArgument_eq (settings : Settings) (argument : String × Value) :
    settings.readArgument argument =
      (wrong? argument).elim (.ok (settings.updatedBy [argument])) .error := by
  obtain ⟨name, value⟩ := argument
  unfold readArgument wrong?
  dsimp only
  split
  · next hnull =>
    obtain rfl := hnull
    cases Argument.ofName? name with
    | none => rw [updatedBy_null, Option.elim_none]
    | some known => simp [updatedBy_null]
  · next hvalue =>
    cases hname : Argument.ofName? name with
    | none => rw [updatedBy_unknown _ hname, Option.elim_none]
    | some known =>
      obtain rfl := Argument.name_of_ofName? hname
      simp only [set_eq, hvalue, false_or]
      split
      · rfl
      · rfl

/-- Reading an annotation gives its settings, unless an argument is wrong: the first one counts. -/
theorem read_eq (directive : Directive) :
    read directive = (Except.verdict (wrongArguments directive)).map fun _ => given directive := by
  refine Except.foldlM_eq_verdict wrong? (fun arguments => ({} : Settings).updatedBy arguments) ?_
  intro done argument rest _
  rw [readArgument_eq, updatedBy_concat]

end Settings

end AuditFields
