import AuditFields.Proofs.Schema.Plain
import Mathlib.Data.List.Forall2

/-!
# Descriptions that are read back

The description of a type or of one of its parts is written as a block if it has more than one line, and
as a quoted literal otherwise. A block is always read, but what is read need not be what was written; a
literal is read as what was written, but need not be read at all. Which of the descriptions of a schema
are read again is a matter of each description alone (`Survives`), and not of the place that it stands at.

The rest of a schema is the schema without these descriptions (`Schema.bare`). What can be read of a
schema, and what is read back from it, are here split into what its rest says and what each description
says.
-/

namespace AuditFields.Schema

/-! ## The descriptions of a schema and its rest -/

def Field.bare (field : Field) : Field :=
  { field with description := none }

def InputField.bare (field : InputField) : InputField :=
  { field with description := none }

def EnumValue.bare (value : EnumValue) : EnumValue :=
  { value with description := none }

/-- An object type without its description and those of its fields. -/
def ObjectType.bare (type : ObjectType) : ObjectType :=
  { type with description := none, fields := type.fields.map Field.bare }

namespace TypeDefinition

/-- The definition of a type without its description and those of its parts. The arguments of a field
keep theirs, which are written as literals whatever they are. -/
def bare : TypeDefinition → TypeDefinition
  | .scalar type => .scalar { type with description := none }
  | .object type => .object type.bare
  | .interface type => .interface type.bare
  | .union type => .union { type with description := none }
  | .enum type => .enum { type with description := none, values := type.values.map EnumValue.bare }
  | .input type => .input { type with description := none, fields := type.fields.map InputField.bare }

/-- The descriptions of the fields or values of a type. -/
def partDescriptions : TypeDefinition → List (Option String)
  | .scalar _ => []
  | .object type => type.fields.map (·.description)
  | .interface type => type.fields.map (·.description)
  | .union _ => []
  | .enum type => type.values.map (·.description)
  | .input type => type.fields.map (·.description)

def descriptions (type : TypeDefinition) : List (Option String) :=
  type.description :: type.partDescriptions

end TypeDefinition

namespace Definition

def bare : Definition → Definition
  | .type definition => .type definition.bare
  | .extension definition => .extension definition.bare
  | definition => definition

def descriptions : Definition → List (Option String)
  | .type definition => definition.descriptions
  | .extension definition => definition.descriptions
  | _ => []

end Definition

/-- The descriptions of the types of a schema and of their parts, in the order in which they are written. -/
def descriptions (schema : Schema) : List (Option String) :=
  schema.definitions.flatMap Definition.descriptions

/-- A schema without the descriptions of its types and of their parts. -/
def bare (schema : Schema) : Schema :=
  { schema with
    types := schema.types.map fun entry => (entry.1, entry.2.bare)
    extensions := schema.extensions.map TypeDefinition.bare }

theorem definitions_bare (schema : Schema) :
    schema.bare.definitions = schema.definitions.map Definition.bare := by
  simp only [definitions, bare, List.map_append, List.map_map, Entries.values]
  cases schema.roots <;> rfl

/-! ## What can be read -/

theorem legible_append_iff {xs ys : List Token} : Legible (xs ++ ys) ↔ Legible xs ∧ Legible ys :=
  ⟨fun h => ⟨h.left, h.right⟩, fun h => h.1.append h.2⟩

theorem legible_name_iff {name : String} {tokens : List Token} :
    Legible (.name name :: tokens) ↔ Legible tokens :=
  ⟨Legible.tail, Legible.name⟩

theorem legible_flatMap_iff {α : Type} {tokens : α → List Token} {items : List α} :
    Legible (items.flatMap tokens) ↔ ∀ item ∈ items, Legible (tokens item) :=
  ⟨Legible.of_flatMap, legible_flatMap⟩

theorem legible_parts_iff {α : Type} {tokens : α → List Token} {bare : α → α}
    {descriptions : α → List (Option String)}
    (h : ∀ part, Legible (tokens part) ↔
      Legible (tokens (bare part)) ∧ ∀ text, some text ∈ descriptions part → Writable text)
    (parts : List α) :
    Legible (parts.flatMap tokens) ↔ Legible ((parts.map bare).flatMap tokens) ∧
      ∀ text, some text ∈ parts.flatMap descriptions → Writable text := by
  rw [List.flatMap_map, legible_flatMap_iff, legible_flatMap_iff]
  constructor
  · intro hparts
    refine ⟨fun part hmem => ((h part).mp (hparts part hmem)).1, fun text htext => ?_⟩
    obtain ⟨part, hmem, hdescription⟩ := List.mem_flatMap.mp htext
    exact ((h part).mp (hparts part hmem)).2 text hdescription
  · rintro ⟨hbare, hwritable⟩ part hmem
    exact (h part).mpr ⟨hbare part hmem, fun text hdescription =>
      hwritable text (List.mem_flatMap.mpr ⟨part, hmem, hdescription⟩)⟩

theorem legible_lineTokens_iff {description : Option String} {tokens : List Token} :
    Legible (lineTokens description tokens) ↔
      Legible (lineTokens none tokens) ∧ ∀ text, some text ∈ [description] → Writable text := by
  rw [lineTokens, legible_append_iff, legible_descriptionTokens_iff, and_comm]
  simp only [Option.mem_def, List.mem_singleton, eq_comm]
  rfl

theorem legible_bodyTokens_iff {α : Type} {tokens : α → List Token} {items : List α} :
    Legible (bodyTokens tokens items) ↔ Legible (items.flatMap tokens) :=
  ⟨fun h => h.tail.left, fun h => (h.append legible_nil.mark).mark⟩

theorem legible_body_iff {α : Type} {line : α → List Token} {bare : α → α}
    {description : α → Option String} (h : ∀ item, Legible (line item) ↔
      Legible (line (bare item)) ∧ ∀ text, some text ∈ [description item] → Writable text)
    (items : List α) :
    Legible (bodyTokens line items) ↔ Legible (bodyTokens line (items.map bare)) ∧
      ∀ text, some text ∈ items.map description → Writable text := by
  rw [legible_bodyTokens_iff, legible_bodyTokens_iff, List.map_eq_flatMap (f := description)]
  exact legible_parts_iff h items

namespace TypeDefinition

theorem legible_afterKeyword_iff (type : TypeDefinition) :
    Legible type.afterKeyword ↔
      Legible type.bare.afterKeyword ∧ ∀ text, some text ∈ type.partDescriptions → Writable text := by
  have hfield : ∀ field : Field, Legible field.lineTokens ↔ Legible field.bare.lineTokens ∧
      ∀ text, some text ∈ [field.description] → Writable text := fun _ => legible_lineTokens_iff
  cases type with
  | scalar type => simp [partDescriptions, bare, afterKeyword]
  | object type =>
    simp only [afterKeyword, bare, ObjectType.bare, legible_name_iff, legible_append_iff,
      legible_body_iff hfield type.fields, and_assoc]
    rfl
  | interface type =>
    simp only [afterKeyword, bare, ObjectType.bare, legible_name_iff, legible_append_iff,
      legible_body_iff hfield type.fields, and_assoc]
    rfl
  | union type => simp [partDescriptions, bare, afterKeyword]
  | enum type =>
    have hvalue : ∀ value : EnumValue, Legible value.lineTokens ↔ Legible value.bare.lineTokens ∧
        ∀ text, some text ∈ [value.description] → Writable text := fun _ => legible_lineTokens_iff
    simp only [afterKeyword, bare, legible_name_iff, legible_append_iff,
      legible_body_iff hvalue type.values, and_assoc]
    rfl
  | input type =>
    have hinput : ∀ field : InputField, Legible field.lineTokens ↔ Legible field.bare.lineTokens ∧
        ∀ text, some text ∈ [field.description] → Writable text := fun _ => legible_lineTokens_iff
    simp only [afterKeyword, bare, legible_name_iff, legible_append_iff,
      legible_body_iff hinput type.fields, and_assoc]
    rfl

theorem description_bare (type : TypeDefinition) : type.bare.description = none := by
  cases type <;> rfl

theorem name_bare (type : TypeDefinition) : type.bare.name = type.name := by
  cases type <;> rfl

theorem legible_tokens_iff (type : TypeDefinition) :
    Legible type.tokens ↔
      Legible type.bare.tokens ∧ ∀ text, some text ∈ type.descriptions → Writable text := by
  have hdescriptions : (∀ text, some text ∈ type.descriptions → Writable text) ↔
      (∀ text ∈ type.description, Writable text) ∧
        ∀ text, some text ∈ type.partDescriptions → Writable text := by
    simp only [descriptions, List.mem_cons, Option.mem_def, or_imp, forall_and, eq_comm]
  rw [tokens_eq, tokens_eq, legible_append_iff, legible_append_iff, legible_descriptionTokens_iff,
    legible_descriptionTokens_iff, legible_name_iff, legible_name_iff, description_bare,
    legible_afterKeyword_iff, hdescriptions]
  simp only [Option.mem_def, reduceCtorEq, false_implies, implies_true, true_and]
  exact and_left_comm

end TypeDefinition

theorem Definition.legible_tokens_iff (definition : Definition) :
    Legible definition.tokens ↔
      Legible definition.bare.tokens ∧ ∀ text, some text ∈ definition.descriptions → Writable text := by
  cases definition with
  | type type => exact type.legible_tokens_iff
  | extension type =>
    exact (legible_name_iff.trans type.legible_tokens_iff).trans (and_congr_left' legible_name_iff.symm)
  | _ => exact ⟨fun h => ⟨h, fun _ hmem => absurd hmem List.not_mem_nil⟩, fun h => h.1⟩

/-- A schema can be read if its rest can and each description can. -/
theorem legible_tokens_iff (schema : Schema) :
    Legible schema.tokens ↔
      Legible schema.bare.tokens ∧ ∀ text, some text ∈ schema.descriptions → Writable text := by
  rw [tokens, tokens, definitions_bare]
  exact legible_parts_iff Definition.legible_tokens_iff schema.definitions

/-! ## What is read back -/

namespace TypeDefinition

theorem reread_bare (type : TypeDefinition) : type.bare.reread = type.reread.bare := by
  cases type with
  | scalar type => rfl
  | union type => rfl
  | _ =>
    simp only [bare, reread, ObjectType.bare, ObjectType.reread, EnumType.reread, InputType.reread,
      List.map_map]
    rfl

theorem descriptions_reread (type : TypeDefinition) :
    type.reread.descriptions = type.descriptions.map (Option.map (rereadText "")) := by
  have hindent : rereadText indent = rereadText "" := funext (rereadText_eq spaces_indent)
  have hown : type.reread.description = type.description.map (rereadText "") := by
    cases type <;> rfl
  have hparts : type.reread.partDescriptions = type.partDescriptions.map (Option.map (rereadText indent)) := by
    cases type with
    | scalar type => rfl
    | union type => rfl
    | _ =>
      simp only [reread, partDescriptions, ObjectType.reread, EnumType.reread, InputType.reread, List.map_map]
      rfl
  rw [descriptions, hown, hparts, hindent, descriptions, List.map_cons]

end TypeDefinition

theorem Definition.descriptions_reread (definition : Definition) :
    definition.reread.descriptions = definition.descriptions.map (Option.map (rereadText "")) := by
  cases definition with
  | type type => exact type.descriptions_reread
  | extension type => exact type.descriptions_reread
  | _ => rfl

theorem reread_bare (schema : Schema) : schema.bare.reread = schema.reread.bare := by
  simp only [bare, reread, List.map_map, Function.comp_def, TypeDefinition.reread_bare]

theorem descriptions_reread (schema : Schema) :
    schema.reread.descriptions = schema.descriptions.map (Option.map (rereadText "")) := by
  rw [descriptions, descriptions, definitions_reread, List.flatMap_map, List.map_flatMap]
  simp only [Definition.descriptions_reread]

/-! ## What can be written -/

theorem Field.wellFormed_of_bare {fields : List Field} (h : ∀ field ∈ fields.map bare, field.WellFormed) :
    ∀ field ∈ fields, field.WellFormed := by
  intro field hmem
  obtain ⟨hname, harguments, htype, hdirectives⟩ := h _ (List.mem_map_of_mem hmem)
  exact ⟨hname, harguments, htype, hdirectives⟩

theorem TypeDefinition.wellFormed_of_bare {type : TypeDefinition} (h : type.bare.WellFormed) :
    type.WellFormed := by
  cases type with
  | scalar type => exact ⟨h.name, h.directives⟩
  | object type => exact ⟨h.name, h.interfaces, h.directives, Field.wellFormed_of_bare h.fields⟩
  | interface type => exact ⟨h.name, h.interfaces, h.directives, Field.wellFormed_of_bare h.fields⟩
  | union type => exact ⟨h.name, h.directives, h.members⟩
  | enum type =>
    refine ⟨h.name, h.directives, fun value hmem => ?_⟩
    obtain ⟨hname, hword, hdirectives⟩ := h.values _ (List.mem_map_of_mem hmem)
    exact ⟨hname, hword, hdirectives⟩
  | input type =>
    refine ⟨h.name, h.directives, fun field hmem => ?_⟩
    obtain ⟨hname, htype, hdefault, hdirectives⟩ := h.fields _ (List.mem_map_of_mem hmem)
    exact ⟨hname, htype, hdefault, hdirectives⟩

theorem TypeDefinition.hasBody_bare (type : TypeDefinition) : type.bare.HasBody ↔ type.HasBody := by
  cases type with
  | scalar type => exact Iff.rfl
  | union type => exact Iff.rfl
  | _ => exact not_congr List.map_eq_nil_iff

theorem WellFormed.of_bare {schema : Schema} (h : schema.bare.WellFormed) : schema.WellFormed := by
  intro definition hmem
  have hbare : definition.bare.WellFormed := h _ (definitions_bare schema ▸ List.mem_map_of_mem hmem)
  cases definition with
  | type type => exact TypeDefinition.wellFormed_of_bare hbare
  | extension type => exact TypeDefinition.wellFormed_of_bare hbare
  | _ => exact hbare

theorem Keyed.of_bare {schema : Schema} (h : schema.bare.Keyed) : schema.Keyed where
  nodup := by
    have hnames : schema.bare.types.names = schema.types.names := by
      simp only [bare, Entries.names, List.map_map]
      rfl
    rw [← hnames]
    exact h.nodup
  own := by
    intro entry hentry
    have hown := h.own _ (List.mem_map_of_mem hentry)
    rwa [TypeDefinition.name_bare] at hown

/-- All that a description can do to the shape of a definition is to stand behind `extend`. -/
theorem shaped_iff_of_bare {schema : Schema} (h : ∀ d ∈ schema.bare.definitions, d.Shaped) :
    (∀ d ∈ schema.definitions, d.Shaped) ↔
      ∀ extension ∈ schema.extensions, extension.description = none := by
  rw [definitions_bare, List.forall_mem_map] at h
  obtain ⟨-, -, htypes, hextensions⟩ := forall_definitions_iff.mp h
  constructor
  · intro hshaped extension hmem
    exact ((forall_definitions_iff.mp hshaped).2.2.2 extension hmem).2
  · intro hnone
    refine forall_definitions_iff.mpr ⟨fun _ _ => trivial, fun _ _ => trivial, fun entry hmem => ?_,
      fun extension hmem => ⟨?_, hnone extension hmem⟩⟩
    · exact entry.2.hasBody_bare.mp (htypes entry hmem)
    · exact extension.hasBody_bare.mp (hextensions extension hmem).1

/-! ## Reading back -/

theorem ofText_render_eq_ok_iff_of_bare {schema again : Schema}
    (h : ofText schema.bare.render = .ok schema.bare) :
    ofText schema.render = .ok again ↔ ((∀ text, some text ∈ schema.descriptions → Writable text) ∧
      ∀ extension ∈ schema.extensions, extension.description = none) ∧ again = schema.reread := by
  obtain ⟨hkeyed, hnonempty, hprintable⟩ := ofText_render_eq_self_iff.mp h
  have hne : schema.definitions ≠ [] := by
    rw [definitions_bare] at hnonempty
    exact mt List.map_eq_nil_iff.mpr hnonempty
  have hwellFormed : schema.WellFormed := WellFormed.of_bare fun d hmem => (hprintable d hmem).wellFormed
  have hlegible : Legible schema.bare.tokens := legible_flatMap fun d hmem => (hprintable d hmem).legible
  rw [ofText_render_eq_ok_iff hkeyed.of_bare hne hwellFormed, legible_tokens_iff, and_iff_right hlegible,
    shaped_iff_of_bare fun d hmem => (hprintable d hmem).shaped, and_assoc]

theorem reread_bare_eq {schema : Schema} (h : ofText schema.bare.render = .ok schema.bare) :
    schema.reread.bare = schema.bare := by
  obtain ⟨hkeyed, hne, hprintable⟩ := ofText_render_eq_self_iff.mp h
  rw [ofText_render_eq_ok_iff hkeyed hne fun d hmem => (hprintable d hmem).wellFormed] at h
  exact (reread_bare schema).symm.trans h.2.2.symm

/-- **Each description of a schema is read again for itself.** If the rest of a schema is read back, then
the text of the schema is read exactly if every description can be read where it is written: none stands
behind `extend`, and none of one line has a character beyond U+FFFF. The rest is read back then, and
of the descriptions exactly those that survive. -/
theorem ofText_render_of_bare {schema : Schema} (h : ofText schema.bare.render = .ok schema.bare) :
    ((∃ again, ofText schema.render = .ok again) ↔
      (∀ text, some text ∈ schema.descriptions → Writable text) ∧
        ∀ extension ∈ schema.extensions, extension.description = none) ∧
    ∀ again, ofText schema.render = .ok again → again.bare = schema.bare ∧
      List.Forall₂ (fun before after => after = before ↔ ∀ text ∈ before, Survives text)
        schema.descriptions again.descriptions := by
  simp only [ofText_render_eq_ok_iff_of_bare h, exists_and_left, exists_eq, and_true, true_and]
  rintro _ ⟨⟨hwritable, -⟩, rfl⟩
  refine ⟨reread_bare_eq h, ?_⟩
  rw [descriptions_reread, List.forall₂_map_right_iff, List.forall₂_same]
  intro description hmem
  cases description with
  | none => simp
  | some text =>
    rw [Option.map_some, Option.some_inj, rereadText_eq_self_iff]
    simp only [Option.mem_def, Option.some.injEq, forall_eq']
    exact ⟨fun hkept => ⟨hwritable text hmem, hkept⟩, Survives.kept⟩

/-! ## A memo with other descriptions -/

def memoWith (description : String) : Schema :=
  { memo with types := memo.types.map fun entry => (entry.1, entry.2.withDescription (some description)) }

theorem ofText_render_bare_memoWith (description : String) :
    ofText (memoWith description).bare.render = .ok (memoWith description).bare := by
  have hplain : TypeDefinition.Plain (.object ⟨some memoDescription, "Memo", [], [], _⟩) :=
    plain_memo _ (List.mem_singleton_self _)
  have hwellFormed : TypeDefinition.WellFormed (.object ⟨some memoDescription, "Memo", [], [], _⟩) :=
    (ofText_sound ofText_memo).1 _ (List.mem_singleton_self _)
  have hkeyed : (memoWith description).bare.Keyed :=
    ⟨(by decide : ["Memo"].Nodup), List.forall_mem_singleton.mpr rfl⟩
  refine ofText_render_eq_self_iff.mpr ⟨hkeyed, List.cons_ne_nil _ _, ?_⟩
  refine List.forall_mem_singleton.mpr (Definition.Plain.printable ?_ ?_ (List.cons_ne_nil _ _))
  · exact ObjectType.plain_plain hplain.body "Memo"
  · exact ObjectType.wellFormed_plain hwellFormed.name hwellFormed.fields

theorem descriptions_memoWith (description : String) :
    (memoWith description).descriptions = [some description, none] :=
  rfl

theorem extensions_memoWith (description : String) :
    ∀ extension ∈ (memoWith description).extensions, extension.description = none :=
  fun _ hmem => absurd hmem List.not_mem_nil

/-- A description with a line feed behind its only line. -/
def endedDescription : String := "A memo.\n"

theorem writable_endedMemo :
    ∀ text, some text ∈ (memoWith endedDescription).descriptions → Writable text := by
  intro text htext
  rw [descriptions_memoWith] at htext
  rcases List.mem_cons.mp htext with hfirst | hother
  · obtain rfl := Option.some.inj hfirst
    exact fun hline => absurd (by decide) hline
  · cases List.mem_singleton.mp hother

theorem not_survives_endedDescription : ¬Survives endedDescription := by
  rintro ⟨-, hkept⟩
  exact absurd ((hkept (by decide)).last [] (by decide)) (by decide)

/-- A memo is read again without the line feed behind its description, and is not read again at all if
its description has a character beyond U+FFFF. -/
theorem ofText_render_of_bare_memoWith :
    (∃ again, ofText (memoWith endedDescription).render = .ok again ∧
      again.descriptions ≠ (memoWith endedDescription).descriptions) ∧
    ¬∃ again, ofText (memoWith "😀").render = .ok again := by
  obtain ⟨hread, hdescriptions⟩ := ofText_render_of_bare (ofText_render_bare_memoWith endedDescription)
  obtain ⟨hrefused, -⟩ := ofText_render_of_bare (ofText_render_bare_memoWith "😀")
  constructor
  · obtain ⟨again, hagain⟩ := hread.mpr ⟨writable_endedMemo, extensions_memoWith _⟩
    refine ⟨again, hagain, fun heq => ?_⟩
    have hkept := (hdescriptions again hagain).2
    rw [heq, descriptions_memoWith] at hkept
    cases hkept with
    | cons hfirst _ => exact not_survives_endedDescription (hfirst.mp rfl _ rfl)
  · intro h
    have hwritable : Writable "😀" := (hrefused.mp h).1 _ List.mem_cons_self
    exact absurd (hwritable (by decide)) (by decide)

/-- A document with the description as a literal. -/
def endedMemoText : String :=
  "\"A memo.\\n\"\ntype Memo\x7btext(size:Int=80):String\x7d"

theorem list_endedMemoText : Token.list endedMemoText.toList = .string endedDescription :: memoTokens :=
  (spells_memoTokens.ignored '\n' rfl).quoted (ends_cons rfl) endedDescription

theorem ofText_endedMemoText : ofText endedMemoText = .ok (memoWith endedDescription) := by
  refine ofText_eq_ok_iff.mpr ⟨by decide, (memoWith endedDescription).definitions, [], ?_, rfl⟩
  rw [list_endedMemoText]
  rfl

/-- A description that is read from a literal loses its line feed when it is written as a block. -/
theorem lineFeed_lost_endedMemo :
    ofText endedMemoText = .ok (memoWith endedDescription) ∧
    (memoWith endedDescription).descriptions = [some "A memo.\n", none] ∧
    ∃ again, ofText (memoWith endedDescription).render = .ok again ∧
      again.descriptions = [some "A memo.", none] := by
  have hwritten := And.intro writable_endedMemo (extensions_memoWith endedDescription)
  have htext : rereadText "" endedDescription = "A memo." := by cbv
  refine ⟨ofText_endedMemoText, rfl, (memoWith endedDescription).reread, ?_, ?_⟩
  · exact (ofText_render_eq_ok_iff_of_bare (ofText_render_bare_memoWith _)).mpr ⟨hwritten, rfl⟩
  · rw [descriptions_reread, descriptions_memoWith, List.map_cons, Option.map_some, htext]
    rfl

end AuditFields.Schema
