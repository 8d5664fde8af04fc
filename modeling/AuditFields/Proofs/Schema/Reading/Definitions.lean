import AuditFields.Proofs.Schema.Printing.Definitions
import AuditFields.Proofs.Schema.Reading.Values

/-!
# Reading printed definitions

What is read back from the tokens of fields and definitions. A definition is read back if it has the
shape of one that can be written: there is something between its braces, and no description behind
`extend`.
-/

namespace AuditFields.Schema

/-! ## Descriptions -/

/-- The text that is read back from the description of a definition or of a line. -/
def rereadText (indent text : String) : String :=
  if text.toList.contains '\n' then String.ofList (Text.Block.content (Text.Block.body indent text))
  else text

/-- The tokens are read as the description of a part that starts with a name. -/
def Describes (before : List Token) (description : Option String) : Prop :=
  ∀ name rest, Reader.description.run (before ++ Token.name name :: rest) =
    .ok (description, .name name :: rest)

theorem describes_none : Describes [] none :=
  fun _ _ => rfl

theorem describes_inline {description : Option String}
    (h : Legible (description.toList.map quotedToken)) :
    Describes (description.toList.map quotedToken) description := by
  cases description with
  | none => exact describes_none
  | some text =>
    intro name rest
    rw [Option.toList_some, List.map_singleton, quotedToken_of_legible h]
    rfl

theorem describes_line {indent : String} {description : Option String}
    (h : Legible (descriptionTokens indent description)) :
    Describes (descriptionTokens indent description) (description.map (rereadText indent)) := by
  cases description with
  | none => exact describes_none
  | some text =>
    intro name rest
    rw [descriptionTokens, Option.toList_some, List.map_singleton] at h ⊢
    unfold descriptionToken at h ⊢
    rw [Option.map_some, rereadText]
    split
    · rfl
    · next hlines =>
      rw [if_neg hlines] at h
      rw [quotedToken_of_legible h]
      rfl

/-! ## Parts on lines of their own -/

/-- The first token is no punctuator. -/
def Opens (tokens : List Token) : Prop :=
  ∃ token rest, tokens = token :: rest ∧ ∀ p, token ≠ .punctuator p

theorem Opens.avoids {tokens : List Token} (h : Opens tokens) (marks : List Punctuator)
    (rest : List Token) : Avoids marks (tokens ++ rest) := by
  obtain ⟨token, others, rfl, hne⟩ := h
  exact avoids_cons _ fun mark _ => hne mark

theorem opens_name (name : String) (rest : List Token) : Opens (.name name :: rest) :=
  ⟨_, _, rfl, by simp⟩

theorem opens_map_append {description : Option String} {token : String → Token}
    (h : ∀ text p, token text ≠ .punctuator p) (name : String) (rest : List Token) :
    Opens (description.toList.map token ++ Token.name name :: rest) := by
  cases description with
  | none => exact opens_name name rest
  | some text => exact ⟨_, _, rfl, h text⟩

theorem quotedToken_ne_punctuator (text : String) (p : Punctuator) : quotedToken text ≠ .punctuator p := by
  unfold quotedToken
  split <;> simp

theorem descriptionToken_ne_punctuator (indent text : String) (p : Punctuator) :
    descriptionToken indent text ≠ .punctuator p := by
  unfold descriptionToken
  split
  · simp [blockToken]
  · exact quotedToken_ne_punctuator text p

theorem opens_description (indent : String) (description : Option String) (name : String)
    (rest : List Token) : Opens (descriptionTokens indent description ++ Token.name name :: rest) :=
  opens_map_append (descriptionToken_ne_punctuator indent) name rest

/-! ## Fields -/

/-- What is read back from an argument definition. -/
def InputField.reread (field : InputField) : InputField :=
  { field with
    default := field.default.map Value.reread
    directives := field.directives.map Directive.reread }

/-- What is read back from the lines of a field of an input type. -/
def InputField.rereadLine (field : InputField) : InputField :=
  { field.reread with description := field.description.map (rereadText indent) }

/-- What is read back from the lines of a field. -/
def Field.reread (field : Field) : Field :=
  { field with
    description := field.description.map (rereadText indent)
    arguments := field.arguments.map InputField.reread
    directives := field.directives.map Directive.reread }

def EnumValue.reread (value : EnumValue) : EnumValue :=
  { value with
    description := value.description.map (rereadText indent)
    directives := value.directives.map Directive.reread }

namespace Reader

variable {before rest : List Token} {description : Option String}

theorem run_default {value : Option Value} (h : ∀ v ∈ value, v.WellFormed)
    (hlegible : Legible (defaultTokens value)) (hrest : Avoids [.equals] rest) :
    Reader.default.run (defaultTokens value ++ rest) = .ok (value.map Value.reread, rest) := by
  cases value with
  | none =>
    rw [defaultTokens, List.nil_append, Reader.default, run_bind_of_ok (run_nextIs_of_avoids hrest)]
    rfl
  | some value =>
    rw [defaultTokens, List.cons_append, Reader.default, run_bind_of_ok (run_nextIs_self .equals _),
      if_pos rfl, run_bind_of_ok (run_discard_take rfl _),
      run_bind_of_ok (run_value (h value rfl) hlegible.tail rest)]
    rfl

/-- The punctuators that go on with a field. -/
def fieldMarks : List Punctuator :=
  [.bang, .closeBracket, .equals, .at, .openParen]

theorem run_inputField {field : InputField} (h : field.WellFormed) (hlegible : Legible field.tokens)
    (hbefore : Describes before description) (hrest : Avoids fieldMarks rest) :
    inputField.run (before ++ (field.tokens ++ rest)) = .ok ({ field.reread with description }, rest) := by
  have hdirectives := run_directives h.directives hlegible.tail.tail.right.right (hrest.subset (by decide))
  have hafter : Avoids [.bang, .closeBracket, .equals] (field.directives.flatMap Directive.tokens ++ rest) := by
    refine Avoids.append ?_ (hrest.subset (by decide))
    cases field.directives with
    | nil => exact avoids_nil _
    | cons directive directives => exact avoids_cons _ (by simp)
  have hdefault := run_default h.default hlegible.tail.tail.right.left (hafter.subset (by decide))
  have hmarks : Avoids [.bang, .closeBracket]
      (defaultTokens field.default ++ (field.directives.flatMap Directive.tokens ++ rest)) := by
    refine Avoids.append ?_ (hafter.subset (by decide))
    cases field.default with
    | none => exact avoids_nil _
    | some value => exact avoids_cons _ (by simp)
  have htype := run_type h.type hmarks
  rw [InputField.tokens]
  simp only [List.cons_append, List.append_assoc]
  rw [inputField, run_bind_of_ok (hbefore field.name _), run_bind_of_ok (run_name _ _),
    run_bind_of_ok (run_expect .colon _), run_bind_of_ok htype, run_bind_of_ok hdefault,
    run_bind_of_ok hdirectives]
  rfl

theorem repeats_of_opens {α β : Type} {closing : Punctuator} {part : Reader β} {tokens : α → List Token}
    {value : α → β} {items : List α} (hopens : ∀ item ∈ items, Opens (tokens item))
    (hrun : ∀ item ∈ items, ∀ after, Avoids fieldMarks after →
      part.run (tokens item ++ after) = .ok (value item, after)) :
    Repeats (· != .punctuator closing) part (Avoids fieldMarks) tokens value items where
  starts := by
    intro item hmem
    obtain ⟨token, others, htokens, hne⟩ := hopens item hmem
    exact ⟨token, others, htokens, bne_iff_ne.mpr (hne closing)⟩
  follows := fun item hmem after => (hopens item hmem).avoids fieldMarks after
  run := hrun

theorem run_argumentDefinitions {fields : List InputField} (h : ∀ field ∈ fields, field.WellFormed)
    (hlegible : Legible (argumentDefinitionTokens fields)) (hrest : Avoids [.openParen] rest) :
    (enclosedIfAny .openParen .closeParen inputField).run (argumentDefinitionTokens fields ++ rest) =
      .ok (fields.map InputField.reread, rest) := by
  cases fields with
  | nil => exact run_enclosedIfAny_of_avoids hrest
  | cons first others =>
    have hrepeats : Repeats (· != .punctuator .closeParen) inputField (Avoids fieldMarks)
        InputField.inlineTokens InputField.reread (first :: others) := by
      refine repeats_of_opens (fun field _ => ?_) fun field hmem after hafter => ?_
      · exact opens_map_append quotedToken_ne_punctuator field.name _
      · have hfield := hlegible.tail.left.of_flatMap field hmem
        rw [InputField.inlineTokens, List.append_assoc]
        exact run_inputField (h field hmem) hfield.right (describes_inline hfield.left) hafter
    have htokens : argumentDefinitionTokens (first :: others) ++ rest = .punctuator .openParen ::
        ((first :: others).flatMap InputField.inlineTokens ++ Token.punctuator .closeParen :: rest) := by
      rw [argumentDefinitionTokens, List.cons_append, List.append_assoc, List.singleton_append]
      simp
    rw [htokens]
    exact run_enclosedIfAny hrepeats (fun _ => avoids_cons _ (by decide)) rest

theorem run_inputFieldLine {field : InputField} (h : field.WellFormed)
    (hlegible : Legible field.lineTokens) (hrest : Avoids fieldMarks rest) :
    inputField.run (field.lineTokens ++ rest) = .ok (field.rereadLine, rest) := by
  rw [InputField.lineTokens, lineTokens, List.append_assoc]
  exact run_inputField h hlegible.right (describes_line hlegible.left) hrest

theorem run_field {f : Field} (h : f.WellFormed) (hlegible : Legible f.lineTokens)
    (hrest : Avoids fieldMarks rest) : field.run (f.lineTokens ++ rest) = .ok (f.reread, rest) := by
  have htokens : Legible f.tokens := hlegible.right
  have hdirectives := run_directives h.directives htokens.tail.right.tail.right
    (hrest.subset (by decide))
  have hmarks : Avoids [.bang, .closeBracket] (f.directives.flatMap Directive.tokens ++ rest) := by
    refine Avoids.append ?_ (hrest.subset (by decide))
    cases f.directives with
    | nil => exact avoids_nil _
    | cons directive directives => exact avoids_cons _ (by simp)
  have htype := run_type h.type hmarks
  have harguments := run_argumentDefinitions h.arguments htokens.tail.left
    (avoids_cons (f.type.tokens ++ (f.directives.flatMap Directive.tokens ++ rest))
      (by decide : ∀ mark ∈ [.openParen], Token.punctuator .colon ≠ .punctuator mark))
  rw [Field.lineTokens, lineTokens, Field.tokens]
  simp only [List.cons_append, List.append_assoc]
  rw [field, run_bind_of_ok (describes_line hlegible.left f.name _), run_bind_of_ok (run_name _ _),
    run_bind_of_ok harguments, run_bind_of_ok (run_expect .colon _), run_bind_of_ok htype,
    run_bind_of_ok hdirectives]
  rfl

theorem run_enumValue {value : EnumValue} (h : value.WellFormed) (hlegible : Legible value.lineTokens)
    (hrest : Avoids fieldMarks rest) :
    enumValue.run (value.lineTokens ++ rest) = .ok (value.reread, rest) := by
  have hdirectives := run_directives h.directives hlegible.right.tail (hrest.subset (by decide))
  have hword : ¬["true", "false", "null"].contains value.name = true := by
    rw [List.contains_iff_mem]
    exact h.notWord
  rw [EnumValue.lineTokens, lineTokens]
  simp only [List.cons_append, List.append_assoc]
  rw [enumValue, run_bind_of_ok (describes_line hlegible.left value.name _),
    run_bind_of_ok (run_name _ _), if_neg hword]
  rw [run_bind_of_ok hdirectives]
  rfl

end Reader

/-! ## Types -/

/-- What is read back from a type definition, apart from its own description. -/
def ScalarType.reread (type : ScalarType) : ScalarType :=
  { type with
    description := type.description.map (rereadText "")
    directives := type.directives.map Directive.reread }

def ObjectType.reread (type : ObjectType) : ObjectType :=
  { type with
    description := type.description.map (rereadText "")
    directives := type.directives.map Directive.reread
    fields := type.fields.map Field.reread }

def UnionType.reread (type : UnionType) : UnionType :=
  { type with
    description := type.description.map (rereadText "")
    directives := type.directives.map Directive.reread }

def EnumType.reread (type : EnumType) : EnumType :=
  { type with
    description := type.description.map (rereadText "")
    directives := type.directives.map Directive.reread
    values := type.values.map EnumValue.reread }

def InputType.reread (type : InputType) : InputType :=
  { type with
    description := type.description.map (rereadText "")
    directives := type.directives.map Directive.reread
    fields := type.fields.map InputField.rereadLine }

def TypeDefinition.reread : TypeDefinition → TypeDefinition
  | .scalar type => .scalar type.reread
  | .object type => .object type.reread
  | .interface type => .interface type.reread
  | .union type => .union type.reread
  | .enum type => .enum type.reread
  | .input type => .input type.reread

/-- There is something between the braces, if the type has any. -/
def TypeDefinition.HasBody : TypeDefinition → Prop
  | .scalar _ => True
  | .object type => type.fields ≠ []
  | .interface type => type.fields ≠ []
  | .union _ => True
  | .enum type => type.values ≠ []
  | .input type => type.fields ≠ []

def TypeDefinition.description : TypeDefinition → Option String
  | .scalar type => type.description
  | .object type => type.description
  | .interface type => type.description
  | .union type => type.description
  | .enum type => type.description
  | .input type => type.description

def TypeDefinition.keyword : TypeDefinition → String
  | .scalar _ => "scalar"
  | .object _ => "type"
  | .interface _ => "interface"
  | .union _ => "union"
  | .enum _ => "enum"
  | .input _ => "input"

/-- The tokens of a type definition after its keyword. -/
def TypeDefinition.afterKeyword : TypeDefinition → List Token
  | .scalar type => .name type.name :: type.directives.flatMap Directive.tokens
  | .object type | .interface type =>
    .name type.name :: (namesTokens [.name "implements"] .ampersand type.interfaces ++
      (type.directives.flatMap Directive.tokens ++ bodyTokens Field.lineTokens type.fields))
  | .union type =>
    .name type.name :: (type.directives.flatMap Directive.tokens ++
      namesTokens [.punctuator .equals] .pipe type.members)
  | .enum type =>
    .name type.name :: (type.directives.flatMap Directive.tokens ++
      bodyTokens EnumValue.lineTokens type.values)
  | .input type =>
    .name type.name :: (type.directives.flatMap Directive.tokens ++
      bodyTokens InputField.lineTokens type.fields)

theorem TypeDefinition.tokens_eq (type : TypeDefinition) :
    type.tokens = descriptionTokens "" type.description ++ Token.name type.keyword :: type.afterKeyword := by
  cases type <;> rfl

namespace Reader

variable {before rest : List Token} {description : Option String}

/-- The punctuators that go on with a definition. -/
def definitionMarks : List Punctuator :=
  [.ampersand, .at, .equals, .openBrace, .openParen, .pipe]

theorem avoids_directives {marks : List Punctuator} (hmarks : Punctuator.at ∉ marks)
    (ds : List Directive) (hrest : Avoids marks rest) :
    Avoids marks (ds.flatMap Directive.tokens ++ rest) := by
  refine Avoids.append ?_ hrest
  cases ds with
  | nil => exact avoids_nil _
  | cons directive ds =>
    refine avoids_cons _ fun mark hmem heq => hmarks ?_
    obtain rfl := Token.punctuator.inj heq
    exact hmem

theorem avoids_body {α : Type} {tokens : α → List Token} {items : List α} {marks : List Punctuator}
    (hmarks : Punctuator.openBrace ∉ marks) : Avoids marks (bodyTokens tokens items ++ rest) := by
  refine avoids_cons _ fun mark hmem heq => hmarks ?_
  obtain rfl := Token.punctuator.inj heq
  exact hmem

theorem run_names {mark : Punctuator} (first : String) (others : List String)
    (hrest : Avoids [mark] rest) :
    (separated mark name).run
        (.name first :: (others.flatMap (fun other => [.punctuator mark, .name other]) ++ rest)) =
      .ok (first :: others, rest) := by
  have hnames : ∀ item ∈ first :: others, ∀ after,
      name.run ([Token.name item] ++ after) = .ok (id item, after) := fun item _ after => run_name item after
  have hrun := run_separated hnames (fun _ => avoids_cons _ (by simp)) hrest
  rwa [List.map_id] at hrun

theorem run_interfaces (names : List String) (hmark : Avoids [.ampersand] rest)
    (hkeyword : rest.head? ≠ some (.name "implements")) :
    interfaces.run (namesTokens [.name "implements"] .ampersand names ++ rest) = .ok (names, rest) := by
  cases names with
  | nil =>
    rw [namesTokens, List.nil_append, interfaces, run_bind_of_ok (run_nextIsKeyword _ _),
      beq_eq_false_iff_ne.mpr hkeyword]
    rfl
  | cons first others =>
    rw [namesTokens, List.append_assoc, List.singleton_append, List.cons_append, interfaces,
      run_bind_of_ok (run_nextIsKeyword _ _), List.head?_cons, beq_self_eq_true, if_pos rfl,
      run_bind_of_ok (run_discard_take rfl _)]
    exact run_names first others hmark

theorem run_body {α β : Type} {part : Reader β} {tokens : α → List Token} {value : α → β}
    {items : List α} (hopens : ∀ item ∈ items, Opens (tokens item))
    (hrun : ∀ item ∈ items, ∀ after, Avoids fieldMarks after →
      part.run (tokens item ++ after) = .ok (value item, after)) (hne : items ≠ []) (rest : List Token) :
    (enclosedIfAny .openBrace .closeBrace part).run (bodyTokens tokens items ++ rest) =
      .ok (items.map value, rest) := by
  obtain ⟨first, others, rfl⟩ := List.exists_cons_of_ne_nil hne
  rw [bodyTokens, List.cons_append, List.append_assoc]
  exact run_enclosedIfAny (repeats_of_opens hopens hrun) (fun _ => avoids_cons _ (by decide)) rest

theorem run_fields {fields : List Field} (h : ∀ field ∈ fields, field.WellFormed)
    (hlegible : Legible (bodyTokens Field.lineTokens fields)) (hne : fields ≠ []) (rest : List Token) :
    (enclosedIfAny .openBrace .closeBrace field).run (bodyTokens Field.lineTokens fields ++ rest) =
      .ok (fields.map Field.reread, rest) :=
  run_body (fun field _ => opens_description indent field.description field.name _)
    (fun field hmem _ => run_field (h field hmem) (hlegible.tail.left.of_flatMap field hmem)) hne rest

theorem run_enumValues {values : List EnumValue} (h : ∀ value ∈ values, value.WellFormed)
    (hlegible : Legible (bodyTokens EnumValue.lineTokens values)) (hne : values ≠ [])
    (rest : List Token) :
    (enclosedIfAny .openBrace .closeBrace enumValue).run (bodyTokens EnumValue.lineTokens values ++ rest) =
      .ok (values.map EnumValue.reread, rest) :=
  run_body (fun value _ => opens_description indent value.description value.name _)
    (fun value hmem _ => run_enumValue (h value hmem) (hlegible.tail.left.of_flatMap value hmem)) hne rest

theorem run_inputFields {fields : List InputField} (h : ∀ field ∈ fields, field.WellFormed)
    (hlegible : Legible (bodyTokens InputField.lineTokens fields)) (hne : fields ≠ [])
    (rest : List Token) :
    (enclosedIfAny .openBrace .closeBrace inputField).run (bodyTokens InputField.lineTokens fields ++ rest) =
      .ok (fields.map InputField.rereadLine, rest) :=
  run_body (fun field _ => opens_description indent field.description field.name _)
    (fun field hmem _ => run_inputFieldLine (h field hmem) (hlegible.tail.left.of_flatMap field hmem))
    hne rest

theorem run_scalarType {type : ScalarType} (h : type.WellFormed)
    (hlegible : Legible (type.directives.flatMap Directive.tokens))
    (hrest : Avoids definitionMarks rest) :
    (scalarType description).run
        (.name type.name :: (type.directives.flatMap Directive.tokens ++ rest)) =
      .ok ({ type.reread with description }, rest) := by
  rw [scalarType, run_bind_of_ok (run_name _ _),
    run_bind_of_ok (run_directives h.directives hlegible (hrest.subset (by decide)))]
  rfl

/-- Everything about an object or interface type but its fields is read back whatever they are. -/
theorem run_objectType {type : ObjectType} (h : type.WellFormed)
    (hlegible : Legible (type.directives.flatMap Directive.tokens)) :
    (objectType description).run
        (.name type.name :: (namesTokens [.name "implements"] .ampersand type.interfaces ++
          (type.directives.flatMap Directive.tokens ++ (bodyTokens Field.lineTokens type.fields ++ rest)))) =
      ((enclosedIfAny .openBrace .closeBrace field).run
        (bodyTokens Field.lineTokens type.fields ++ rest)).map
          fun p => ({ type.reread with description, fields := p.1 }, p.2) := by
  have hkeyword : (type.directives.flatMap Directive.tokens ++
      (bodyTokens Field.lineTokens type.fields ++ rest)).head? ≠ some (.name "implements") := by
    cases type.directives with
    | nil => simp [bodyTokens]
    | cons directive directives => simp [Directive.tokens]
  have hinterfaces := run_interfaces type.interfaces
    (avoids_directives (by decide) type.directives (avoids_body (by decide))) hkeyword
  rw [objectType, run_bind_of_ok (run_name _ _), run_bind_of_ok hinterfaces,
    run_bind_of_ok (run_directives h.directives hlegible (avoids_body (by decide))), run_bind_pure]
  rfl

theorem run_unionType {type : UnionType} (h : type.WellFormed)
    (hlegible : Legible (type.directives.flatMap Directive.tokens))
    (hrest : Avoids definitionMarks rest) :
    (unionType description).run
        (.name type.name :: (type.directives.flatMap Directive.tokens ++
          (namesTokens [.punctuator .equals] .pipe type.members ++ rest))) =
      .ok ({ type.reread with description }, rest) := by
  have hdirectives : Avoids [.at, .openParen]
      (namesTokens [.punctuator .equals] .pipe type.members ++ rest) := by
    refine Avoids.append ?_ (hrest.subset (by decide))
    cases type.members with
    | nil => exact avoids_nil _
    | cons first others => exact avoids_cons _ (by decide)
  rw [unionType, run_bind_of_ok (run_name _ _),
    run_bind_of_ok (run_directives h.directives hlegible hdirectives)]
  cases hmembers : type.members with
  | nil =>
    rw [namesTokens, List.nil_append,
      run_bind_of_ok (run_nextIs_of_avoids (hrest.subset (by decide)))]
    simp only [UnionType.reread, hmembers]
    rfl
  | cons first others =>
    rw [namesTokens, List.append_assoc, List.singleton_append, List.cons_append,
      run_bind_of_ok (run_nextIs_self .equals _), if_pos rfl,
      run_bind_of_ok (run_discard_take rfl _),
      run_bind_of_ok (run_names first others (hrest.subset (by decide)))]
    simp only [UnionType.reread, hmembers]
    rfl

theorem run_enumType {type : EnumType} (h : type.WellFormed)
    (hlegible : Legible (type.directives.flatMap Directive.tokens)) :
    (enumType description).run
        (.name type.name :: (type.directives.flatMap Directive.tokens ++
          (bodyTokens EnumValue.lineTokens type.values ++ rest))) =
      ((enclosedIfAny .openBrace .closeBrace enumValue).run
        (bodyTokens EnumValue.lineTokens type.values ++ rest)).map
          fun p => ({ type.reread with description, values := p.1 }, p.2) := by
  rw [enumType, run_bind_of_ok (run_name _ _),
    run_bind_of_ok (run_directives h.directives hlegible (avoids_body (by decide))), run_bind_pure]
  rfl

theorem run_inputType {type : InputType} (h : type.WellFormed)
    (hlegible : Legible (type.directives.flatMap Directive.tokens)) :
    (inputType description).run
        (.name type.name :: (type.directives.flatMap Directive.tokens ++
          (bodyTokens InputField.lineTokens type.fields ++ rest))) =
      ((enclosedIfAny .openBrace .closeBrace inputField).run
        (bodyTokens InputField.lineTokens type.fields ++ rest)).map
          fun p => ({ type.reread with description, fields := p.1 }, p.2) := by
  rw [inputType, run_bind_of_ok (run_name _ _),
    run_bind_of_ok (run_directives h.directives hlegible (avoids_body (by decide))), run_bind_pure]
  rfl

end Reader

end AuditFields.Schema
