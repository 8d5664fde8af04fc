import AuditFields.Proofs.Schema.Printing.Values

/-!
# The tokens of printed definitions

The tokens of fields, of the definitions made of them and of whole schemas. The text of a well-formed
schema is read as its tokens (`spells_render`). Descriptions in front of lines and definitions are blocks
if they have more than one line, those in front of arguments never are.
-/

namespace AuditFields.Schema

/-! ## Fields -/

def defaultTokens : Option Value → List Token
  | none => []
  | some value => .punctuator .equals :: value.tokens

def InputField.tokens (field : InputField) : List Token :=
  .name field.name :: .punctuator .colon ::
    (field.type.tokens ++ (defaultTokens field.default ++ field.directives.flatMap Directive.tokens))

theorem InputField.prints {field : InputField} (h : field.WellFormed) :
    Prints field.render field.tokens := by
  intro cs ts hspells hends
  have hdirectives := prints_directives h.directives hspells hends
  have hends := ends_directives field.directives hends
  unfold InputField.render InputField.tokens
  have hdefault := h.default
  generalize field.default = default at hdefault
  cases default with
  | none =>
    simp only [defaultTokens, String.toList_append, String.reduceToList, List.append_assoc,
      List.cons_append, List.nil_append]
    have htype := TypeRef.prints h.type hdirectives hends
    exact ((htype.ignored ' ' rfl).punctuator ':' rfl).name (ends_cons rfl) h.name
  | some value =>
    simp only [defaultTokens, String.toList_append, String.reduceToList, List.append_assoc,
      List.cons_append, List.nil_append]
    have hvalue := Value.prints (hdefault value rfl) hdirectives hends
    have htype := TypeRef.prints h.type (((hvalue.ignored ' ' rfl).punctuator '=' rfl).ignored ' ' rfl)
      (ends_cons rfl)
    exact ((htype.ignored ' ' rfl).punctuator ':' rfl).name (ends_cons rfl) h.name

/-! ## Descriptions -/

/-- The token that the description of a definition or of a line is read as. -/
def descriptionToken (indent text : String) : Token :=
  if text.toList.contains '\n' then blockToken indent text else quotedToken text

def descriptionTokens (indent : String) (description : Option String) : List Token :=
  description.toList.map (descriptionToken indent)

theorem prints_description {indent : String} (hindent : ∀ c ∈ indent.toList, c = ' ')
    (description : Option String) :
    PrintsLines (renderDescription indent description) (descriptionTokens indent description) := by
  intro cs ts h
  have hblanks : ∀ c ∈ indent.toList, Token.isIgnored c = true := by
    intro c hc
    rw [hindent c hc]
    decide
  cases description with
  | none => exact h
  | some text =>
    unfold renderDescription descriptionTokens
    simp only [Option.toList_some, List.map_cons, List.map_nil, descriptionToken]
    split
    · rw [Text.Block.toList_write]
      simp only [List.append_assoc, List.cons_append]
      exact ((h.ignored '\n' rfl).block hindent text).ignoredAll hblanks
    · simp only [String.toList_append, List.append_assoc]
      exact ((h.ignored '\n' rfl).quoted (ends_cons rfl) text).ignoredAll hblanks

/-! ## Arguments and fields -/

/-- The tokens of an argument definition. Its description is a literal whatever it is. -/
def InputField.inlineTokens (field : InputField) : List Token :=
  field.description.toList.map quotedToken ++ field.tokens

theorem InputField.printsInline {field : InputField} (h : field.WellFormed) :
    Prints field.renderInline field.inlineTokens := by
  intro cs ts hspells hends
  have hfield := InputField.prints h hspells hends
  unfold InputField.renderInline InputField.inlineTokens
  cases field.description with
  | none => exact hfield
  | some text =>
    simp only [String.toList_append, String.reduceToList, List.append_assoc, List.cons_append,
      List.nil_append]
    exact (hfield.ignored ' ' rfl).quoted (ends_cons rfl) text

def argumentDefinitionTokens : List InputField → List Token
  | [] => []
  | arguments =>
    .punctuator .openParen :: (arguments.flatMap InputField.inlineTokens ++ [Token.punctuator .closeParen])

theorem prints_arguments {arguments : List InputField} (h : ∀ argument ∈ arguments, argument.WellFormed) :
    Prints (renderArguments arguments) (argumentDefinitionTokens arguments) := by
  intro cs ts hspells hends
  cases arguments with
  | nil => exact hspells
  | cons first rest =>
    have harguments := prints_commas (fun argument hmem => InputField.printsInline (h argument hmem))
      (hspells.punctuator ')' rfl) (ends_cons rfl)
    simp only [renderArguments, argumentDefinitionTokens, String.toList_append, String.reduceToList,
      List.append_assoc, List.cons_append, List.nil_append]
    exact harguments.punctuator '(' rfl

theorem ends_arguments (arguments : List InputField) {cs : List Char} (h : Ends cs) :
    Ends ((renderArguments arguments).toList ++ cs) := by
  cases arguments with
  | nil => exact h
  | cons first rest =>
    simp only [renderArguments, String.toList_append, List.append_assoc]
    exact ends_cons (c := '(') rfl

def Field.tokens (field : Field) : List Token :=
  .name field.name :: (argumentDefinitionTokens field.arguments ++
    Token.punctuator .colon :: (field.type.tokens ++ field.directives.flatMap Directive.tokens))

theorem Field.prints {field : Field} (h : field.WellFormed) : Prints field.render field.tokens := by
  intro cs ts hspells hends
  have hdirectives := prints_directives h.directives hspells hends
  have htype := TypeRef.prints h.type hdirectives (ends_directives field.directives hends)
  have harguments := prints_arguments h.arguments ((htype.ignored ' ' rfl).punctuator ':' rfl) (ends_cons rfl)
  have hname := harguments.name (ends_arguments field.arguments (ends_cons rfl)) h.name
  simp only [Field.render, Field.tokens, String.toList_append, String.reduceToList, List.append_assoc,
    List.cons_append, List.nil_append]
  exact hname

theorem spaces_empty : ∀ c ∈ "".toList, c = ' ' :=
  fun _ hmem => absurd hmem List.not_mem_nil

theorem spaces_indent : ∀ c ∈ indent.toList, c = ' ' :=
  List.forall_mem_cons.mpr ⟨rfl, List.forall_mem_singleton.mpr rfl⟩

/-- The tokens of a part of a definition on a line of its own, with those of its description. -/
def lineTokens (description : Option String) (tokens : List Token) : List Token :=
  descriptionTokens indent description ++ tokens

theorem prints_line {text : String} {tokens : List Token} (h : Prints text tokens)
    (description : Option String) :
    PrintsLines (renderLine description text) (lineTokens description tokens) := by
  intro cs ts hspells
  have htext := h (hspells.ignored '\n' rfl) (ends_cons rfl)
  simp only [renderLine, lineTokens, String.toList_append, List.append_assoc]
  exact prints_description spaces_indent description ((htext.ignored ' ' rfl).ignored ' ' rfl)

/-- The tokens of parts between braces. -/
def bodyTokens {α : Type} (tokens : α → List Token) (items : List α) : List Token :=
  .punctuator .openBrace :: (items.flatMap tokens ++ [Token.punctuator .closeBrace])

theorem prints_body {α : Type} {text : α → String} {tokens : α → List Token} {items : List α}
    (h : ∀ item ∈ items, PrintsLines (text item) (tokens item)) :
    PrintsLines (renderBody (items.map text)) (bodyTokens tokens items) := by
  intro cs ts hspells
  have hlines : Spells (items.flatMap (fun item => (text item).toList) ++ '}' :: '\n' :: cs)
      (items.flatMap tokens ++ Token.punctuator .closeBrace :: ts) := by
    induction items with
    | nil => exact (hspells.ignored '\n' rfl).punctuator '}' rfl
    | cons item items ih =>
      obtain ⟨hitem, hrest⟩ := List.forall_mem_cons.mp h
      rw [List.flatMap_cons, List.flatMap_cons, List.append_assoc, List.append_assoc]
      exact hitem (ih hrest)
  simp only [renderBody, bodyTokens, String.toList_append, String.toList_join, List.flatMap_map,
    List.append_assoc, List.cons_append]
  exact ((hlines.ignored '\n' rfl).punctuator '{' rfl).ignored ' ' rfl

theorem ends_body (lines : List String) (cs : List Char) : Ends ((renderBody lines).toList ++ cs) := by
  simp only [renderBody, String.toList_append, List.append_assoc]
  exact ends_cons (c := ' ') rfl

/-! ## Type definitions -/

def Field.lineTokens (field : Field) : List Token :=
  Schema.lineTokens field.description field.tokens

def InputField.lineTokens (field : InputField) : List Token :=
  Schema.lineTokens field.description field.tokens

def EnumValue.lineTokens (value : EnumValue) : List Token :=
  Schema.lineTokens value.description (.name value.name :: value.directives.flatMap Directive.tokens)

/-- The tokens of names with a punctuator between each two, behind others. -/
def namesTokens (before : List Token) (mark : Punctuator) : List String → List Token
  | [] => []
  | first :: rest => before ++ Token.name first :: rest.flatMap fun name => [.punctuator mark, .name name]

def ScalarType.tokens (type : ScalarType) : List Token :=
  descriptionTokens "" type.description ++
    Token.name "scalar" :: .name type.name :: type.directives.flatMap Directive.tokens

def ObjectType.tokens (keyword : String) (type : ObjectType) : List Token :=
  descriptionTokens "" type.description ++ Token.name keyword :: .name type.name ::
    (namesTokens [.name "implements"] .ampersand type.interfaces ++
      (type.directives.flatMap Directive.tokens ++ bodyTokens Field.lineTokens type.fields))

def UnionType.tokens (type : UnionType) : List Token :=
  descriptionTokens "" type.description ++ Token.name "union" :: .name type.name ::
    (type.directives.flatMap Directive.tokens ++
      namesTokens [.punctuator .equals] .pipe type.members)

def EnumType.tokens (type : EnumType) : List Token :=
  descriptionTokens "" type.description ++ Token.name "enum" :: .name type.name ::
    (type.directives.flatMap Directive.tokens ++ bodyTokens EnumValue.lineTokens type.values)

def InputType.tokens (type : InputType) : List Token :=
  descriptionTokens "" type.description ++ Token.name "input" :: .name type.name ::
    (type.directives.flatMap Directive.tokens ++ bodyTokens InputField.lineTokens type.fields)

def TypeDefinition.tokens : TypeDefinition → List Token
  | .scalar type => type.tokens
  | .object type => type.tokens "type"
  | .interface type => type.tokens "interface"
  | .union type => type.tokens
  | .enum type => type.tokens
  | .input type => type.tokens

theorem EnumValue.printsLine {value : EnumValue} (h : value.WellFormed) :
    PrintsLines (renderLine value.description (value.name ++ renderDirectives value.directives))
      value.lineTokens := by
  refine prints_line ?_ value.description
  intro cs ts hspells hends
  have hdirectives := prints_directives h.directives hspells hends
  simp only [String.toList_append, List.append_assoc]
  exact hdirectives.name (ends_directives value.directives hends) h.name

theorem prints_keyword {text keyword : String} (h : IsName keyword) (htext : text = keyword ++ " ") :
    PrintsLines text [.name keyword] := by
  intro cs ts hspells
  rw [htext, String.toList_append, List.append_assoc]
  exact prints_name h (hspells.ignored ' ' rfl) (ends_cons rfl)

theorem prints_between {text keyword : String} (h : IsName keyword) (htext : text = " " ++ (keyword ++ " ")) :
    PrintsLines text [.name keyword] := by
  intro cs ts hspells
  rw [htext, String.toList_append, List.append_assoc]
  exact (prints_keyword h rfl hspells).ignored ' ' rfl

theorem spells_head (description : Option String) {text keyword name : String}
    (hkeyword : PrintsLines text [.name keyword]) (hname : IsName name) {cs : List Char}
    {ts : List Token} (hspells : Spells cs ts) (hends : Ends cs) :
    Spells ((renderDescription "" description).toList ++ (text.toList ++ (name.toList ++ cs)))
      (descriptionTokens "" description ++ Token.name keyword :: .name name :: ts) :=
  prints_description spaces_empty description (hkeyword (hspells.name hends hname))

theorem ScalarType.prints {type : ScalarType} (h : type.WellFormed) :
    PrintsLines type.render type.tokens := by
  intro cs ts hspells
  have hkeyword : PrintsLines "scalar " [.name "scalar"] := prints_keyword (by decide) rfl
  have hdirectives := prints_directives h.directives (hspells.ignored '\n' rfl) (ends_cons rfl)
  have hends := ends_directives type.directives (ends_cons rfl : Ends ('\n' :: cs))
  simp only [ScalarType.render, ScalarType.tokens, String.toList_append, List.append_assoc]
  exact spells_head type.description hkeyword h.name hdirectives hends

/-- The text of names with a separator between each two, behind another text. -/
def namesText (before separator : String) : List String → String
  | [] => ""
  | names => before ++ Text.joinWith separator names

section Names

variable {before separator : String} {beforeTokens : List Token} {c : Char} {mark : Punctuator}

theorem prints_names (hbefore : PrintsLines before beforeTokens)
    (hseparator : separator.toList = [' ', c, ' ']) (hmark : Token.punctuator? c = some mark)
    {names : List String} (h : ∀ name ∈ names, IsName name) :
    Prints (namesText before separator names) (namesTokens beforeTokens mark names) := by
  intro cs ts hspells hends
  cases names with
  | nil => exact hspells
  | cons first rest =>
    have hnames := prints_marks hseparator hmark
      (fun name hmem => (prints_name (h name hmem) : Prints (id name) [.name name])) hspells hends
    rw [List.map_id] at hnames
    simp only [namesText, namesTokens, String.toList_append, List.append_assoc]
    exact hbefore hnames

theorem ends_names (names : List String) {cs : List Char} (h : Ends cs)
    (hbefore : before.toList.head? = some ' ') :
    Ends ((namesText before separator names).toList ++ cs) := by
  cases names with
  | nil => exact h
  | cons first rest =>
    obtain ⟨others, hothers⟩ := List.head?_eq_some_iff.mp hbefore
    simp only [namesText, String.toList_append, List.append_assoc, hothers, List.cons_append]
    exact ends_cons rfl

end Names

theorem ObjectType.prints {keyword : String} (hkeyword : IsName keyword) {type : ObjectType}
    (h : type.WellFormed) : PrintsLines (type.render keyword) (type.tokens keyword) := by
  intro cs ts hspells
  have hbody := prints_body
    (fun field hmem => prints_line (Field.prints (h.fields field hmem)) field.description) hspells
  have hends := ends_directives type.directives (ends_body
    (type.fields.map fun field => renderLine field.description field.render) cs)
  have hdirectives := prints_directives h.directives hbody (ends_body _ _)
  have himplements : PrintsLines " implements " [.name "implements"] :=
    prints_between (by decide) rfl
  have hinterfaces := prints_names himplements (by rfl : " & ".toList = [' ', '&', ' ']) rfl
    h.interfaces hdirectives hends
  have hhead := spells_head type.description (prints_keyword hkeyword rfl) h.name hinterfaces
    (ends_names type.interfaces hends (by simp))
  simp only [ObjectType.render, ObjectType.tokens, String.toList_append, List.append_assoc,
    List.cons_append] at hhead ⊢
  exact hhead

theorem UnionType.prints {type : UnionType} (h : type.WellFormed) :
    PrintsLines type.render type.tokens := by
  intro cs ts hspells
  have hkeyword : PrintsLines "union " [.name "union"] := prints_keyword (by decide) rfl
  have hequals : PrintsLines " = " [.punctuator .equals] := fun _ _ h =>
    ((h.ignored ' ' rfl).punctuator '=' rfl).ignored ' ' rfl
  have hmembers := prints_names hequals (by rfl : " | ".toList = [' ', '|', ' ']) rfl h.members
    (hspells.ignored '\n' rfl) (ends_cons rfl)
  have hends : Ends ((namesText " = " " | " type.members).toList ++ '\n' :: cs) :=
    ends_names type.members (ends_cons rfl) (by simp)
  have hdirectives := prints_directives h.directives hmembers hends
  simp only [UnionType.render, UnionType.tokens, String.toList_append, List.append_assoc,
    List.cons_append]
  exact spells_head type.description hkeyword h.name hdirectives
    (ends_directives type.directives hends)

theorem EnumType.prints {type : EnumType} (h : type.WellFormed) :
    PrintsLines type.render type.tokens := by
  intro cs ts hspells
  have hkeyword : PrintsLines "enum " [.name "enum"] := prints_keyword (by decide) rfl
  have hbody := prints_body (fun value hmem => EnumValue.printsLine (h.values value hmem)) hspells
  have hdirectives := prints_directives h.directives hbody (ends_body _ _)
  simp only [EnumType.render, EnumType.tokens, String.toList_append, List.append_assoc,
    List.cons_append]
  exact spells_head type.description hkeyword h.name hdirectives
    (ends_directives type.directives (ends_body _ _))

theorem InputType.prints {type : InputType} (h : type.WellFormed) :
    PrintsLines type.render type.tokens := by
  intro cs ts hspells
  have hkeyword : PrintsLines "input " [.name "input"] := prints_keyword (by decide) rfl
  have hbody := prints_body
    (fun field hmem => prints_line (InputField.prints (h.fields field hmem)) field.description) hspells
  have hdirectives := prints_directives h.directives hbody (ends_body _ _)
  simp only [InputType.render, InputType.tokens, String.toList_append, List.append_assoc,
    List.cons_append]
  exact spells_head type.description hkeyword h.name hdirectives
    (ends_directives type.directives (ends_body _ _))

theorem TypeDefinition.prints {type : TypeDefinition} (h : type.WellFormed) :
    PrintsLines type.render type.tokens := by
  cases type with
  | scalar type => exact ScalarType.prints h
  | object type => exact ObjectType.prints (by decide) h
  | interface type => exact ObjectType.prints (by decide) h
  | union type => exact UnionType.prints h
  | enum type => exact EnumType.prints h
  | input type => exact InputType.prints h

/-! ## Other definitions -/

/-- The root operations with their names, in the order in which they are written. -/
def Roots.operations (roots : Roots) : List (String × Option String) :=
  [("query", roots.query), ("mutation", roots.mutation), ("subscription", roots.subscription)]

def rootTokens (root : String × Option String) : List Token :=
  root.2.toList.flatMap fun type => [.name root.1, .punctuator .colon, .name type]

def Roots.tokens (roots : Roots) : List Token :=
  .name "schema" :: (roots.directives.flatMap Directive.tokens ++ bodyTokens rootTokens roots.operations)

def DirectiveDefinition.tokens (definition : DirectiveDefinition) : List Token :=
  .name "directive" :: .punctuator .at :: .name definition.name ::
    (argumentDefinitionTokens definition.arguments ++
      ((if definition.repeatable then [Token.name "repeatable"] else []) ++
        namesTokens [.name "on"] .pipe (definition.locations.map Location.render)))

theorem Roots.isName {roots : Roots} (h : roots.WellFormed) :
    ∀ root ∈ roots.operations, IsName root.1 ∧ ∀ type ∈ root.2, IsName type := by
  rintro root (_ | ⟨_, _ | ⟨_, _ | ⟨_, hmem⟩⟩⟩)
  · exact ⟨(by decide : IsName "query"), h.query⟩
  · exact ⟨(by decide : IsName "mutation"), h.mutation⟩
  · exact ⟨(by decide : IsName "subscription"), h.subscription⟩
  · cases hmem

theorem prints_root {root : String × Option String}
    (h : IsName root.1 ∧ ∀ type ∈ root.2, IsName type) :
    PrintsLines (renderRoot root.1 root.2) (rootTokens root) := by
  intro cs ts hspells
  obtain ⟨operation, type⟩ := root
  obtain ⟨hoperation, htype⟩ := h
  cases type with
  | none => exact hspells
  | some type =>
    have hname := prints_name (htype type rfl) (hspells.ignored '\n' rfl) (ends_cons rfl)
    have hline := prints_name hoperation ((hname.ignored ' ' rfl).punctuator ':' rfl) (ends_cons rfl)
    simp only [renderRoot, String.toList_append, List.append_assoc]
    exact (hline.ignored ' ' rfl).ignored ' ' rfl

theorem Roots.prints {roots : Roots} (h : roots.WellFormed) : PrintsLines roots.render roots.tokens := by
  intro cs ts hspells
  have hbody := prints_body (fun root hmem => prints_root (Roots.isName h root hmem)) hspells
  have hdirectives := prints_directives h.directives hbody (ends_body _ _)
  have hkeyword := prints_name (by decide : IsName "schema") hdirectives
    (ends_directives roots.directives (ends_body _ _))
  simp only [Roots.render, Roots.tokens, String.toList_append, List.append_assoc, List.cons_append]
  exact hkeyword

theorem Location.isName (locations : List Location) : ∀ name ∈ locations.map render, IsName name := by
  intro name hmem
  obtain ⟨location, _, rfl⟩ := List.mem_map.mp hmem
  cases location <;> decide

theorem prints_repeatable (repeatable : Bool) :
    Prints (if repeatable then " repeatable" else "")
      (if repeatable then [Token.name "repeatable"] else []) := by
  intro cs ts hspells hends
  split
  · have htext : " repeatable" = " " ++ "repeatable" := rfl
    rw [htext, String.toList_append, List.append_assoc]
    exact (prints_name (by decide) hspells hends).ignored ' ' rfl
  · exact hspells

theorem ends_repeatable (repeatable : Bool) {cs : List Char} (h : Ends cs) :
    Ends ((if repeatable then " repeatable" else "").toList ++ cs) := by
  split
  · exact ends_cons (c := ' ') rfl
  · exact h

theorem prints_directiveAt : PrintsLines "directive @" [.name "directive", .punctuator .at] := by
  intro cs ts hspells
  have htext : "directive @" = "directive" ++ " @" := rfl
  rw [htext, String.toList_append, List.append_assoc]
  exact prints_name (by decide) ((hspells.punctuator '@' rfl).ignored ' ' rfl) (ends_cons rfl)

/-- The locations of a directive are written without looking whether there are any. -/
theorem prints_locations {locations : List Location} (hne : locations ≠ []) :
    Prints (" on " ++ Text.joinWith " | " (locations.map Location.render))
      (namesTokens [.name "on"] .pipe (locations.map Location.render)) := by
  have hon : PrintsLines " on " [.name "on"] := prints_between (by decide) rfl
  have hnames := prints_names hon (by rfl : " | ".toList = [' ', '|', ' ']) rfl
    (Location.isName locations)
  cases locations with
  | nil => exact absurd rfl hne
  | cons first rest => exact hnames

theorem DirectiveDefinition.prints {definition : DirectiveDefinition} (h : definition.WellFormed) :
    PrintsLines definition.render definition.tokens := by
  intro cs ts hspells
  have hlocations := prints_locations h.locations (hspells.ignored '\n' rfl) (ends_cons rfl)
  rw [String.toList_append, List.append_assoc] at hlocations
  have hends : Ends (" on ".toList ++ ((Text.joinWith " | " (definition.locations.map Location.render)).toList ++
      '\n' :: cs)) := ends_cons (c := ' ') rfl
  have hrepeatable := prints_repeatable definition.repeatable hlocations hends
  have hends := ends_repeatable definition.repeatable hends
  have harguments := prints_arguments h.arguments hrepeatable hends
  have hname := harguments.name (ends_arguments definition.arguments hends) h.name
  unfold DirectiveDefinition.render DirectiveDefinition.tokens
  simp only [String.toList_append, List.append_assoc, List.cons_append]
  exact prints_directiveAt hname

/-! ## Schemas -/

namespace Definition

/-- The text of a definition. A schema holds what the extensions of its roots add in its roots. -/
def render : Definition → String
  | .roots definition => definition.render
  | .rootsExtension added => "extend " ++ added.render
  | .directive definition => definition.render
  | .type definition => definition.render
  | .extension definition => renderExtension definition

def tokens : Definition → List Token
  | .roots definition => definition.tokens
  | .rootsExtension added => .name "extend" :: added.tokens
  | .directive definition => definition.tokens
  | .type definition => definition.tokens
  | .extension definition => .name "extend" :: definition.tokens

theorem prints {definition : Definition} (h : definition.WellFormed) :
    PrintsLines definition.render definition.tokens := by
  have hextend : ∀ {text : String} {tokens : List Token}, PrintsLines text tokens →
      PrintsLines ("extend " ++ text) (.name "extend" :: tokens) := by
    intro text tokens h cs ts hspells
    have hextend : PrintsLines "extend " [.name "extend"] := prints_keyword (by decide) rfl
    rw [String.toList_append, List.append_assoc]
    exact hextend (h hspells)
  cases definition with
  | roots definition => exact Roots.prints h
  | rootsExtension added => exact hextend (Roots.prints h)
  | directive definition => exact DirectiveDefinition.prints h
  | type definition => exact TypeDefinition.prints h
  | extension definition => exact hextend (TypeDefinition.prints h)

end Definition

end AuditFields.Schema

namespace AuditFields.Schema

def tokens (schema : Schema) : List Token :=
  schema.definitions.flatMap Definition.tokens

theorem render_eq (schema : Schema) :
    schema.render = Text.joinWith "\n" (schema.definitions.map Definition.render) := by
  simp only [render, definitions, List.map_append, List.map_map]
  rfl

theorem spells_definitions {ds : List Definition} (h : ∀ d ∈ ds, d.WellFormed) :
    Spells (Text.joinWith "\n" (ds.map Definition.render)).toList (ds.flatMap Definition.tokens) := by
  have hitems : ∀ d ∈ ds, Prints d.render d.tokens := fun d hmem => (Definition.prints (h d hmem)).prints
  cases ds with
  | nil => exact Spells.nil
  | cons first rest =>
    have hfeed : PrintsLines "\n" [] := fun _ _ h => h.ignored '\n' rfl
    have hjoined := prints_joinWith hfeed (fun _ => ends_cons (c := '\n') rfl) hitems Spells.nil ends_nil
    simpa only [List.nil_append, List.append_nil, List.flatMap_cons] using hjoined

/-- The text of a well-formed schema is read as its tokens. -/
theorem spells_render {schema : Schema} (h : schema.WellFormed) :
    Spells schema.render.toList schema.tokens := by
  rw [render_eq, tokens]
  exact spells_definitions h

end AuditFields.Schema
