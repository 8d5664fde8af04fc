import AuditFields.Proofs.Schema.RoundTrip
import AuditFields.Proofs.Text.Kept

/-!
# Plain schemas

A number that is no integer is not read back as it is written if it is too large or too long, a text with
a character beyond U+FFFF cannot be quoted, and a description of several lines loses blanks and line ends
at its sides. A schema without such values and descriptions is read back part by part, so that whatever is
read from a text and is plain and shaped is read back from its own text.
-/

namespace AuditFields.Schema

/-! ## Values and descriptions -/

/-- No character of the text is beyond U+FFFF. -/
def Quotable (text : String) : Prop :=
  ∀ c ∈ text.toList, isQuotable c = true

instance (text : String) : Decidable (Quotable text) :=
  decidable_of_iff (text.toList.all isQuotable = true) List.all_eq_true

mutual

/-- The value holds no number but integers, and no text that cannot be quoted. -/
def Value.Plain : Value → Prop
  | .float _ => False
  | .string text => Quotable text
  | .list items => Value.ItemsPlain items
  | .object members => Value.MembersPlain members
  | _ => True

def Value.ItemsPlain : List Value → Prop
  | [] => True
  | item :: items => item.Plain ∧ Value.ItemsPlain items

def Value.MembersPlain : List (String × Value) → Prop
  | [] => True
  | member :: members => member.2.Plain ∧ Value.MembersPlain members

end

/-- A description that can be quoted, and whose lines a block keeps if it has more than one. -/
structure PlainDescription (text : String) : Prop where
  quotable : Quotable text
  tidy : '\n' ∈ text.toList → Text.Block.Tidy text.toList

def Directive.Plain (directive : Directive) : Prop :=
  Value.MembersPlain directive.arguments

structure InputField.Plain (field : InputField) : Prop where
  description : ∀ text ∈ field.description, PlainDescription text
  default : ∀ value ∈ field.default, value.Plain
  directives : ∀ directive ∈ field.directives, directive.Plain

structure Field.Plain (field : Field) : Prop where
  description : ∀ text ∈ field.description, PlainDescription text
  arguments : ∀ argument ∈ field.arguments, argument.Plain
  directives : ∀ directive ∈ field.directives, directive.Plain

structure EnumValue.Plain (value : EnumValue) : Prop where
  description : ∀ text ∈ value.description, PlainDescription text
  directives : ∀ directive ∈ value.directives, directive.Plain

/-- The parts of a type are plain. -/
def TypeDefinition.PlainBody : TypeDefinition → Prop
  | .scalar _ => True
  | .object type => ∀ field ∈ type.fields, field.Plain
  | .interface type => ∀ field ∈ type.fields, field.Plain
  | .union _ => True
  | .enum type => ∀ value ∈ type.values, value.Plain
  | .input type => ∀ field ∈ type.fields, field.Plain

structure TypeDefinition.Plain (type : TypeDefinition) : Prop where
  description : ∀ text ∈ type.description, PlainDescription text
  directives : ∀ directive ∈ type.directives, directive.Plain
  body : type.PlainBody

def Definition.Plain : Definition → Prop
  | .roots definition => ∀ directive ∈ definition.directives, directive.Plain
  | .rootsExtension added => ∀ directive ∈ added.directives, directive.Plain
  | .directive definition => ∀ argument ∈ definition.arguments, argument.Plain
  | .type definition => definition.Plain
  | .extension definition => definition.Plain

/-! ## Descriptions that are read again -/

/-- The description can be read in the form that it is written in: a block always can. -/
def Writable (text : String) : Prop :=
  '\n' ∉ text.toList → Quotable text

/-- The description is read again as it is. -/
structure Survives (text : String) : Prop where
  writable : Writable text
  kept : '\n' ∈ text.toList → Text.Block.Kept text.toList

theorem rereadText_eq {indent : String} (hindent : ∀ c ∈ indent.toList, c = ' ') (text : String) :
    rereadText indent text = rereadText "" text := by
  unfold rereadText
  rw [Text.Block.content_body_eq hindent, Text.Block.content_body_eq spaces_empty]

theorem rereadText_eq_self_iff {text : String} :
    rereadText "" text = text ↔ ('\n' ∈ text.toList → Text.Block.Kept text.toList) := by
  unfold rereadText
  split
  · next hlines =>
    have hfeed := List.contains_iff_mem.mp hlines
    have hkept := Text.Block.content_body_eq_self_iff spaces_empty hfeed
    constructor
    · intro heq _
      exact hkept.mp (by rw [← String.toList_ofList (l := Text.Block.content _), heq])
    · intro h
      rw [hkept.mpr (h hfeed), String.ofList_toList]
  · next hline =>
    exact ⟨fun _ hfeed => absurd (List.contains_iff_mem.mpr hfeed) hline, fun _ => rfl⟩

theorem PlainDescription.survives {text : String} (h : PlainDescription text) : Survives text :=
  ⟨fun _ => h.quotable, fun hfeed => (h.tidy hfeed).kept⟩

/-! ## Parts with a name and a type only -/

theorem InputField.plain_plain (name : String) (type : TypeRef) : (InputField.plain name type).Plain :=
  ⟨(fun _ h => nomatch h), (fun _ h => nomatch h), fun _ h => absurd h List.not_mem_nil⟩

theorem InputField.wellFormed_plain {name : String} {type : TypeRef} (hname : IsName name)
    (htype : type.WellFormed) : (InputField.plain name type).WellFormed :=
  ⟨hname, htype, (fun _ h => nomatch h), fun _ h => absurd h List.not_mem_nil⟩

theorem Field.plain_plain {arguments : List InputField} (h : ∀ argument ∈ arguments, argument.Plain)
    (name : String) (type : TypeRef) : (Field.plain name arguments type).Plain :=
  ⟨(fun _ h => nomatch h), h, fun _ h => absurd h List.not_mem_nil⟩

theorem Field.wellFormed_plain {name : String} {arguments : List InputField} {type : TypeRef}
    (hname : IsName name) (harguments : ∀ argument ∈ arguments, argument.WellFormed)
    (htype : type.WellFormed) : (Field.plain name arguments type).WellFormed :=
  ⟨hname, harguments, htype, fun _ h => absurd h List.not_mem_nil⟩

theorem ObjectType.plain_plain {fields : List Field} (h : ∀ field ∈ fields, field.Plain) (name : String) :
    (TypeDefinition.object (.plain name fields)).Plain :=
  ⟨(fun _ h => nomatch h), (fun _ h => absurd h List.not_mem_nil), h⟩

theorem ObjectType.wellFormed_plain {name : String} {fields : List Field} (hname : IsName name)
    (hfields : ∀ field ∈ fields, field.WellFormed) : (ObjectType.plain name fields).WellFormed :=
  ⟨hname, (fun _ h => absurd h List.not_mem_nil), (fun _ h => absurd h List.not_mem_nil), hfields⟩

/-! ## What is plain is readable -/

theorem legible_nil : Legible [] :=
  fun _ hmem => absurd hmem List.not_mem_nil

theorem Legible.cons {token : Token} {tokens : List Token} (h : Legible tokens)
    (htoken : token.isReadable = true) : Legible (token :: tokens) :=
  List.forall_mem_cons.mpr ⟨htoken, h⟩

theorem Legible.name {name : String} {tokens : List Token} (h : Legible tokens) :
    Legible (.name name :: tokens) :=
  h.cons rfl

theorem Legible.mark {mark : Punctuator} {tokens : List Token} (h : Legible tokens) :
    Legible (.punctuator mark :: tokens) :=
  h.cons rfl

theorem Legible.append {xs ys : List Token} (hxs : Legible xs) (hys : Legible ys) : Legible (xs ++ ys) :=
  List.forall_mem_append.mpr ⟨hxs, hys⟩

theorem legible_flatMap {α : Type} {tokens : α → List Token} {items : List α}
    (h : ∀ item ∈ items, Legible (tokens item)) : Legible (items.flatMap tokens) := by
  intro token hmem
  obtain ⟨item, hitem, htoken⟩ := List.mem_flatMap.mp hmem
  exact h item hitem token htoken

theorem Quotable.isReadable {text : String} (h : Quotable text) :
    (quotedToken text).isReadable = true := by
  rw [quotedToken_of_quotable (List.all_eq_true.mpr h)]
  rfl

mutual

theorem Value.legible_tokens : ∀ {value : Value}, value.Plain → Legible value.tokens
  | .null, _ => legible_nil.name
  | .int _, _ => legible_nil.cons rfl
  | .string _, h => legible_nil.cons h.isReadable
  | .boolean true, _ => legible_nil.name
  | .boolean false, _ => legible_nil.name
  | .enum _, _ => legible_nil.name
  | .list _, h => ((Value.legible_itemsTokens h).append legible_nil.mark).mark
  | .object _, h => ((Value.legible_membersTokens h).append legible_nil.mark).mark

theorem Value.legible_itemsTokens : ∀ {items : List Value}, Value.ItemsPlain items →
    Legible (Value.itemsTokens items)
  | [], _ => legible_nil
  | _ :: _, h => (Value.legible_tokens h.1).append (Value.legible_itemsTokens h.2)

theorem Value.legible_membersTokens : ∀ {members : List (String × Value)}, Value.MembersPlain members →
    Legible (Value.membersTokens members)
  | [], _ => legible_nil
  | (_, _) :: _, h => ((Value.legible_tokens h.1).append (Value.legible_membersTokens h.2)).mark.name

end

theorem legible_argumentTokens {members : List (String × Value)} (h : Value.MembersPlain members) :
    Legible (argumentTokens members) := by
  cases members with
  | nil => exact legible_nil
  | cons first others => exact ((Value.legible_membersTokens h).append legible_nil.mark).mark

theorem Directive.Plain.legible {directive : Directive} (h : directive.Plain) : Legible directive.tokens :=
  (legible_argumentTokens h).name.mark

theorem legible_directives {ds : List Directive} (h : ∀ d ∈ ds, d.Plain) :
    Legible (ds.flatMap Directive.tokens) :=
  legible_flatMap fun d hmem => Directive.Plain.legible (h d hmem)

theorem isReadable_descriptionToken_iff {indent text : String} :
    (descriptionToken indent text).isReadable = true ↔ Writable text := by
  unfold descriptionToken
  split
  · next hlines => exact ⟨fun _ hline => absurd (List.contains_iff_mem.mp hlines) hline, fun _ => rfl⟩
  · next hline =>
    constructor
    · intro h _
      have hall : text.toList.all isQuotable = true := by
        refine Classical.byContradiction fun hnot => ?_
        rw [quotedToken, if_neg hnot] at h
        cases h
      exact List.all_eq_true.mp hall
    · exact fun h => (h (mt List.contains_iff_mem.mpr hline)).isReadable

theorem legible_descriptionTokens_iff {indent : String} {description : Option String} :
    Legible (descriptionTokens indent description) ↔ ∀ text ∈ description, Writable text := by
  cases description with
  | none => exact iff_of_true legible_nil (fun _ h => nomatch h)
  | some text =>
    rw [descriptionTokens, Option.toList_some, List.map_singleton, Legible, List.forall_mem_singleton,
      isReadable_descriptionToken_iff]
    simp

theorem legible_descriptionTokens {description : Option String}
    (h : ∀ text ∈ description, PlainDescription text) (indent : String) :
    Legible (descriptionTokens indent description) :=
  legible_descriptionTokens_iff.mpr fun text hmem => (h text hmem).survives.writable

theorem TypeRef.legible_tokens (type : TypeRef) : Legible type.tokens := by
  induction type with
  | named name => exact legible_nil.name
  | list item ih => exact (ih.append legible_nil.mark).mark
  | nonNull nullable ih => exact ih.append legible_nil.mark

theorem InputField.Plain.legible {field : InputField} (h : field.Plain) : Legible field.tokens := by
  have hdefault : Legible (defaultTokens field.default) := by
    cases hfound : field.default with
    | none => exact legible_nil
    | some value => exact (Value.legible_tokens (h.default value hfound)).mark
  exact (field.type.legible_tokens.append (hdefault.append (legible_directives h.directives))).mark.name

theorem InputField.Plain.legible_inlineTokens {field : InputField} (h : field.Plain) :
    Legible field.inlineTokens := by
  refine Legible.append ?_ h.legible
  cases hfound : field.description with
  | none => exact legible_nil
  | some text => exact legible_nil.cons (h.description text hfound).quotable.isReadable

theorem InputField.Plain.legible_lineTokens {field : InputField} (h : field.Plain) :
    Legible field.lineTokens :=
  (legible_descriptionTokens h.description indent).append h.legible

theorem legible_argumentDefinitionTokens {fields : List InputField} (h : ∀ field ∈ fields, field.Plain) :
    Legible (argumentDefinitionTokens fields) := by
  cases fields with
  | nil => exact legible_nil
  | cons first others =>
    have hfields := legible_flatMap fun field hmem => (h field hmem).legible_inlineTokens
    exact (hfields.append legible_nil.mark).mark

theorem Field.Plain.legible_lineTokens {field : Field} (h : field.Plain) : Legible field.lineTokens := by
  have htype := field.type.legible_tokens.append (legible_directives h.directives)
  have harguments := legible_argumentDefinitionTokens h.arguments
  exact (legible_descriptionTokens h.description indent).append (harguments.append htype.mark).name

theorem EnumValue.Plain.legible_lineTokens {value : EnumValue} (h : value.Plain) :
    Legible value.lineTokens :=
  (legible_descriptionTokens h.description indent).append (legible_directives h.directives).name

theorem legible_namesTokens {before : List Token} (h : Legible before) (mark : Punctuator)
    (names : List String) : Legible (namesTokens before mark names) := by
  cases names with
  | nil => exact legible_nil
  | cons first others =>
    exact h.append (legible_flatMap fun _ _ => legible_nil.name.mark).name

theorem legible_bodyTokens {α : Type} {tokens : α → List Token} {items : List α}
    (h : ∀ item ∈ items, Legible (tokens item)) : Legible (bodyTokens tokens items) :=
  ((legible_flatMap h).append legible_nil.mark).mark

theorem TypeDefinition.Plain.legible {type : TypeDefinition} (h : type.Plain) : Legible type.tokens := by
  have hdirectives := legible_directives h.directives
  rw [TypeDefinition.tokens_eq]
  refine (legible_descriptionTokens h.description "").append (Legible.name ?_)
  cases type with
  | scalar type => exact hdirectives.name
  | object type =>
    have hbody := legible_bodyTokens fun field hmem => (h.body field hmem).legible_lineTokens
    exact ((legible_namesTokens legible_nil.name _ _).append (hdirectives.append hbody)).name
  | interface type =>
    have hbody := legible_bodyTokens fun field hmem => (h.body field hmem).legible_lineTokens
    exact ((legible_namesTokens legible_nil.name _ _).append (hdirectives.append hbody)).name
  | union type => exact (hdirectives.append (legible_namesTokens legible_nil.mark _ _)).name
  | enum type =>
    have hbody := legible_bodyTokens fun value hmem => (h.body value hmem).legible_lineTokens
    exact (hdirectives.append hbody).name
  | input type =>
    have hbody := legible_bodyTokens fun field hmem => (h.body field hmem).legible_lineTokens
    exact (hdirectives.append hbody).name

theorem Roots.legible_tokens {definition : Roots}
    (h : Legible (definition.directives.flatMap Directive.tokens)) : Legible definition.tokens := by
  have hroots : ∀ root : String × Option String, Legible (rootTokens root) := fun root =>
    legible_flatMap fun _ _ => legible_nil.name.mark.name
  exact (h.append (legible_bodyTokens fun root _ => hroots root)).name

theorem DirectiveDefinition.legible_tokens {definition : DirectiveDefinition}
    (h : ∀ argument ∈ definition.arguments, argument.Plain) : Legible definition.tokens := by
  have hrepeatable : Legible (if definition.repeatable then [Token.name "repeatable"] else []) := by
    split
    · exact legible_nil.name
    · exact legible_nil
  exact ((legible_argumentDefinitionTokens h).append
    (hrepeatable.append (legible_namesTokens legible_nil.name _ _))).name.mark.name

theorem Definition.Plain.legible {definition : Definition} (h : definition.Plain) :
    Legible definition.tokens := by
  cases definition with
  | roots definition => exact Roots.legible_tokens (legible_directives h)
  | rootsExtension added => exact (Roots.legible_tokens (legible_directives h)).name
  | directive definition => exact DirectiveDefinition.legible_tokens h
  | type definition => exact TypeDefinition.Plain.legible h
  | extension definition => exact (TypeDefinition.Plain.legible h).name

/-! ## What is plain is read back as itself -/

mutual

theorem Value.reread_of_plain : ∀ {value : Value}, value.Plain → value.reread = value
  | .null, _ => rfl
  | .int _, _ => rfl
  | .string _, _ => rfl
  | .boolean _, _ => rfl
  | .enum _, _ => rfl
  | .list _, h => congrArg Value.list (Value.rereadItems_of_plain h)
  | .object _, h => congrArg Value.object (Value.rereadMembers_of_plain h)

theorem Value.rereadItems_of_plain : ∀ {items : List Value}, Value.ItemsPlain items →
    Value.rereadItems items = items
  | [], _ => rfl
  | _ :: _, h => by
    rw [Value.rereadItems, Value.reread_of_plain h.1, Value.rereadItems_of_plain h.2]

theorem Value.rereadMembers_of_plain : ∀ {members : List (String × Value)},
    Value.MembersPlain members → Value.rereadMembers members = members
  | [], _ => rfl
  | (_, _) :: _, h => by
    rw [Value.rereadMembers, Value.reread_of_plain h.1, Value.rereadMembers_of_plain h.2]

end

theorem map_eq_self {α : Type} {f : α → α} {xs : List α} (h : ∀ x ∈ xs, f x = x) : xs.map f = xs :=
  (List.map_inj_left.mpr h).trans (List.map_id xs)

theorem Option.map_eq_self {α : Type} {f : α → α} {x : Option α} (h : ∀ y ∈ x, f y = y) :
    x.map f = x := by
  cases x with
  | none => rfl
  | some y => exact congrArg some (h y rfl)

theorem reread_directives {ds : List Directive} (h : ∀ d ∈ ds, d.Plain) :
    ds.map Directive.reread = ds :=
  map_eq_self fun d hmem => congrArg (Directive.mk d.name) (Value.rereadMembers_of_plain (h d hmem))

theorem reread_description {description : Option String}
    (h : ∀ text ∈ description, PlainDescription text) {indent : String}
    (hindent : ∀ c ∈ indent.toList, c = ' ') : description.map (rereadText indent) = description :=
  Option.map_eq_self fun text hmem =>
    (rereadText_eq hindent text).trans (rereadText_eq_self_iff.mpr (h text hmem).survives.kept)

theorem InputField.Plain.reread_eq {field : InputField} (h : field.Plain) : field.reread = field := by
  have hdefault := Option.map_eq_self fun value hmem => Value.reread_of_plain (h.default value hmem)
  rw [InputField.reread, hdefault, reread_directives h.directives]

theorem InputField.Plain.rereadLine_eq {field : InputField} (h : field.Plain) :
    field.rereadLine = field := by
  rw [InputField.rereadLine, h.reread_eq, reread_description h.description spaces_indent]

theorem Field.Plain.reread_eq {field : Field} (h : field.Plain) : field.reread = field := by
  have harguments := map_eq_self fun argument hmem => (h.arguments argument hmem).reread_eq
  rw [Field.reread, harguments, reread_directives h.directives,
    reread_description h.description spaces_indent]

theorem EnumValue.Plain.reread_eq {value : EnumValue} (h : value.Plain) : value.reread = value := by
  rw [EnumValue.reread, reread_directives h.directives, reread_description h.description spaces_indent]

theorem TypeDefinition.Plain.reread_eq {type : TypeDefinition} (h : type.Plain) : type.reread = type := by
  obtain ⟨hdescription, hdirectives, hbody⟩ := h
  have hdescription := reread_description hdescription spaces_empty
  have hdirectives := reread_directives hdirectives
  cases type with
  | scalar type =>
    simp only [TypeDefinition.description, TypeDefinition.directives] at hdescription hdirectives
    rw [TypeDefinition.reread, ScalarType.reread, hdescription, hdirectives]
  | object type =>
    have hfields := map_eq_self fun field hmem => (hbody field hmem).reread_eq
    simp only [TypeDefinition.description, TypeDefinition.directives] at hdescription hdirectives
    rw [TypeDefinition.reread, ObjectType.reread, hdescription, hdirectives, hfields]
  | interface type =>
    have hfields := map_eq_self fun field hmem => (hbody field hmem).reread_eq
    simp only [TypeDefinition.description, TypeDefinition.directives] at hdescription hdirectives
    rw [TypeDefinition.reread, ObjectType.reread, hdescription, hdirectives, hfields]
  | union type =>
    simp only [TypeDefinition.description, TypeDefinition.directives] at hdescription hdirectives
    rw [TypeDefinition.reread, UnionType.reread, hdescription, hdirectives]
  | enum type =>
    have hvalues := map_eq_self fun value hmem => (hbody value hmem).reread_eq
    simp only [TypeDefinition.description, TypeDefinition.directives] at hdescription hdirectives
    rw [TypeDefinition.reread, EnumType.reread, hdescription, hdirectives, hvalues]
  | input type =>
    have hfields := map_eq_self fun field hmem => (hbody field hmem).rereadLine_eq
    simp only [TypeDefinition.description, TypeDefinition.directives] at hdescription hdirectives
    rw [TypeDefinition.reread, InputType.reread, hdescription, hdirectives, hfields]

theorem Definition.Plain.reread_eq {definition : Definition} (h : definition.Plain) :
    definition.reread = definition := by
  cases definition with
  | roots definition => rw [Definition.reread, Roots.reread, reread_directives h]
  | rootsExtension added => rw [Definition.reread, Roots.reread, reread_directives h]
  | directive definition =>
    have harguments := map_eq_self fun argument hmem => (h argument hmem).reread_eq
    rw [Definition.reread, DirectiveDefinition.reread, harguments]
  | type definition => rw [Definition.reread, TypeDefinition.Plain.reread_eq h]
  | extension definition => rw [Definition.reread, TypeDefinition.Plain.reread_eq h]

/-! ## Reading back -/

theorem Definition.Plain.printable {definition : Definition} (h : definition.Plain)
    (hwellFormed : definition.WellFormed) (hshaped : definition.Shaped) : definition.Printable :=
  ⟨hwellFormed, hshaped, h.legible, h.reread_eq⟩

/-- Whatever is read from a text and is plain and shaped is read back from its own text. -/
theorem ofText_render_of_plain {text : String} {schema : Schema} (h : ofText text = .ok schema)
    (hplain : ∀ definition ∈ schema.definitions, definition.Plain)
    (hshaped : ∀ definition ∈ schema.definitions, definition.Shaped) :
    ofText schema.render = .ok schema := by
  obtain ⟨hwellFormed, hne, _⟩ := ofText_sound h
  refine ofText_render_eq_self_iff.mpr ⟨keyed_ofText h, hne, fun definition hmem => ?_⟩
  exact ⟨hwellFormed definition hmem, hshaped definition hmem, (hplain definition hmem).legible,
    (hplain definition hmem).reread_eq⟩

/-! ## A memo -/

def memoDescription : String := "A memo.\nIts text is short."

/-- A type of one field, with a description of two lines. -/
def memo : Schema where
  types := [("Memo", .object ⟨some memoDescription, "Memo", [], [],
    [.plain "text" [⟨none, "size", .named "Int", some (.int 80), []⟩] (.named "String")]⟩)]

def memoText : String :=
  renderDescription "" (some memoDescription) ++ "type Memo\x7btext(size:Int=80):String\x7d"

def memoTokens : List Token :=
  [.name "type", .name "Memo", .punctuator .openBrace, .name "text",
    .punctuator .openParen, .name "size", .punctuator .colon, .name "Int", .punctuator .equals, .int 80,
    .punctuator .closeParen, .punctuator .colon, .name "String", .punctuator .closeBrace]

theorem tidy_memoDescription : Text.Block.Tidy memoDescription.toList where
  noReturn := by decide
  first := by decide
  last := by decide
  flush := ⟨"A memo.".toList, List.mem_cons_self, 'A', rfl, rfl⟩

theorem spells_memoTokens : Spells "type Memo\x7btext(size:Int=80):String\x7d".toList memoTokens := by
  have hend : Spells ['\x7d'] [.punctuator .closeBrace] := Spells.nil.punctuator '\x7d' rfl
  have htype := ((hend.name (ends_cons rfl) (n := "String") (by decide)).punctuator ':' rfl).punctuator ')' rfl
  have hdefault := (Spells.int htype (ends_cons rfl) 80).punctuator '=' rfl
  have hsize := (hdefault.name (ends_cons rfl) (n := "Int") (by decide)).punctuator ':' rfl
  have hfield := ((hsize.name (ends_cons rfl) (n := "size") (by decide)).punctuator '(' rfl).name (ends_cons rfl)
    (n := "text") (by decide)
  have hname := (hfield.punctuator '\x7b' rfl).name (ends_cons rfl) (n := "Memo") (by decide)
  exact (hname.ignored ' ' rfl).name (ends_cons rfl) (n := "type") (by decide)

theorem spells_memo :
    Spells memoText.toList (descriptionTokens "" (some memoDescription) ++ memoTokens) := by
  rw [memoText, String.toList_append]
  exact prints_description spaces_empty _ spells_memoTokens

theorem list_memoText : Token.list memoText.toList = .block memoDescription :: memoTokens := by
  have hblock : descriptionTokens "" (some memoDescription) = [.block memoDescription] := by
    have hcontent := Text.Block.content_body spaces_empty tidy_memoDescription
    show [if _ then Token.block (String.ofList (Text.Block.content _)) else _] = _
    rw [hcontent, String.ofList_toList]
    rfl
  rw [spells_memo, hblock]
  rfl

theorem ofText_memo : ofText memoText = .ok memo := by
  refine ofText_eq_ok_iff.mpr ⟨by decide, memo.definitions, [], ?_, rfl⟩
  rw [list_memoText]
  rfl

theorem plain_memo : ∀ definition ∈ memo.definitions, definition.Plain := by
  intro definition hmem
  obtain rfl := List.mem_singleton.mp hmem
  have hnone : ∀ ds : List Directive, ds = [] → ∀ d ∈ ds, d.Plain := by
    rintro _ rfl d hmem
    exact absurd hmem List.not_mem_nil
  refine ⟨?_, hnone _ rfl, ?_⟩
  · intro text htext
    obtain rfl := Option.some.inj htext
    exact ⟨by decide, fun _ => tidy_memoDescription⟩
  -- Neither the field nor its argument has a description of its own.
  · refine List.forall_mem_singleton.mpr ⟨(fun _ h => nomatch h), ?_, hnone _ rfl⟩
    refine List.forall_mem_singleton.mpr ⟨(fun _ h => nomatch h), fun value hvalue => ?_, hnone _ rfl⟩
    obtain rfl := Option.some.inj hvalue
    trivial

theorem shaped_memo : ∀ definition ∈ memo.definitions, definition.Shaped :=
  List.forall_mem_singleton.mpr (List.cons_ne_nil _ _)

theorem ofText_render_of_plain_memo : ofText memoText = .ok memo ∧ ofText memo.render = .ok memo :=
  ⟨ofText_memo, ofText_render_of_plain ofText_memo plain_memo shaped_memo⟩

end AuditFields.Schema
