import AuditFields.Proofs.Schema.Reading.Definitions

/-!
# Reading printed documents

What is read back from the tokens of definitions, one at a time and all in a row. A definition is read
back if it has the shape of one that can be written (`Definition.Shaped`): there is something between its
braces, and no description behind `extend`. One that has not is refused.
-/

namespace AuditFields.Schema

namespace Reader

variable {rest : List Token} {description : Option String}

/-! ## Type definitions -/

theorem bodyTokens_nil {α : Type} (tokens : α → List Token) (rest : List Token) :
    bodyTokens tokens [] ++ rest = .punctuator .openBrace :: .punctuator .closeBrace :: rest :=
  rfl

theorem run_typeDefinition {type : TypeDefinition} (h : type.WellFormed) (hbody : type.HasBody)
    (hlegible : Legible type.afterKeyword) (hrest : Avoids definitionMarks rest) :
    (typeDefinition description (.name type.keyword)).run (type.afterKeyword ++ rest) =
      .ok (type.reread.withDescription description, rest) := by
  have hfields : ∀ {object : ObjectType}, object.WellFormed → object.fields ≠ [] →
      Legible (TypeDefinition.object object).afterKeyword →
      (objectType description).run ((TypeDefinition.object object).afterKeyword ++ rest) =
        .ok ({ object.reread with description }, rest) := by
    intro object h hbody hlegible
    simp only [TypeDefinition.afterKeyword, List.cons_append, List.append_assoc]
    rw [run_objectType h hlegible.tail.right.left, run_fields h.fields hlegible.tail.right.right hbody]
    rfl
  cases type with
  | scalar type => exact run_bind_of_ok (run_scalarType h hlegible.tail hrest)
  | object type => exact run_bind_of_ok (hfields h hbody hlegible)
  | interface type => exact run_bind_of_ok (hfields h hbody hlegible)
  | union type =>
    simp only [TypeDefinition.afterKeyword, List.cons_append, List.append_assoc]
    exact run_bind_of_ok (run_unionType h hlegible.tail.left hrest)
  | enum type =>
    simp only [TypeDefinition.afterKeyword, List.cons_append, List.append_assoc]
    refine run_bind_of_ok ?_
    rw [run_enumType h hlegible.tail.left, run_enumValues h.values hlegible.tail.right hbody]
    rfl
  | input type =>
    simp only [TypeDefinition.afterKeyword, List.cons_append, List.append_assoc]
    refine run_bind_of_ok ?_
    rw [run_inputType h hlegible.tail.left, run_inputFields h.fields hlegible.tail.right hbody]
    rfl

theorem run_typeDefinition_of_empty {type : TypeDefinition} (h : type.WellFormed)
    (hbody : ¬type.HasBody) (hlegible : Legible type.afterKeyword) (rest : List Token) :
    (typeDefinition description (.name type.keyword)).run (type.afterKeyword ++ rest) =
      .error (.unexpected (.punctuator .closeBrace)) := by
  have hfields : ∀ {object : ObjectType}, object.WellFormed → ¬object.fields ≠ [] →
      Legible (TypeDefinition.object object).afterKeyword →
      (objectType description).run ((TypeDefinition.object object).afterKeyword ++ rest) =
        .error (.unexpected (.punctuator .closeBrace)) := by
    intro object h hbody hlegible
    simp only [TypeDefinition.afterKeyword, List.cons_append, List.append_assoc]
    rw [run_objectType h hlegible.tail.right.left, Classical.not_not.mp hbody, bodyTokens_nil,
      run_enclosedIfAny_empty rfl]
    rfl
  cases type with
  | scalar type => exact absurd trivial hbody
  | object type => exact run_bind_of_error (hfields h hbody hlegible)
  | interface type => exact run_bind_of_error (hfields h hbody hlegible)
  | union type => exact absurd trivial hbody
  | enum type =>
    simp only [TypeDefinition.afterKeyword, List.cons_append, List.append_assoc]
    refine run_bind_of_error ?_
    rw [run_enumType h hlegible.tail.left, Classical.not_not.mp hbody, bodyTokens_nil,
      run_enclosedIfAny_empty rfl]
    rfl
  | input type =>
    simp only [TypeDefinition.afterKeyword, List.cons_append, List.append_assoc]
    refine run_bind_of_error ?_
    rw [run_inputType h hlegible.tail.left, Classical.not_not.mp hbody, bodyTokens_nil,
      run_enclosedIfAny_empty rfl]
    rfl

end Reader

/-! ## Roots -/

/-- The root operations that have a root type. -/
def Roots.present (roots : Roots) : List (Operation × String) :=
  roots.query.toList.map (Operation.query, ·) ++ roots.mutation.toList.map (Operation.mutation, ·) ++
    roots.subscription.toList.map (Operation.subscription, ·)

def Operation.keyword : Operation → String
  | .query => "query"
  | .mutation => "mutation"
  | .subscription => "subscription"

def presentTokens (root : Operation × String) : List Token :=
  [.name root.1.keyword, .punctuator .colon, .name root.2]

theorem Roots.tokens_eq (roots : Roots) :
    roots.tokens = .name "schema" :: (roots.directives.flatMap Directive.tokens ++
      Token.punctuator .openBrace :: (roots.present.flatMap presentTokens ++ [Token.punctuator .closeBrace])) := by
  obtain ⟨directives, query, mutation, subscription⟩ := roots
  cases query <;> cases mutation <;> cases subscription <;> rfl

theorem Reader.rootsOf_present (roots : Roots) (directives : List Directive) :
    rootsOf directives roots.present = { roots with directives } := by
  obtain ⟨_, query, mutation, subscription⟩ := roots
  cases query <;> cases mutation <;> cases subscription <;> rfl

def Roots.reread (roots : Roots) : Roots :=
  { roots with directives := roots.directives.map Directive.reread }

namespace Reader

variable {rest : List Token} {description : Option String}

theorem run_rootOperation (root : Operation × String) (after : List Token) :
    rootOperation.run (presentTokens root ++ after) = .ok (root, after) := by
  obtain ⟨operation, type⟩ := root
  cases operation <;> rfl

theorem run_rootOperations (roots : Roots) (rest : List Token) :
    rootOperations.run (.punctuator .openBrace ::
        (roots.present.flatMap presentTokens ++ Token.punctuator .closeBrace :: rest)) =
      .ok (roots.present, rest) := by
  have hrepeats : Repeats (· != .punctuator .closeBrace) rootOperation (fun _ => True) presentTokens id
      roots.present :=
    ⟨fun _ _ => ⟨_, _, rfl, rfl⟩, fun _ _ _ => trivial, fun root _ after _ => run_rootOperation root after⟩
  rw [rootOperations, run_bind_of_ok (run_expect .openBrace _), run_manyUntil hrepeats (fun _ => trivial),
    List.map_id]

theorem run_rootsDirectives {definition : Roots} (h : definition.WellFormed)
    (hlegible : Legible definition.tokens) (after : List Token) :
    directives.run (definition.directives.flatMap Directive.tokens ++ Token.punctuator .openBrace :: after) =
      .ok (definition.reread.directives, .punctuator .openBrace :: after) :=
  run_directives h.directives hlegible.tail.left (avoids_cons _ (by decide))

theorem run_roots {definition : Roots} (h : definition.WellFormed) (hlegible : Legible definition.tokens)
    (rest : List Token) :
    roots.run (definition.tokens.tail ++ rest) = .ok (definition.reread, rest) := by
  rw [Roots.tokens_eq, List.tail_cons]
  simp only [List.cons_append, List.append_assoc, List.nil_append]
  rw [roots, run_bind_of_ok (run_rootsDirectives h hlegible _),
    run_bind_of_ok (run_rootOperations definition rest), rootsOf_present]
  rfl

theorem run_rootsExtension {added : Roots} (h : added.WellFormed) (hlegible : Legible added.tokens)
    (rest : List Token) :
    rootsExtension.run (added.tokens.tail ++ rest) = .ok (added.reread, rest) := by
  rw [Roots.tokens_eq, List.tail_cons]
  simp only [List.cons_append, List.append_assoc, List.nil_append]
  rw [rootsExtension, run_bind_of_ok (run_rootsDirectives h hlegible _),
    run_bind_of_ok (run_nextIs_self .openBrace _), if_pos rfl,
    run_bind_of_ok (run_rootOperations added rest), rootsOf_present]
  rfl

end Reader

/-! ## Directive definitions -/

def DirectiveDefinition.reread (definition : DirectiveDefinition) : DirectiveDefinition :=
  { definition with arguments := definition.arguments.map InputField.reread }

namespace Reader

variable {rest : List Token} {description : Option String}

theorem run_location (l : Location) (after : List Token) :
    location.run ([.name l.render] ++ after) = .ok (l, after) := by
  cases l <;> rfl

theorem run_locations (first : Location) (others : List Location) (hrest : Avoids [.pipe] rest) :
    (separated .pipe location).run (.name first.render ::
        ((others.map Location.render).flatMap (fun name => [.punctuator .pipe, .name name]) ++ rest)) =
      .ok (first :: others, rest) := by
  have hlocations : ∀ l ∈ first :: others, ∀ after,
      location.run ([.name l.render] ++ after) = .ok (id l, after) := fun l _ => run_location l
  have hrun := run_separated hlocations (fun _ => avoids_cons _ (by simp)) hrest
  rwa [List.map_id, ← List.flatMap_map Location.render
    (fun name => [Token.punctuator .pipe, .name name])] at hrun

theorem run_directiveDefinition {definition : DirectiveDefinition} (h : definition.WellFormed)
    (hlegible : Legible definition.tokens) (hrest : Avoids definitionMarks rest) :
    directiveDefinition.run (definition.tokens.tail ++ rest) = .ok (definition.reread, rest) := by
  obtain ⟨name, fields, repeatable, locations⟩ := definition
  obtain ⟨first, others, rfl⟩ := List.exists_cons_of_ne_nil h.locations
  have hlocations := run_locations first others (hrest.subset (by decide))
  unfold DirectiveDefinition.tokens
  simp only [List.tail_cons, List.cons_append, List.append_assoc, List.map_cons, namesTokens,
    List.nil_append]
  have harguments : ∀ {next : String} {after : List Token},
      (enclosedIfAny .openParen .closeParen inputField).run
        (argumentDefinitionTokens fields ++ Token.name next :: after) =
      .ok (fields.map InputField.reread, .name next :: after) :=
    run_argumentDefinitions h.arguments hlegible.tail.tail.tail.left (avoids_cons _ (by simp))
  rw [directiveDefinition, run_bind_of_ok (run_expect .at _), run_bind_of_ok (run_name _ _)]
  cases repeatable with
  | false =>
    have hnext : ∀ after, (nextIsKeyword "repeatable").run (.name "on" :: after) =
        .ok (false, .name "on" :: after) := fun _ => rfl
    simp only [Bool.false_eq_true, if_false, List.nil_append]
    rw [run_bind_of_ok harguments, run_bind_of_ok (hnext _), if_neg Bool.false_ne_true,
      run_bind_of_ok (run_expectKeyword "on" _), run_bind_of_ok hlocations]
    rfl
  | true =>
    have hnext : ∀ after, (nextIsKeyword "repeatable").run (.name "repeatable" :: after) =
        .ok (true, .name "repeatable" :: after) := fun _ => rfl
    simp only [if_true, List.cons_append, List.nil_append]
    rw [run_bind_of_ok harguments, run_bind_of_ok (hnext _), if_pos rfl,
      run_bind_of_ok (run_discard_take rfl _), run_bind_of_ok (run_expectKeyword "on" _),
      run_bind_of_ok hlocations]
    rfl

end Reader

/-! ## Definitions -/

theorem TypeDefinition.reread_withDescription (type : TypeDefinition) :
    type.reread.withDescription (type.description.map (rereadText "")) = type.reread := by
  cases type <;> rfl

namespace Definition

/-- What is read back from a definition. -/
def reread : Definition → Definition
  | .roots definition => .roots definition.reread
  | .rootsExtension added => .rootsExtension added.reread
  | .directive definition => .directive definition.reread
  | .type definition => .type definition.reread
  | .extension definition => .extension definition.reread

/-- There is something between the braces, and no description behind the keyword of an extension. -/
def Shaped : Definition → Prop
  | .type definition => definition.HasBody
  | .extension definition => definition.HasBody ∧ definition.description = none
  | _ => True

theorem opens (definition : Definition) : Opens definition.tokens := by
  cases definition with
  | type definition =>
    rw [tokens, TypeDefinition.tokens_eq]
    exact opens_description "" definition.description definition.keyword _
  | _ => exact opens_name _ _

theorem tokens_ne_nil (definition : Definition) : definition.tokens ≠ [] := by
  obtain ⟨token, rest, htokens, _⟩ := definition.opens
  rw [htokens]
  exact List.cons_ne_nil token rest

end Definition

namespace Reader

variable {rest : List Token}

theorem run_definition_type {before : List Token} {description : Option String}
    (hdescribes : Describes before description) (type : TypeDefinition) (after : List Token) :
    definition.run (before ++ Token.name type.keyword :: after) =
      ((typeDefinition description (.name type.keyword)).run after).map
        fun p => (.type p.1, p.2) := by
  rw [definition, run_bind_of_ok (hdescribes _ _), run_bind_of_ok (run_take rfl _)]
  cases type <;> exact run_bind_pure _ _ _

theorem run_definition_extension (type : TypeDefinition) (after : List Token) :
    definition.run (.name "extend" :: .name type.keyword :: after) =
      ((typeDefinition none (.name type.keyword)).run after).map fun p => (.extension p.1, p.2) := by
  cases type <;> exact run_bind_pure _ _ _

theorem run_definition_extend_description (indent text : String) (after : List Token) :
    ∃ fault, definition.run (.name "extend" :: descriptionToken indent text :: after) = .error fault := by
  unfold descriptionToken
  split
  · exact ⟨_, rfl⟩
  · unfold quotedToken
    split <;> exact ⟨_, rfl⟩

theorem run_definition {d : Definition} (h : d.WellFormed) (hshaped : d.Shaped)
    (hlegible : Legible d.tokens) (hrest : Avoids definitionMarks rest) :
    definition.run (d.tokens ++ rest) = .ok (d.reread, rest) := by
  cases d with
  | roots definition =>
    show (roots >>= fun found => pure (Definition.roots found)).run (definition.tokens.tail ++ rest) = _
    exact run_bind_of_ok (run_roots h hlegible rest)
  | rootsExtension added =>
    show (rootsExtension >>= fun found => pure (Definition.rootsExtension found)).run
      (added.tokens.tail ++ rest) = _
    exact run_bind_of_ok (run_rootsExtension h hlegible.tail rest)
  | directive definition =>
    show (directiveDefinition >>= fun found => pure (Definition.directive found)).run
      (definition.tokens.tail ++ rest) = _
    exact run_bind_of_ok (run_directiveDefinition h hlegible hrest)
  | type type =>
    rw [Definition.tokens, TypeDefinition.tokens_eq] at hlegible ⊢
    rw [List.append_assoc, List.cons_append, run_definition_type (describes_line hlegible.left),
      run_typeDefinition h hshaped hlegible.right.tail hrest, TypeDefinition.reread_withDescription]
    rfl
  | extension type =>
    obtain ⟨hbody, hdescription⟩ := hshaped
    have hreread := type.reread_withDescription
    rw [hdescription, Option.map_none] at hreread
    rw [Definition.tokens, TypeDefinition.tokens_eq, hdescription] at hlegible ⊢
    show definition.run (.name "extend" :: .name type.keyword :: (type.afterKeyword ++ rest)) = _
    rw [run_definition_extension, run_typeDefinition h hbody hlegible.tail.tail hrest, hreread]
    rfl

theorem run_definition_of_not_shaped {d : Definition} (h : d.WellFormed) (hshaped : ¬d.Shaped)
    (hlegible : Legible d.tokens) (rest : List Token) :
    ∃ fault, definition.run (d.tokens ++ rest) = .error fault := by
  cases d with
  | type type =>
    rw [Definition.tokens, TypeDefinition.tokens_eq] at hlegible ⊢
    rw [List.append_assoc, List.cons_append, run_definition_type (describes_line hlegible.left),
      run_typeDefinition_of_empty h hshaped hlegible.right.tail]
    exact ⟨_, rfl⟩
  | extension type =>
    rw [Definition.tokens, TypeDefinition.tokens_eq] at hlegible ⊢
    cases hdescription : type.description with
    | none =>
      have hbody : ¬type.HasBody := fun hbody => hshaped ⟨hbody, hdescription⟩
      rw [hdescription] at hlegible
      show ∃ fault, definition.run
        (.name "extend" :: .name type.keyword :: (type.afterKeyword ++ rest)) = .error fault
      rw [run_definition_extension, run_typeDefinition_of_empty h hbody hlegible.tail.tail]
      exact ⟨_, rfl⟩
    | some text => exact run_definition_extend_description "" text _
  | _ => exact absurd trivial hshaped

/-! ## Documents -/

theorem repeats_definition {ds : List Definition} (h : ∀ d ∈ ds, d.WellFormed)
    (hshaped : ∀ d ∈ ds, d.Shaped) (hlegible : Legible (ds.flatMap Definition.tokens)) :
    Repeats (fun _ => true) definition (Avoids definitionMarks) Definition.tokens Definition.reread ds where
  starts := by
    intro d _
    obtain ⟨token, others, htokens, _⟩ := d.opens
    exact ⟨token, others, htokens, rfl⟩
  follows := fun d _ after => d.opens.avoids definitionMarks after
  run := fun d hmem _ =>
    run_definition (h d hmem) (hshaped d hmem) (hlegible.of_flatMap d hmem)

theorem run_document {ds : List Definition} (hne : ds ≠ []) (h : ∀ d ∈ ds, d.WellFormed)
    (hshaped : ∀ d ∈ ds, d.Shaped) (hlegible : Legible (ds.flatMap Definition.tokens)) :
    document.run (ds.flatMap Definition.tokens) = .ok (ds.map Definition.reread, []) := by
  obtain ⟨first, others, rfl⟩ := List.exists_cons_of_ne_nil hne
  have hrepeats := repeats_definition h hshaped hlegible
  have hrest : Avoids definitionMarks (others.flatMap Definition.tokens) := by
    have hfollows := hrepeats.tail.follows_flatMap (avoids_nil definitionMarks)
    rwa [List.append_nil] at hfollows
  have hothers := run_many hrepeats.tail (avoids_nil definitionMarks) fun _ h => nomatch h
  rw [List.append_nil] at hothers
  rw [List.flatMap_cons, document, run_bind_of_ok (hrepeats.run first List.mem_cons_self _ hrest),
    run_bind_of_ok hothers]
  rfl

/-- A definition that is not shaped is refused at the front, or by what goes on after it. -/
theorem run_definition_then_of_not_shaped {α : Type} {next : Definition → Reader α} {first : Definition}
    {others : List Definition} (h : first.WellFormed) (hshaped : ¬∀ d ∈ first :: others, d.Shaped)
    (hlegible : Legible ((first :: others).flatMap Definition.tokens))
    (hnext : (¬∀ d ∈ others, d.Shaped) →
      ∃ fault, (next first.reread).run (others.flatMap Definition.tokens) = .error fault) :
    ∃ fault, (definition >>= next).run ((first :: others).flatMap Definition.tokens) =
      .error fault := by
  rw [List.flatMap_cons] at hlegible ⊢
  by_cases hfirst : first.Shaped
  · have hrest : Avoids definitionMarks (others.flatMap Definition.tokens) := by
      cases others with
      | nil => exact avoids_nil _
      | cons second others => exact second.opens.avoids _ _
    rw [run_bind_of_ok (run_definition h hfirst hlegible.left hrest)]
    exact hnext fun hothers => hshaped (List.forall_mem_cons.mpr ⟨hfirst, hothers⟩)
  · obtain ⟨fault, hfault⟩ := run_definition_of_not_shaped h hfirst hlegible.left
      (others.flatMap Definition.tokens)
    exact ⟨fault, run_bind_of_error hfault⟩

theorem run_definitions_of_not_shaped {ds : List Definition} {bound : List Token}
    (h : ∀ d ∈ ds, d.WellFormed) (hshaped : ¬∀ d ∈ ds, d.Shaped)
    (hlegible : Legible (ds.flatMap Definition.tokens)) (hbound : ds.length ≤ bound.length) :
    ∃ fault, (manyUpTo (fun _ => true) definition bound).run (ds.flatMap Definition.tokens) =
      .error fault := by
  induction ds generalizing bound with
  | nil => exact absurd (fun _ hmem => absurd hmem List.not_mem_nil) hshaped
  | cons first others ih =>
    obtain ⟨hfirst, hothers⟩ := List.forall_mem_cons.mp h
    cases bound with
    | nil => exact absurd hbound (by simp)
    | cons _ bound =>
      obtain ⟨token, after, htokens, _⟩ := first.opens
      have hpeek : peek.run ((first :: others).flatMap Definition.tokens) =
          .ok (some token, (first :: others).flatMap Definition.tokens) := by
        rw [run_peek, List.flatMap_cons, htokens]
        rfl
      rw [manyUpTo, run_bind_of_ok hpeek]
      dsimp only
      rw [if_pos rfl]
      refine run_definition_then_of_not_shaped hfirst hshaped hlegible fun hremaining => ?_
      rw [List.flatMap_cons] at hlegible
      obtain ⟨fault, hfault⟩ := ih hothers hremaining hlegible.right (by simpa using hbound)
      exact ⟨fault, run_bind_of_error hfault⟩

theorem run_document_of_not_shaped {ds : List Definition} (h : ∀ d ∈ ds, d.WellFormed)
    (hshaped : ¬∀ d ∈ ds, d.Shaped) (hlegible : Legible (ds.flatMap Definition.tokens)) :
    ∃ fault, document.run (ds.flatMap Definition.tokens) = .error fault := by
  cases ds with
  | nil => exact absurd (fun _ hmem => absurd hmem List.not_mem_nil) hshaped
  | cons first others =>
    obtain ⟨hfirst, hothers⟩ := List.forall_mem_cons.mp h
    refine run_definition_then_of_not_shaped hfirst hshaped hlegible fun hremaining => ?_
    rw [List.flatMap_cons] at hlegible
    have hget : (get : Reader (List Token)).run (others.flatMap Definition.tokens) =
      .ok (others.flatMap Definition.tokens, others.flatMap Definition.tokens) := rfl
    have hbound : others.length ≤ (others.flatMap Definition.tokens).length :=
      length_le_length_flatMap fun d _ => d.tokens_ne_nil
    obtain ⟨fault, hfault⟩ := run_definitions_of_not_shaped hothers hremaining hlegible.right hbound
    refine ⟨fault, run_bind_of_error ?_⟩
    rw [many, run_bind_of_ok hget, hfault]

end Reader

end AuditFields.Schema
