import AuditFields.Proofs.Schema.Plain

/-!
# Changes to printable schemas

Which changes keep a schema printable: a printable type in any place, plain fields at the end of an object
type, an input with fewer fields that still has one, and plain fields at the end of the mutation root,
whatever the root is.
-/

namespace AuditFields.Schema

/-! ## Types -/

theorem TypeDefinition.Plain.printable {type : TypeDefinition} (h : type.Plain) (hwellFormed : type.WellFormed)
    (hbody : type.HasBody) : Definition.Printable (.type type) :=
  Definition.Plain.printable h hwellFormed hbody

theorem ObjectType.reread_addFields (object : ObjectType) (added : List Field) :
    (object.addFields added).reread = object.reread.addFields (added.map Field.reread) := by
  simp only [reread, addFields, List.map_append]

theorem ObjectType.mem_tokens_addFields {object : ObjectType} {added : List Field} {keyword : String}
    {token : Token} (h : token ∈ (object.addFields added).tokens keyword) :
    token ∈ object.tokens keyword ∨ token ∈ added.flatMap Field.lineTokens := by
  simp only [tokens, addFields, bodyTokens, List.mem_append, List.mem_cons, List.flatMap_append] at h ⊢
  grind

theorem Definition.Printable.addFields {object : ObjectType} {added : List Field}
    (h : Definition.Printable (.type (.object object))) (hadded : ∀ field ∈ added, field.WellFormed)
    (hplain : ∀ field ∈ added, field.Plain) :
    Definition.Printable (.type (.object (object.addFields added))) where
  wellFormed := by
    obtain ⟨hname, hinterfaces, hdirectives, hfields⟩ : object.WellFormed := h.wellFormed
    exact ⟨hname, hinterfaces, hdirectives, List.forall_mem_append.mpr ⟨hfields, hadded⟩⟩
  shaped := List.append_ne_nil_of_left_ne_nil h.shaped added
  legible := by
    intro token hmem
    rcases ObjectType.mem_tokens_addFields hmem with hold | hnew
    · exact h.legible token hold
    · exact legible_flatMap (fun field hfield => (hplain field hfield).legible_lineTokens) token hnew
  reread_eq := by
    have hobject : object.reread = object := by
      have heq := h.reread_eq
      simp only [Definition.reread, TypeDefinition.reread, Definition.type.injEq,
        TypeDefinition.object.injEq] at heq
      exact heq
    have hfields := map_eq_self fun field hmem => (hplain field hmem).reread_eq
    rw [Definition.reread, TypeDefinition.reread, ObjectType.reread_addFields, hobject, hfields]

/-- An input of some of the fields. -/
def InputType.restrict (input : InputType) (keeps : String → Bool) : InputType :=
  { input with fields := input.fields.filter fun field => keeps field.name }

theorem InputType.reread_restrict (input : InputType) (keeps : String → Bool) :
    (input.restrict keeps).reread = input.reread.restrict keeps := by
  simp only [reread, restrict, List.filter_map]
  rfl

theorem InputType.mem_tokens_restrict {input : InputType} {keeps : String → Bool} {token : Token}
    (h : token ∈ (input.restrict keeps).tokens) : token ∈ input.tokens := by
  simp only [tokens, restrict, bodyTokens, List.mem_append, List.mem_cons, List.mem_flatMap,
    List.mem_filter] at h ⊢
  grind

theorem Definition.Printable.restrict {input : InputType} (h : Definition.Printable (.type (.input input)))
    (keeps : String → Bool) (hne : (input.restrict keeps).fields ≠ []) :
    Definition.Printable (.type (.input (input.restrict keeps))) where
  wellFormed := by
    obtain ⟨hname, hdirectives, hfields⟩ : input.WellFormed := h.wellFormed
    exact ⟨hname, hdirectives, fun field hmem => hfields field (List.mem_filter.mp hmem).1⟩
  shaped := hne
  legible := fun token hmem => h.legible token (InputType.mem_tokens_restrict hmem)
  reread_eq := by
    have heq := h.reread_eq
    simp only [Definition.reread, TypeDefinition.reread, Definition.type.injEq,
      TypeDefinition.input.injEq] at heq
    rw [Definition.reread, TypeDefinition.reread, InputType.reread_restrict, heq]

/-! ## Roots -/

theorem Definition.Printable.setMutation {definition : Roots} (h : Definition.Printable (.roots definition))
    {name : String} (hname : IsName name) :
    Definition.Printable (.roots { definition with mutation := some name }) where
  wellFormed := by
    obtain ⟨hdirectives, hquery, _, hsubscription⟩ : definition.WellFormed := h.wellFormed
    refine ⟨hdirectives, hquery, fun other hother => ?_, hsubscription⟩
    obtain rfl := Option.some.inj hother
    exact hname
  shaped := trivial
  legible := Roots.legible_tokens h.legible.tail.left
  reread_eq := by
    have heq := h.reread_eq
    simp only [Definition.reread, Roots.reread, Definition.roots.injEq] at heq
    have hdirectives : definition.directives.map Directive.reread = definition.directives :=
      congrArg Roots.directives heq
    rw [Definition.reread, Roots.reread, hdirectives]

end AuditFields.Schema

namespace AuditFields.Schema.Printable

variable {schema : Schema}

/-! ## Schemas -/

theorem definition_of_get? (h : schema.Printable) {name : String} {type : TypeDefinition}
    (hget : schema.get? name = some type) : Definition.Printable (.type type) :=
  h.definitions _ (mem_definitions_of_get? hget)

theorem isName_mutationName (h : schema.Printable) : IsName schema.mutationName := by
  unfold Schema.mutationName
  cases hroots : schema.roots with
  | none => exact (by decide : IsName defaultMutationName)
  | some definition =>
    have hprintable := (forall_definitions_iff.mp h.definitions).1 definition hroots
    have hdefinition : definition.WellFormed := hprintable.wellFormed
    rw [Option.bind_some]
    cases hmutation : definition.mutation with
    | none => exact (by decide : IsName defaultMutationName)
    | some name => exact hdefinition.mutation name hmutation

theorem put (h : schema.Printable) {type : TypeDefinition} (htype : Definition.Printable (.type type)) :
    (schema.put type).Printable where
  keyed := h.keyed.put type
  nonempty := definitions_put_ne_nil schema type
  definitions := forall_definitions_put h.definitions htype

theorem addMutations (h : schema.Printable) {fields : List Field} (hne : fields ≠ [])
    (hfields : ∀ field ∈ fields, field.WellFormed) (hplain : ∀ field ∈ fields, field.Plain) :
    (schema.addMutations fields).Printable := by
  unfold Schema.addMutations
  dsimp only
  split
  · next root hroot =>
    have hname : root.name = schema.mutationName := h.keyed.name_of_get? hroot
    rw [← hname]
    exact h.put ((h.definition_of_get? hroot).addFields hfields hplain)
  · have hroot : TypeDefinition.Plain (.object (.plain schema.mutationName fields)) :=
      ⟨(fun _ h => nomatch h), fun _ h => absurd h List.not_mem_nil, hplain⟩
    have hwellFormed : TypeDefinition.WellFormed (.object (.plain schema.mutationName fields)) :=
      ⟨h.isName_mutationName, fun _ h => absurd h List.not_mem_nil, fun _ h => absurd h List.not_mem_nil,
        hfields⟩
    have hput := h.put (hroot.printable hwellFormed hne)
    obtain ⟨hroots, hrest⟩ := forall_definitions_iff.mp hput.definitions
    refine ⟨⟨hput.keyed.nodup, hput.keyed.own⟩, ?_, forall_definitions_iff.mpr ⟨?_, hrest⟩⟩
    · exact List.ne_nil_of_mem (mem_definitions_of_get? (Entries.get?_put_self _ _ schema.types))
    · intro definition hdefinition
      obtain ⟨before, hbefore, rfl⟩ := Option.map_eq_some_iff.mp hdefinition
      have hprintable := hroots before hbefore
      have hname : IsName (before.mutation.getD schema.mutationName) := by
        have hwellFormed : before.WellFormed := hprintable.wellFormed
        cases hmutation : before.mutation with
        | none => exact h.isName_mutationName
        | some name => exact hwellFormed.mutation name hmutation
      exact hprintable.setMutation hname

end AuditFields.Schema.Printable
