import AuditFields.Proofs.Schema.Keyed
import AuditFields.Proofs.Schema.Reading.Documents
import AuditFields.Proofs.Schema.Reading.Soundness

/-!
# Schemas that are read back

The text of a schema is read as the schema whose parts are read back from their tokens
(`ofText_render`). A schema is hence read back as itself exactly if it is printable: all its definitions
are well-formed, can be written, and are read back as themselves.
-/

namespace AuditFields.Schema

/-! ## Blank texts -/

theorem isReadable_first_of_isBlank {c : Char} (hblank : Text.isBlank c = true) (cs : List Char) :
    (Token.first c cs).1.isReadable = false := by
  have hrange := Text.toNat_of_isBlank hblank
  have hne : ∀ other : Char, 0x21 ≤ other.toNat → other.toNat ≤ 0x84 → c ≠ other := by
    rintro other hlow hhigh rfl
    omega
  have hpunctuator : Token.punctuator? c = none := by
    unfold Token.punctuator?
    split
    all_goals first
      | rfl
      | exact absurd rfl (hne _ (by decide) (by decide))
  have hname : Text.isNameChar c ≠ true := fun h => by
    have := Text.toNat_of_isNameChar h
    omega
  unfold Token.first
  rw [hpunctuator]
  dsimp only
  rw [if_neg fun h => hname (Text.isNameChar_of_isNameStart h),
    if_neg fun h => hname (Text.isNameChar_of_isDigit h), if_neg (hne '-' (by decide) (by decide)),
    if_neg (hne '.' (by decide) (by decide)), if_neg (hne '"' (by decide) (by decide))]
  rfl

theorem head?_list_of_isAllBlank {cs : List Char} (h : Text.isAllBlank cs = true) :
    ∀ token ∈ (Token.list cs).head?, token.isReadable = false := by
  induction cs with
  | nil =>
    intro token htoken
    rw [Token.list] at htoken
    cases htoken
  | cons c cs ih =>
    rw [Text.isAllBlank, List.all_cons, Bool.and_eq_true] at h
    have hcomment : c ≠ '#' := by
      rintro rfl
      exact absurd h.1 (by decide)
    rw [Token.list, if_neg hcomment]
    split
    · exact ih h.2
    · have hfirst := isReadable_first_of_isBlank h.1 cs
      intro token htoken
      cases hcases : (Token.first c cs).1 with
      | unreadable shown =>
        rw [hcases] at htoken
        obtain rfl := Option.some.inj htoken
        rfl
      | _ =>
        rw [hcases] at hfirst
        cases hfirst

/-! ## The definitions of a schema -/

theorem forall_definitions_iff {property : Definition → Prop} {schema : Schema} :
    (∀ definition ∈ schema.definitions, property definition) ↔
      (∀ definition ∈ schema.roots, property (.roots definition)) ∧
      (∀ definition ∈ schema.directiveDefinitions, property (.directive definition)) ∧
      (∀ entry ∈ schema.types, property (.type entry.2)) ∧
      ∀ definition ∈ schema.extensions, property (.extension definition) := by
  simp only [definitions, List.forall_mem_append, List.forall_mem_map, Entries.values,
    Option.mem_toList, Option.mem_def, and_assoc]

theorem forall_definitions_put {property : Definition → Prop} {schema : Schema}
    (h : ∀ definition ∈ schema.definitions, property definition) {type : TypeDefinition}
    (htype : property (.type type)) : ∀ definition ∈ (schema.put type).definitions, property definition := by
  obtain ⟨hroots, hdirectives, htypes, hextensions⟩ := forall_definitions_iff.mp h
  refine forall_definitions_iff.mpr ⟨hroots, hdirectives, fun entry hentry => ?_, hextensions⟩
  rcases Entries.mem_put hentry with rfl | hold
  · exact htype
  · exact htypes entry hold

theorem mem_definitions_of_get? {schema : Schema} {name : String} {type : TypeDefinition}
    (h : schema.get? name = some type) : .type type ∈ schema.definitions := by
  have hvalue : type ∈ schema.types.values := List.mem_map.mpr ⟨_, Entries.mem_of_get? h, rfl⟩
  exact List.mem_append_left _ (List.mem_append_right _ (List.mem_map_of_mem hvalue))

theorem definitions_put_ne_nil (schema : Schema) (type : TypeDefinition) :
    (schema.put type).definitions ≠ [] :=
  List.ne_nil_of_mem (mem_definitions_of_get? (Entries.get?_put_self type.name type schema.types))

theorem definitions_ne_nil_of_addDefinition {schema after : Schema} {definition : Definition}
    (hadd : addDefinition schema definition = .ok after) : after.definitions ≠ [] := by
  cases definition with
  | type type =>
    rw [addDefinition] at hadd
    split at hadd
    · cases hadd
    · obtain rfl := Except.ok.inj hadd
      exact definitions_put_ne_nil schema type
  | _ =>
    obtain rfl := Except.ok.inj hadd
    simp [definitions]

theorem Roots.wellFormed_empty : ({} : Roots).WellFormed :=
  ⟨fun _ h => absurd h List.not_mem_nil, fun _ h => absurd h (by simp), fun _ h => absurd h (by simp),
    fun _ h => absurd h (by simp)⟩

theorem Roots.WellFormed.extend {roots added : Roots} (h : roots.WellFormed) (hadded : added.WellFormed) :
    (roots.extend added).WellFormed := by
  have hroot : ∀ {first second : Option String}, (∀ name ∈ first, IsName name) →
      (∀ name ∈ second, IsName name) → ∀ name ∈ first <|> second, IsName name := by
    intro first second hfirst hsecond
    cases first with
    | none => exact hsecond
    | some name => exact hfirst
  exact ⟨List.forall_mem_append.mpr ⟨h.directives, hadded.directives⟩, hroot h.query hadded.query,
    hroot h.mutation hadded.mutation, hroot h.subscription hadded.subscription⟩

theorem wellFormed_empty : ({} : Schema).WellFormed :=
  fun _ hmem => absurd hmem List.not_mem_nil

theorem WellFormed.addDefinition {schema after : Schema} (h : schema.WellFormed) {definition : Definition}
    (hdefinition : definition.WellFormed) (hadd : addDefinition schema definition = .ok after) :
    after.WellFormed := by
  obtain ⟨hroots, hdirectives, htypes, hextensions⟩ := forall_definitions_iff.mp h
  cases definition with
  | roots definition =>
    obtain rfl := Except.ok.inj hadd
    refine forall_definitions_iff.mpr ⟨fun roots hmem => ?_, hdirectives, htypes, hextensions⟩
    obtain rfl := Option.some.inj hmem
    exact hdefinition
  | rootsExtension added =>
    obtain rfl := Except.ok.inj hadd
    refine forall_definitions_iff.mpr ⟨fun roots hmem => ?_, hdirectives, htypes, hextensions⟩
    obtain rfl := Option.some.inj hmem
    have hbefore : (schema.roots.getD {}).WellFormed := by
      cases hfound : schema.roots with
      | none => exact Roots.wellFormed_empty
      | some roots => exact hroots roots hfound
    exact hbefore.extend hdefinition
  | directive definition =>
    obtain rfl := Except.ok.inj hadd
    exact forall_definitions_iff.mpr ⟨hroots,
      List.forall_mem_append.mpr ⟨hdirectives, List.forall_mem_singleton.mpr hdefinition⟩, htypes, hextensions⟩
  | type type =>
    rw [Schema.addDefinition] at hadd
    split at hadd
    · cases hadd
    · obtain rfl := Except.ok.inj hadd
      exact forall_definitions_put h hdefinition
  | extension definition =>
    obtain rfl := Except.ok.inj hadd
    exact forall_definitions_iff.mpr ⟨hroots, hdirectives, htypes,
      List.forall_mem_append.mpr ⟨hextensions, List.forall_mem_singleton.mpr hdefinition⟩⟩

/-! ## What a text is read as -/

theorem ofText_eq_ok_iff {text : String} {schema : Schema} :
    ofText text = .ok schema ↔ Text.isAllBlank text.toList = false ∧ ∃ definitions after,
      Reader.document.run (Token.list text.toList) = .ok (definitions, after) ∧
        definitions.foldlM addDefinition {} = .ok schema := by
  rw [ofText, Except.bind_eq_ok_iff]
  unfold definitionsOf
  cases hblank : Text.isAllBlank text.toList with
  | true => simp
  | false =>
    simp only [Bool.false_eq_true, if_false, Except.map_eq_ok_iff, true_and]
    constructor
    · rintro ⟨definitions, ⟨⟨found, after⟩, hrun, rfl⟩, hfold⟩
      exact ⟨found, after, hrun, hfold⟩
    · rintro ⟨definitions, after, hrun, hfold⟩
      exact ⟨definitions, ⟨(definitions, after), hrun, rfl⟩, hfold⟩

/-- Every schema that is read is well-formed and has a definition, and its text has no unreadable
place. -/
theorem ofText_sound {text : String} {schema : Schema} (h : ofText text = .ok schema) :
    schema.WellFormed ∧ schema.definitions ≠ [] ∧ Legible (Token.list text.toList) := by
  obtain ⟨_, definitions, after, hrun, hfold⟩ := ofText_eq_ok_iff.mp h
  obtain ⟨hlegible, hne, hdefinitions⟩ := Reader.document_sound (named_list _) hrun
  refine ⟨?_, ?_, hlegible⟩
  · refine Except.foldlM_invariant WellFormed (fun before definition hmem after hbefore hadd => ?_)
      wellFormed_empty hfold
    exact hbefore.addDefinition (hdefinitions definition hmem) hadd
  · obtain ⟨first, others, rfl⟩ := List.exists_cons_of_ne_nil hne
    obtain ⟨next, hfirst, hothers⟩ := Except.foldlM_cons_eq_ok_iff.mp hfold
    exact Except.foldlM_invariant (·.definitions ≠ [])
      (fun _ _ _ _ _ hadd => definitions_ne_nil_of_addDefinition hadd)
      (definitions_ne_nil_of_addDefinition hfirst) hothers

/-! ## Putting the definitions together -/

theorem foldlM_directives (found : List DirectiveDefinition) (schema : Schema) :
    (found.map Definition.directive).foldlM addDefinition schema =
      .ok { schema with directiveDefinitions := schema.directiveDefinitions ++ found } := by
  induction found generalizing schema with
  | nil => simp [pure, Except.pure]
  | cons first others ih =>
    rw [List.map_cons, List.foldlM_cons]
    exact (ih _).trans (by rw [List.append_assoc]; rfl)

theorem foldlM_extensions (found : List TypeDefinition) (schema : Schema) :
    (found.map Definition.extension).foldlM addDefinition schema =
      .ok { schema with extensions := schema.extensions ++ found } := by
  induction found generalizing schema with
  | nil => simp [pure, Except.pure]
  | cons first others ih =>
    rw [List.map_cons, List.foldlM_cons]
    exact (ih _).trans (by rw [List.append_assoc]; rfl)

theorem addDefinition_type_of_fresh {schema : Schema} {type : TypeDefinition}
    (h : type.name ∉ schema.types.names) : addDefinition schema (.type type) = .ok (schema.put type) := by
  rw [addDefinition, if_neg (mt Entries.contains_iff.mp h)]

theorem addDefinition_type_of_used {schema : Schema} {type : TypeDefinition}
    (h : type.name ∈ schema.types.names) :
    addDefinition schema (.type type) = .error (.duplicateType type.name) := by
  rw [addDefinition, if_pos (Entries.contains_iff.mpr h)]

theorem foldlM_types {entries : Entries TypeDefinition} {schema : Schema}
    (hown : ∀ entry ∈ entries, entry.2.name = entry.1)
    (hnodup : (schema.types.names ++ entries.names).Nodup) :
    (entries.values.map Definition.type).foldlM addDefinition schema =
      .ok { schema with types := schema.types ++ entries } := by
  induction entries generalizing schema with
  | nil => simp [Entries.values, pure, Except.pure]
  | cons entry entries ih =>
    obtain ⟨name, type⟩ := entry
    obtain ⟨hname, hothers⟩ := List.forall_mem_cons.mp hown
    obtain rfl : type.name = name := hname
    have hfresh : type.name ∉ schema.types.names := fun hmem =>
      (List.nodup_append.mp hnodup).2.2 type.name hmem type.name List.mem_cons_self rfl
    have hput : schema.put type = { schema with types := schema.types ++ [(type.name, type)] } := by
      rw [put, Entries.put_of_not_mem hfresh]
    have hnext : (({ schema with types := schema.types ++ [(type.name, type)] } : Schema).types.names ++
        Entries.names entries).Nodup := by
      simpa [Entries.names] using hnodup
    show addDefinition schema (.type type) >>= _ = _
    rw [addDefinition_type_of_fresh hfresh, hput]
    exact (ih hothers hnext).trans (by rw [List.append_assoc]; rfl)

theorem foldlM_definitions {schema : Schema} (h : schema.Keyed) :
    schema.definitions.foldlM addDefinition {} = .ok schema := by
  have hroots : (schema.roots.toList.map Definition.roots).foldlM addDefinition {} =
      .ok { roots := schema.roots } := by
    cases schema.roots <;> rfl
  have htypes : (schema.types.values.map Definition.type).foldlM addDefinition
      { roots := schema.roots, directiveDefinitions := schema.directiveDefinitions } =
      .ok { roots := schema.roots, directiveDefinitions := schema.directiveDefinitions,
            types := schema.types } := foldlM_types h.own h.nodup
  rw [definitions, List.foldlM_append, List.foldlM_append, List.foldlM_append, hroots]
  simp only [bind, Except.bind, foldlM_directives, List.nil_append, htypes, foldlM_extensions]

/-! ## Reading back -/

/-- What is read back from the text of a schema. -/
def reread (schema : Schema) : Schema where
  roots := schema.roots.map Roots.reread
  directiveDefinitions := schema.directiveDefinitions.map DirectiveDefinition.reread
  types := schema.types.map fun entry => (entry.1, entry.2.reread)
  extensions := schema.extensions.map TypeDefinition.reread

theorem definitions_reread (schema : Schema) :
    schema.reread.definitions = schema.definitions.map Definition.reread := by
  simp only [definitions, reread, List.map_append, List.map_map, Entries.values]
  cases schema.roots <;> rfl

theorem TypeDefinition.name_reread (type : TypeDefinition) : type.reread.name = type.name := by
  cases type <;> rfl

theorem Keyed.reread {schema : Schema} (h : schema.Keyed) : schema.reread.Keyed where
  nodup := by
    have hnames : schema.reread.types.names = schema.types.names := by
      simp only [Schema.reread, Entries.names, List.map_map]
      rfl
    rw [hnames]
    exact h.nodup
  own := by
    intro entry hentry
    obtain ⟨before, hbefore, rfl⟩ := List.mem_map.mp hentry
    rw [TypeDefinition.name_reread]
    exact h.own before hbefore

theorem list_render {schema : Schema} (h : schema.WellFormed) (hlegible : Legible schema.tokens) :
    Token.list schema.render.toList = schema.tokens := by
  rw [spells_render h, Token.untilUnreadable_of_readable hlegible]

theorem definitionsOf_joinWith {ds : List Definition} (hne : ds ≠ []) (h : ∀ d ∈ ds, d.WellFormed)
    (hshaped : ∀ d ∈ ds, d.Shaped) (hlegible : Legible (ds.flatMap Definition.tokens)) :
    definitionsOf (Text.joinWith "\n" (ds.map Definition.render)) = .ok (ds.map Definition.reread) := by
  have htokens : Token.list (Text.joinWith "\n" (ds.map Definition.render)).toList =
      ds.flatMap Definition.tokens := by
    rw [spells_definitions h, Token.untilUnreadable_of_readable hlegible]
  have hblank : ¬Text.isAllBlank (Text.joinWith "\n" (ds.map Definition.render)).toList = true := by
    intro hblank
    have hunreadable := head?_list_of_isAllBlank hblank
    rw [htokens] at hunreadable
    obtain ⟨first, others, rfl⟩ := List.exists_cons_of_ne_nil hne
    obtain ⟨token, rest, hfirst, _⟩ := first.opens
    rw [List.flatMap_cons, hfirst, List.cons_append] at hlegible hunreadable
    have htoken := hlegible.head
    rw [hunreadable token rfl] at htoken
    cases htoken
  rw [definitionsOf, if_neg hblank, htokens, Reader.run_document hne h hshaped hlegible]
  rfl

theorem ofText_render {schema : Schema} (hkeyed : schema.Keyed) (hne : schema.definitions ≠ [])
    (h : schema.WellFormed) (hshaped : ∀ definition ∈ schema.definitions, definition.Shaped)
    (hlegible : Legible schema.tokens) : ofText schema.render = .ok schema.reread := by
  rw [ofText, render_eq, definitionsOf_joinWith hne h hshaped hlegible, ← definitions_reread]
  exact foldlM_definitions hkeyed.reread

/-- What the text of a schema is read as, if it is read at all: what is read back from its parts, which can
all be written then. -/
theorem ofText_render_eq_ok_iff {schema again : Schema} (hkeyed : schema.Keyed)
    (hne : schema.definitions ≠ []) (h : schema.WellFormed) :
    ofText schema.render = .ok again ↔ Legible schema.tokens ∧
      (∀ definition ∈ schema.definitions, definition.Shaped) ∧ again = schema.reread := by
  constructor
  · intro hread
    obtain ⟨_, _, hreadable⟩ := ofText_sound hread
    have hlegible : Legible schema.tokens := by
      rw [spells_render h] at hreadable
      exact Token.readable_of_untilUnreadable hreadable
    have hshaped : ∀ definition ∈ schema.definitions, definition.Shaped := by
      refine Classical.byContradiction fun hnot => ?_
      obtain ⟨_, definitions, after, hrun, _⟩ := ofText_eq_ok_iff.mp hread
      obtain ⟨fault, hfault⟩ := Reader.run_document_of_not_shaped h hnot hlegible
      rw [list_render h hlegible] at hrun
      cases hrun.symm.trans hfault
    rw [ofText_render hkeyed hne h hshaped hlegible] at hread
    exact ⟨hlegible, hshaped, (Except.ok.inj hread).symm⟩
  · rintro ⟨hlegible, hshaped, rfl⟩
    exact ofText_render hkeyed hne h hshaped hlegible

/-! ## Printable schemas -/

/-- A definition that is read back from its text. -/
structure Definition.Printable (definition : Definition) : Prop where
  wellFormed : definition.WellFormed
  shaped : definition.Shaped
  legible : Legible definition.tokens
  reread_eq : definition.reread = definition

theorem definitionsOf_of_printable {ds : List Definition} (hne : ds ≠ []) (h : ∀ d ∈ ds, d.Printable) :
    definitionsOf (Text.joinWith "\n" (ds.map Definition.render)) = .ok ds := by
  have hlegible : Legible (ds.flatMap Definition.tokens) := by
    intro token hmem
    obtain ⟨d, hd, htoken⟩ := List.mem_flatMap.mp hmem
    exact (h d hd).legible token htoken
  have hreread : ds.map Definition.reread = ds.map id :=
    List.map_inj_left.mpr fun d hmem => (h d hmem).reread_eq
  rw [definitionsOf_joinWith hne (fun d hmem => (h d hmem).wellFormed) (fun d hmem => (h d hmem).shaped)
    hlegible, hreread, List.map_id]

structure Printable (schema : Schema) : Prop where
  keyed : schema.Keyed
  nonempty : schema.definitions ≠ []
  definitions : ∀ definition ∈ schema.definitions, definition.Printable

/-- A schema is read back from its text exactly if it is printable. -/
theorem ofText_render_eq_self_iff {schema : Schema} :
    ofText schema.render = .ok schema ↔ schema.Printable := by
  constructor
  · intro h
    obtain ⟨hwellFormed, hne, _⟩ := ofText_sound h
    have hkeyed := keyed_ofText h
    obtain ⟨hlegible, hshaped, hreread⟩ := (ofText_render_eq_ok_iff hkeyed hne hwellFormed).mp h
    have hdefinitions : schema.definitions.map Definition.reread = schema.definitions.map id := by
      rw [← definitions_reread, ← hreread, List.map_id]
    exact ⟨hkeyed, hne, fun definition hmem => ⟨hwellFormed definition hmem, hshaped definition hmem,
      hlegible.of_flatMap definition hmem, List.map_inj_left.mp hdefinitions definition hmem⟩⟩
  · intro h
    rw [ofText, render_eq, definitionsOf_of_printable h.nonempty h.definitions]
    exact foldlM_definitions h.keyed

end AuditFields.Schema
