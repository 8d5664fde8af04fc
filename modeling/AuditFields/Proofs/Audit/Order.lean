import AuditFields.Proofs.Audit.Objections
import AuditFields.Proofs.Audit.Schema

/-!
# The order of the types does not matter

Two annotated types meet nowhere but in the mutation root. What stands against one of them is not
changed by the work on the other (`objections_of_stepsEffect`), so all of them can be audited exactly
if nothing stands against any of them in the API as it was, in whatever order they come. What they do
to one name commutes (`typeAfter_comm`), and the stack is known from the settings of the types alone.
-/

namespace AuditFields.Audit

open Schema

variable {config : Config} {settings : Settings} {type : String} {api after : Api}

/-! ## What stands against another type -/

theorem input?_typeAfter {name : String} (hname : name ∉ strippedInputs type)
    (hdeletion : name ≠ Artifact.softDeleteInput.nameFor type) (found : Option TypeDefinition) :
    (typeAfter settings type name found).bind TypeDefinition.input? =
      found.bind TypeDefinition.input? := by
  cases found with
  | none =>
    rw [typeAfter, if_neg fun h => hdeletion h.2]
  | some definition =>
    cases definition with
    | object object =>
      rw [typeAfter]
      split
      · rfl
      · rfl
    | input input => rw [typeAfter_input_of_not_mem hname]
    | _ => rfl

theorem flaws_of_stepsEffect (hkeyed : api.schema.Keyed) {root : ObjectType}
    (hroot : api.type? api.mutationName = some (.object root)) {other : String} (hne : other ≠ type)
    (hother : other ≠ api.mutationName) (h : stepsEffect config settings type api = .ok after)
    (others : Settings) : flaws others other after = flaws others other api := by
  have hresource : ∀ artifact ∈ resolvers,
      after.resource? (artifact.nameFor other) = api.resource? (artifact.nameFor other) := by
    intro artifact hartifact
    refine (stepsEffect_carriesOut h).2.resource fun hwritten => ?_
    exact apart_resolvers.not_mem_map_nameFor hne (List.mem_map_of_mem hartifact)
      (writtenFor_subset _ _ hwritten)
  have hcreate := hresource .createResolver (by decide)
  have hupdate := hresource .updateResolver (by decide)
  have hlacked : lackedResolver others other after = lackedResolver others other api := by
    simp only [lackedResolver, hupdate]
  have hinput : ∀ mutation, (after.type? (inputName other mutation)).bind TypeDefinition.input? =
      (api.type? (inputName other mutation)).bind TypeDefinition.input? := by
    intro mutation
    rw [type?_of_stepsEffect hkeyed h, input?_typeAfter (not_mem_strippedInputs hne mutation)
      (softDeleteInput_ne_inputName type other mutation).symm]
    refine input?_withMutations (fun input hinput heq => ?_) _
    rw [heq, hroot] at hinput
    cases hinput
  have hobject : (after.type? other).bind TypeDefinition.object? =
      (api.type? other).bind TypeDefinition.object? := by
    rw [type?_of_stepsEffect hkeyed h, object?_typeAfter hne, withMutations,
      if_neg fun h => hother h.1]
  rw [flaws, unfitResolver_congr hcreate, unfitResolver_congr hupdate, hlacked,
    emptiedInput_congr (hinput .create), emptiedInput_congr (hinput .update),
    brokenContract_congr hobject, ← flaws]

theorem objections_of_stepsEffect (hkeyed : api.schema.Keyed) {root object : ObjectType}
    (hroot : api.type? api.mutationName = some (.object root)) (hne : object.name ≠ type)
    (hobject : object.name ≠ api.mutationName) (h : stepsEffect config settings type api = .ok after)
    (directive : Directive) : objections object directive after = objections object directive api := by
  rw [objections, flaws_of_stepsEffect hkeyed hroot hne hobject h, ← objections]

theorem root_of_stepsEffect (hkeyed : api.schema.Keyed) {root : ObjectType}
    (hroot : api.type? api.mutationName = some (.object root)) (htype : type ≠ api.mutationName)
    (h : stepsEffect config settings type api = .ok after) :
    ∃ object, after.type? after.mutationName = some (.object object) := by
  have hname : after.mutationName = api.mutationName := (frame_of_stepsEffect hkeyed h).mutationName
  have hstep : after.type? after.mutationName =
      typeStep api.mutationName api.mutationName (some (.object root)) (type, settings) := by
    rw [hname, type?_of_stepsEffect hkeyed h, hroot]
    rfl
  rw [hstep, typeStep_root_object, typeAfter_object_of_ne htype.symm]
  exact ⟨_, rfl⟩

/-- The step: once one of the types is audited, the same stands against the others as before. -/
theorem objections_of_targetEffect {first : ObjectType × Directive}
    {rest : List (ObjectType × Directive)} (hkeyed : api.schema.Keyed) {root : ObjectType}
    (hroot : api.type? api.mutationName = some (.object root))
    (hnot : api.mutationName ∉ (first :: rest).map (·.1.name))
    (hnodup : ((first :: rest).map (·.1.name)).Nodup)
    (h : targetEffect config first api = .ok after) {target : ObjectType × Directive}
    (hmem : target ∈ rest) :
    objections target.1 target.2 after = objections target.1 target.2 api := by
  have hne : target.1.name ≠ first.1.name := fun heq =>
    (List.nodup_cons.mp hnodup).1 (List.mem_map.mpr ⟨target, hmem, heq⟩)
  have hother : target.1.name ≠ api.mutationName := fun heq =>
    hnot (List.mem_map.mpr ⟨target, List.mem_cons_of_mem _ hmem, heq⟩)
  exact objections_of_stepsEffect hkeyed hroot hne hother (stepsEffect_of_targetEffect h) target.2

theorem exists_targetsEffect_cons_iff {first : ObjectType × Directive}
    {rest : List (ObjectType × Directive)} :
    (∃ after, targetsEffect config (first :: rest) api = .ok after) ↔
      ∃ next, targetEffect config first api = .ok next ∧
        ∃ after, targetsEffect config rest next = .ok after := by
  constructor
  · rintro ⟨after, h⟩
    obtain ⟨next, hnext, hrest⟩ := Except.foldlM_cons_eq_ok_iff.mp h
    exact ⟨next, hnext, after, hrest⟩
  · rintro ⟨next, hnext, after, hrest⟩
    exact ⟨after, Except.foldlM_cons_eq_ok_iff.mpr ⟨next, hnext, hrest⟩⟩

/-- The run: all types can be audited exactly if nothing stands against any of them. -/
theorem exists_targetsEffect_iff (config : Config) {targets : List (ObjectType × Directive)}
    (hkeyed : api.schema.Keyed) {root : ObjectType}
    (hroot : api.type? api.mutationName = some (.object root))
    (hnot : api.mutationName ∉ targets.map (·.1.name)) (hnodup : (targets.map (·.1.name)).Nodup) :
    (∃ after, targetsEffect config targets api = .ok after) ↔
      ∀ target ∈ targets, objections target.1 target.2 api = [] := by
  induction targets generalizing api root with
  | nil => simp [targetsEffect, pure, Except.pure]
  | cons first rest ih =>
    have hfirst : first.1.name ≠ api.mutationName := fun heq => hnot (heq ▸ List.mem_cons_self)
    have hjudged : Except.Judged (targetEffect config first api) (objections first.1 first.2 api) := by
      refine judged_targetEffect hkeyed hfirst fun mutation input hinput heq => ?_
      rw [heq, hroot] at hinput
      cases hinput
    have hrest : ∀ next, targetEffect config first api = .ok next →
        ((∃ after, targetsEffect config rest next = .ok after) ↔
          ∀ target ∈ rest, objections target.1 target.2 api = []) := by
      intro next hnext
      have hsteps := stepsEffect_of_targetEffect hnext
      have hname : next.mutationName = api.mutationName :=
        (frame_of_stepsEffect hkeyed hsteps).mutationName
      obtain ⟨object, hobject⟩ := root_of_stepsEffect hkeyed hroot hfirst hsteps
      have hnotRest : next.mutationName ∉ rest.map (·.1.name) := fun hmem =>
        hnot (List.mem_cons_of_mem _ (hname ▸ hmem))
      rw [ih (keyed_of_stepsEffect hkeyed hsteps) hobject hnotRest (List.nodup_cons.mp hnodup).2]
      exact forall₂_congr fun target hmem => by
        rw [objections_of_targetEffect hkeyed hroot hnot hnodup hnext hmem]
    rw [exists_targetsEffect_cons_iff, List.forall_mem_cons, ← hjudged.exists_ok_iff]
    constructor
    · rintro ⟨next, hnext, hafter⟩
      exact ⟨⟨next, hnext⟩, (hrest next hnext).mp hafter⟩
    · rintro ⟨⟨next, hnext⟩, hnone⟩
      exact ⟨next, hnext, (hrest next hnext).mpr hnone⟩

/-! ## What types do to one name -/

/-- The input of a soft delete mutation is new for the type that it is for, and is none of the others. -/
theorem typeAfter_comm_of_asked {type other name : String} (hne : type ≠ other)
    {settings others : Settings}
    (h : settings.softDelete ∧ name = Artifact.softDeleteInput.nameFor type) :
    typeAfter others other name (typeAfter settings type name none) =
      typeAfter settings type name (typeAfter others other name none) := by
  have hother : typeAfter others other name none = none :=
    if_neg fun hasks => hne (Artifact.nameFor_inj (h.2.symm.trans hasks.2))
  have hadded : typeAfter settings type name none = some (.input (deletionInput type)) := if_pos h
  rw [hother, hadded, h.2]
  exact typeAfter_input_of_not_mem (softDeleteInput_not_mem_strippedInputs type other) _

/-- Two types are not concerned with the same definition under one name, so it does not matter which
of them comes first. -/
theorem typeAfter_comm {type other : String} (hne : type ≠ other) (settings others : Settings)
    (name : String) (found : Option TypeDefinition) :
    typeAfter others other name (typeAfter settings type name found) =
      typeAfter settings type name (typeAfter others other name found) := by
  cases found with
  | none =>
    by_cases hname : settings.softDelete ∧ name = Artifact.softDeleteInput.nameFor type
    · exact typeAfter_comm_of_asked hne hname
    by_cases hother : others.softDelete ∧ name = Artifact.softDeleteInput.nameFor other
    · exact (typeAfter_comm_of_asked hne.symm hother).symm
    have hnone : typeAfter settings type name none = none := if_neg hname
    have hnoneOther : typeAfter others other name none = none := if_neg hother
    rw [hnone, hnoneOther, hnone]
  | some definition =>
    cases definition with
    | object object =>
      by_cases hname : name = type
      · subst hname
        simp only [typeAfter_object_self, typeAfter_object_of_ne hne]
      · by_cases hother : name = other
        · subst hother
          simp only [typeAfter_object_self, typeAfter_object_of_ne hname]
        · simp only [typeAfter_object_of_ne hname, typeAfter_object_of_ne hother]
    | input input =>
      by_cases hname : name ∈ strippedInputs type
      · have hother : name ∉ strippedInputs other := by
          obtain ⟨mutation, rfl⟩ := mem_strippedInputs_iff.mp hname
          exact not_mem_strippedInputs hne mutation
        simp [typeAfter, hname, hother]
      · simp only [typeAfter_input_of_not_mem hname]
        by_cases hother : name ∈ strippedInputs other
        · simp [typeAfter, hname, hother]
        · simp [typeAfter, hname, hother]
    | _ => rfl

/-! ## The stack -/

section

variable {other final : Api}

theorem Rewritten.unique {id : String} {snippet : RequestTemplate} (h : Rewritten id snippet api after)
    (hother : Rewritten id snippet other final) (hsame : other.resource? id = api.resource? id) :
    final.resource? id = after.resource? id := by
  rw [Rewritten, hsame] at hother
  rcases h with ⟨hnone, hafter⟩ | ⟨resolver, request, hfound, hrequest, hafter⟩
  · rcases hother with ⟨_, hfinal⟩ | ⟨_, _, hresolver, _⟩
    · rw [hfinal, hafter]
    · cases hnone.symm.trans hresolver
  · rcases hother with ⟨hnone, _⟩ | ⟨another, text, hresolver, htext, hfinal⟩
    · cases hnone.symm.trans hfound
    · obtain rfl := Resource.resolver.inj (Option.some.inj (hfound.symm.trans hresolver))
      obtain rfl := Option.some.inj (hrequest.symm.trans htext)
      rw [hfinal, hafter]

theorem Deletable.unique (h : Deletable config type settings api after)
    (hother : Deletable config type settings other final)
    (hsame : ∀ id, other.resource? id = api.resource? id)
    (hname : other.mutationName = api.mutationName) :
    final.resource? (Artifact.softDeleteResolver.nameFor type) =
      after.resource? (Artifact.softDeleteResolver.nameFor type) := by
  obtain ⟨update, request, hfound, hrequest, hafter, _⟩ := h
  obtain ⟨another, text, hresolver, htext, hfinal, _⟩ := hother
  rw [hsame] at hresolver
  obtain rfl := Resource.resolver.inj (Option.some.inj (hfound.symm.trans hresolver))
  obtain rfl := Option.some.inj (hrequest.symm.trans htext)
  rw [hfinal, hafter, hname]

theorem mem_addedFor_iff {type : String} {settings : Settings} {id : String} :
    id ∈ addedFor type settings ↔
      settings.softDelete = true ∧ id = Artifact.softDeleteResolver.nameFor type := by
  unfold addedFor
  cases settings.softDelete with
  | false => simp
  | true => simp

theorem CarriedOut.unique (h : CarriedOut config type settings api after)
    (hother : CarriedOut config type settings other final)
    (hsame : ∀ id, other.resource? id = api.resource? id)
    (hname : other.mutationName = api.mutationName) {id : String}
    (hid : id ∈ writtenFor type settings) : final.resource? id = after.resource? id := by
  rcases List.mem_append.mp hid with hrequest | hadded
  · rcases List.mem_cons.mp hrequest with rfl | hupdate
    · exact h.create.unique hother.create (hsame _)
    · obtain rfl := List.mem_singleton.mp hupdate
      exact h.update.unique hother.update (hsame _)
  · obtain ⟨hsoft, rfl⟩ := mem_addedFor_iff.mp hadded
    exact (h.deletion hsoft).unique (hother.deletion hsoft) hsame hname

variable {entries others : Entries Settings}

theorem AllCarriedOut.resource_eq (h : AllCarriedOut config entries api after)
    (hother : AllCarriedOut config others other final) (hperm : entries.Perm others)
    (hsame : ∀ id, other.resource? id = api.resource? id)
    (hname : other.mutationName = api.mutationName) (id : String) :
    final.resource? id = after.resource? id := by
  by_cases hid : id ∈ entries.flatMap fun entry => writtenFor entry.1 entry.2
  · obtain ⟨entry, hentry, hwritten⟩ := List.mem_flatMap.mp hid
    exact (h.carriedOut entry hentry).unique (hother.carriedOut entry (hperm.mem_iff.mp hentry)) hsame
      hname hwritten
  · have hidOther : id ∉ others.flatMap fun entry => writtenFor entry.1 entry.2 := fun hmem =>
      hid ((hperm.flatMap_right _).mem_iff.mpr hmem)
    rw [h.frame.resource hid, hother.frame.resource hidOther, hsame]

theorem AllCarriedOut.deployment_eq (h : AllCarriedOut config entries api after)
    (hother : AllCarriedOut config others other final) (hperm : entries.Perm others)
    (hsame : ∀ id, other.stackMapping.get? id = api.stackMapping.get? id) (id : String) :
    final.stackMapping.get? id = after.stackMapping.get? id := by
  by_cases hid : id ∈ entries.flatMap fun entry => addedFor entry.1 entry.2
  · obtain ⟨entry, hentry, hadded⟩ := List.mem_flatMap.mp hid
    obtain ⟨hsoft, rfl⟩ := mem_addedFor_iff.mp hadded
    obtain ⟨_, _, _, _, _, hafter⟩ := (h.carriedOut entry hentry).deletion hsoft
    obtain ⟨_, _, _, _, _, hfinal⟩ :=
      (hother.carriedOut entry (hperm.mem_iff.mp hentry)).deletion hsoft
    rw [hafter, hfinal]
  · have hidOther : id ∉ others.flatMap fun entry => addedFor entry.1 entry.2 := fun hmem =>
      hid ((hperm.flatMap_right _).mem_iff.mpr hmem)
    rw [h.frame.deployment hid, hother.frame.deployment hidOther, hsame]

end

/-! ## The types in another order -/

theorem eq_asked_of_asks {targets : List (ObjectType × Directive)} {audited : Entries Settings}
    (h : List.Forall₂ Asks targets audited) : audited = asked targets := by
  induction h with
  | nil => rfl
  | @cons target entry _ _ hask _ ih =>
    obtain ⟨hname, hread⟩ := hask
    rw [Settings.read_eq] at hread
    obtain ⟨_, _, hsettings⟩ := Except.map_eq_ok_iff.mp hread
    rw [ih, asked, asked, List.map_cons, hsettings, ← hname]

theorem perm_annotated {schema : Schema} {types : Entries TypeDefinition}
    (h : schema.types.Perm types) : (annotated schema).Perm (annotated { schema with types }) :=
  ((h.map _).filterMap _).filterMap _

/-- The API with its types in another order. -/
def withTypes (api : Api) (types : Entries TypeDefinition) : Api :=
  { api with schema := { api.schema with types } }

variable {types : Entries TypeDefinition}

theorem keyed_withTypes (hkeyed : api.schema.Keyed) (h : api.schema.types.Perm types) :
    (withTypes api types).schema.Keyed where
  nodup := (h.map _).nodup_iff.mp hkeyed.nodup
  own entry hmem := hkeyed.own entry (h.mem_iff.mpr hmem)

theorem type?_withTypes (hkeyed : api.schema.Keyed) (h : api.schema.types.Perm types) (name : String) :
    (withTypes api types).type? name = api.type? name :=
  Entries.get?_of_perm h hkeyed.nodup name

theorem objections_withTypes (hkeyed : api.schema.Keyed) (h : api.schema.types.Perm types)
    (object : ObjectType) (directive : Directive) :
    objections object directive (withTypes api types) = objections object directive api := by
  have hflaws : flaws (Settings.given directive) object.name (withTypes api types) =
      flaws (Settings.given directive) object.name api := by
    simp only [flaws, emptiedInput, brokenContract, type?_withTypes hkeyed h]
    rfl
  rw [objections, hflaws, ← objections]

theorem foldl_typeStep_of_perm {entries others : Entries Settings} (hnodup : entries.names.Nodup)
    (hperm : entries.Perm others) {mutationName name : String} (hname : name ≠ mutationName)
    (found : Option TypeDefinition) :
    entries.foldl (typeStep mutationName name) found =
      others.foldl (typeStep mutationName name) found := by
  refine hperm.foldl_eq' (fun first hfirst second hsecond found => ?_) found
  simp only [typeStep_of_ne hname]
  by_cases hsame : first.1 = second.1
  · have hget := Entries.get?_of_mem hnodup hfirst
    rw [hsame, Entries.get?_of_mem hnodup hsecond] at hget
    obtain rfl : first = second := Prod.ext hsame (Option.some.inj hget).symm
    rfl
  · exact typeAfter_comm hsame _ _ _ _

theorem mutationsOf_eq_map (entries : Entries Settings) :
    mutationsOf entries = ((entries.filter (·.2.softDelete)).map (·.1)).map deletionMutation := by
  induction entries with
  | nil => rfl
  | cons entry rest ih =>
    have hsplit : mutationsOf (entry :: rest) = mutationsFor entry.1 entry.2 ++ mutationsOf rest := rfl
    rw [hsplit, ih, mutationsFor, List.filter_cons]
    cases entry.2.softDelete with
    | false => rfl
    | true => rfl

theorem forall_mem_mutationsOf_iff {entries : Entries Settings} {p : Field → Prop} :
    (∀ mutation ∈ mutationsOf entries, p mutation) ↔
      ∀ entry ∈ entries, entry.2.softDelete = true → p (deletionMutation entry.1) := by
  rw [mutationsOf_eq_map, List.map_map, List.forall_mem_map]
  exact ⟨fun h entry hmem hsoft => h entry (List.mem_filter.mpr ⟨hmem, hsoft⟩),
    fun h entry hmem => h entry (List.mem_filter.mp hmem).1 (List.mem_filter.mp hmem).2⟩

theorem auditAll_cases {names : List String} (hkeyed : api.schema.Keyed)
    (h : (auditAll config).onApi api = (.ok names, .direct after)) :
    names = (annotated api.schema).map (·.1.name) ∧
    (∀ name, after.type? name = (asked (annotated api.schema)).foldl
      (typeStep api.mutationName name) (api.type? name)) ∧
    AllCarriedOut config (asked (annotated api.schema)) api after := by
  have heffect := targetsEffect_of_onApi_auditAll h
  have hnames := (onApi_auditAll_of_ok heffect).symm.trans h
  obtain ⟨audited, hasks, hall⟩ := targetsEffect_carriesOut (nodup_annotated hkeyed) heffect
  obtain rfl := eq_asked_of_asks hasks
  exact ⟨(Except.ok.inj (Prod.mk.inj hnames).1).symm, (targetsEffect_types hkeyed heffect).1, hall⟩

theorem exists_onApi_auditAll_iff (hkeyed : api.schema.Keyed) {root : ObjectType}
    (hroot : api.type? api.mutationName = some (.object root))
    (hnot : api.mutationName ∉ (annotated api.schema).map (·.1.name)) :
    (∃ names after, (auditAll config).onApi api = (.ok names, .direct after)) ↔
      ∀ target ∈ annotated api.schema, objections target.1 target.2 api = [] := by
  rw [← exists_targetsEffect_iff config hkeyed hroot hnot (nodup_annotated hkeyed)]
  constructor
  · rintro ⟨names, after, h⟩
    exact ⟨after, targetsEffect_of_onApi_auditAll h⟩
  · rintro ⟨after, h⟩
    exact ⟨_, after, onApi_auditAll_of_ok h⟩

/-- Two APIs are the same up to the order of their parts: under every name and every id there is the
same, except that soft delete mutations may come in another order at the end of the mutation root. -/
structure SameUpToOrder (mutationName : String) (root : ObjectType) (api other : Api) : Prop where
  type {name : String} (h : name ≠ mutationName) : other.type? name = api.type? name
  root : ∃ types types' : List String, types.Perm types' ∧
    api.type? mutationName = some (.object (root.addFields (types.map deletionMutation))) ∧
    other.type? mutationName = some (.object (root.addFields (types'.map deletionMutation)))
  resource (id : String) : other.resource? id = api.resource? id
  deployment (id : String) : other.stackMapping.get? id = api.stackMapping.get? id

/-- **The order in which a schema defines its types does not matter.** -/
theorem auditAll_withTypes (config : Config) (hkeyed : api.schema.Keyed)
    (hperm : api.schema.types.Perm types) {root : ObjectType}
    (hroot : api.type? api.mutationName = some (.object root))
    (hnot : api.mutationName ∉ (annotated api.schema).map (·.1.name)) :
    ((∃ names after, (auditAll config).onApi api = (.ok names, .direct after)) ↔
      ∃ names after, (auditAll config).onApi (withTypes api types) = (.ok names, .direct after)) ∧
    ∀ names after names' after', (auditAll config).onApi api = (.ok names, .direct after) →
      (auditAll config).onApi (withTypes api types) = (.ok names', .direct after') →
      names.Perm names' ∧ SameUpToOrder api.mutationName root after after' := by
  have hkeyedOther := keyed_withTypes hkeyed hperm
  have hannotated := perm_annotated hperm
  have htypes := type?_withTypes hkeyed hperm
  have hnotOther : api.mutationName ∉
      (annotated (withTypes api types).schema).map (·.1.name) := fun hmem =>
    hnot ((hannotated.map _).mem_iff.mpr hmem)
  constructor
  · rw [exists_onApi_auditAll_iff hkeyed hroot hnot,
      exists_onApi_auditAll_iff hkeyedOther ((htypes _).trans hroot) hnotOther]
    simp only [objections_withTypes hkeyed hperm]
    exact forall_congr' fun target => imp_congr_left hannotated.mem_iff
  · intro names after names' after' h h'
    obtain ⟨rfl, hget, hall⟩ := auditAll_cases hkeyed h
    obtain ⟨rfl, hget', hall'⟩ := auditAll_cases hkeyedOther h'
    have hasked : (asked (annotated api.schema)).Perm
        (asked (annotated (withTypes api types).schema)) := hannotated.map _
    have hnotAsked : api.mutationName ∉ (asked (annotated api.schema)).names := by
      rwa [names_asked]
    have hnotAskedOther : api.mutationName ∉
        (asked (annotated (withTypes api types).schema)).names := by
      rwa [names_asked]
    refine ⟨hannotated.map _, ?_⟩
    exact {
      type := by
        intro name hname
        rw [hget', htypes, hget]
        exact (foldl_typeStep_of_perm (nodup_asked hkeyed) hasked hname _).symm
      root := by
        refine ⟨_, _, (hasked.filter (·.2.softDelete)).map (·.1), ?_, ?_⟩
        · rw [hget, hroot, foldl_typeStep_root_object hnotAsked, mutationsOf_eq_map]
        · rw [hget', htypes, hroot, ← mutationsOf_eq_map]
          exact foldl_typeStep_root_object hnotAskedOther root
      resource := hall.resource_eq hall' hasked (fun _ => rfl) rfl
      deployment := hall.deployment_eq hall' hasked fun _ => rfl }

/-! ## A ledger -/

/-- Two annotated types with soft delete mutations, and a mutation root that is not annotated. -/
def ledger : Api where
  schema := {
    types := [
      ("Debit", .object (entryType "Debit" "deleted" [])),
      ("Mutation", .object (.plain "Mutation" [.plain "close" [] (.named Naming.booleanType)])),
      ("Credit", .object (entryType "Credit" "gone" [("deletedField", .string "gone")]))] }
  stack := {
    resources := [
      ("UpdateDebitResolver", entryResolver "updateDebit"),
      ("UpdateCreditResolver", entryResolver "updateCredit")] }

theorem keyed_ledger : ledger.schema.Keyed := ⟨by decide, by decide⟩

theorem auditAll_withTypes_ledger :
    let reversed := withTypes ledger ledger.schema.types.reverse
    ledger.schema.Keyed ∧ ledger.schema.types.Perm ledger.schema.types.reverse ∧
    ledger.mutationName ∉ (annotated ledger.schema).map (·.1.name) ∧
    ∃ root names after names' after', ledger.type? ledger.mutationName = some (.object root) ∧
      (auditAll {}).onApi ledger = (.ok names, .direct after) ∧
      (auditAll {}).onApi reversed = (.ok names', .direct after') ∧
      names.Perm names' ∧ SameUpToOrder ledger.mutationName root after after' := by
  intro reversed
  have hperm := (List.reverse_perm ledger.schema.types).symm
  have hnot : ledger.mutationName ∉ (annotated ledger.schema).map (·.1.name) := by decide
  obtain ⟨names, after, h⟩ := exists_onApi_auditAll_of_isOk {} ledger (by decide +kernel)
  have horder := auditAll_withTypes {} keyed_ledger hperm rfl hnot
  obtain ⟨names', after', h'⟩ := horder.1.mp ⟨_, after, h⟩
  obtain ⟨hnames, hsame⟩ := horder.2 _ after names' after' h h'
  exact ⟨keyed_ledger, hperm, hnot, _, names, after, names', after', rfl, h, h', hnames, hsame⟩

end AuditFields.Audit
