import AuditFields.Proofs.Drafts.Faithful
import AuditFields.Proofs.Result
import AuditFields.Schema.Reader

/-!
# Types under their own names

A schema holds its types as entries, and nothing in the shape of the entries says that a type stands
under its own name or that a name is used once. `Schema.Keyed` says so. A schema that is read from a
document is keyed (`keyed_ofText`), as the reader refuses a second type of a name, and every change to
an API keeps its schema keyed (`Keyed.apply`).
-/

namespace AuditFields

open Schema

namespace Schema

/-- Every type stands under its own name, and no name is used twice. -/
structure Keyed (schema : Schema) : Prop where
  nodup : schema.types.names.Nodup
  own : ∀ entry ∈ schema.types, entry.2.name = entry.1

namespace Keyed

variable {schema : Schema}

theorem name_of_get? (h : schema.Keyed) {name : String} {type : TypeDefinition}
    (hget : schema.get? name = some type) : type.name = name :=
  h.own _ (Entries.mem_of_get? hget)

theorem get?_of_mem_objects (h : schema.Keyed) {object : ObjectType}
    (hmem : object ∈ schema.objects) : schema.get? object.name = some (.object object) := by
  obtain ⟨type, htype, hobject⟩ := List.mem_filterMap.mp hmem
  obtain ⟨⟨name, definition⟩, hentry, rfl⟩ := List.mem_map.mp htype
  cases definition with
  | object other =>
    obtain rfl := Option.some.inj hobject
    have hname : other.name = name := h.own _ hentry
    rw [hname]
    exact Entries.get?_of_mem h.nodup hentry
  | _ => cases hobject

theorem nodup_objects (h : schema.Keyed) : (schema.objects.map (·.name)).Nodup := by
  have hsub : (schema.objects.map (·.name)).Sublist schema.types.names := by
    obtain ⟨_, hown⟩ := h
    unfold Schema.objects Entries.values Entries.names
    generalize schema.types = types at hown
    induction types with
    | nil => exact List.Sublist.refl _
    | cons entry rest ih =>
      obtain ⟨name, definition⟩ := entry
      have hrest := ih fun entry hentry => hown entry (List.mem_cons_of_mem _ hentry)
      have hname : definition.name = name := hown _ List.mem_cons_self
      cases definition with
      | object object =>
        obtain rfl : object.name = name := hname
        exact hrest.cons_cons _
      | _ => exact hrest.cons _
  exact hsub.nodup h.nodup

/-! ## Changes -/

theorem put (h : schema.Keyed) (type : TypeDefinition) : (schema.put type).Keyed where
  nodup := Entries.nodup_names_put h.nodup
  own := by
    intro entry hentry
    rcases Entries.mem_put hentry with rfl | hold
    · rfl
    · exact h.own entry hold

theorem putAt (h : schema.Keyed) {name : String} {type : TypeDefinition} (hname : type.name = name) :
    ({ schema with types := schema.types.put name type } : Schema).Keyed :=
  hname ▸ h.put type

theorem addMutations (h : schema.Keyed) (fields : List Field) : (schema.addMutations fields).Keyed := by
  unfold Schema.addMutations
  dsimp only
  split
  · next root hroot =>
    have hname : root.name = schema.mutationName := h.name_of_get? hroot
    exact h.putAt hname
  · have hput := h.put (.object (.plain schema.mutationName fields))
    exact ⟨hput.nodup, hput.own⟩

theorem apply {api : Api} (h : api.schema.Keyed) (edit : Edit) : (api.apply edit).schema.Keyed := by
  cases edit with
  | type type => exact h.put type
  | input input => exact h.put (.input input)
  | mutations fields => exact h.addMutations fields
  | resource id resource => exact h
  | deployment stack id => exact h

end Keyed

/-! ## Documents -/

theorem keyed_empty : ({} : Schema).Keyed :=
  ⟨List.nodup_nil, fun _ h => nomatch h⟩

theorem Keyed.addDefinition {schema after : Schema} (h : schema.Keyed) {definition : Definition}
    (hadd : addDefinition schema definition = .ok after) : after.Keyed := by
  cases definition with
  | type definition =>
    rw [Schema.addDefinition] at hadd
    split at hadd
    · cases hadd
    · obtain rfl := Except.ok.inj hadd
      exact h.put definition
  | _ =>
    obtain rfl := Except.ok.inj hadd
    exact ⟨h.nodup, h.own⟩

/-- Every schema that is read from a document is keyed. -/
theorem keyed_ofText {text : String} {schema : Schema} (h : ofText text = .ok schema) :
    schema.Keyed := by
  obtain ⟨definitions, _, hfold⟩ := Except.bind_eq_ok_iff.mp h
  exact Except.foldlM_invariant Keyed (fun _ _ _ _ hkeyed hadd => hkeyed.addDefinition hadd) keyed_empty hfold

end Schema

end AuditFields
