import AuditFields.Proofs.Stack.Tidied
import Mathlib.Data.Option.Basic

/-!
# Resolvers, read and written

Where the keys differ, a resolver is read off members exactly if its parts are what the members hold under the
keys with a meaning, and its other parts are the other members (`Resolver.Denoted`). It is
written as fields that may be missing with the further members after them (`written`), and so are the
properties in it; `sameMembers_written` says when that gives back the members read, tidied. So a resource is
written as its value, tidied (`Resource.same_toJson`), and what is written is read as the same resource
(`Resource.ofJson_toJson`).
-/

namespace AuditFields

open Json (Regular SameUpToOrder SameMembers)

variable {depth : Nat}

/-! ## Members by key -/

theorem uniqueMember?_of_nodup {members : List (String × Json)} (h : (members.map (·.1)).Nodup) (key : String) :
    uniqueMember? members key = some (Entries.get? members key) := by
  induction members with
  | nil => rfl
  | cons member members ih =>
    obtain ⟨name, v⟩ := member
    obtain ⟨hfresh, hrest⟩ := List.nodup_cons.mp h
    by_cases hname : name = key
    · subst hname
      have hnone : members.filter (·.1 == name) = [] :=
        List.filter_eq_nil_iff.mpr fun member hmember heq =>
          hfresh (List.mem_map.mpr ⟨member, hmember, eq_of_beq heq⟩)
      rw [uniqueMember?, List.filter_cons_of_pos (by simp), hnone, Entries.get?_cons, if_pos rfl]
    · rw [Entries.get?_cons, if_neg hname, ← ih hrest, uniqueMember?,
        List.filter_cons_of_neg (by simp [hname]), uniqueMember?]

theorem otherMembers_of_regular {members : List (String × Json)} (h : Regular depth (.object members))
    (keys : List String) :
    otherMembers keys members = members.filter fun member => !keys.contains member.1 :=
  (h.filter _).ofPairs_settledMembers

theorem map_settled_nonNull? {members : List (String × Json)} (h : Regular depth (.object members))
    (key : String) :
    (nonNull? (Entries.get? members key)).map Json.settled = nonNull? (Entries.get? members key) := by
  cases hfound : Entries.get? members key with
  | none => rfl
  | some v =>
    obtain ⟨_, hregular⟩ := h.get? hfound
    have hsettled := hregular.settled
    cases v with
    | null => rfl
    | _ => exact congrArg some hsettled

/-! ## Reading -/

namespace Resolver

theorem string?_eq_some_iff {v : Json} {s : String} : v.string? = some s ↔ v = .string s := by
  cases v with
  | string t => exact Option.some_inj.trans (Iff.of_eq (Json.string.injEq t s)).symm
  | _ => exact iff_of_false nofun nofun

/-- The resolver with the parts that members hold, given those that have to be of a kind. -/
def ofParts (attributes properties : Entries Json) (apiId : Json) (typeName fieldName : String)
    (request response : Option String) : Resolver where
  apiId := apiId
  dataSourceName := nonNull? (properties.get? "DataSourceName")
  typeName := typeName
  fieldName := fieldName
  requestTemplate := request
  responseTemplate := response
  otherProperties := properties.filter fun member => !propertyKeys.contains member.1
  dependsOn := nonNull? (attributes.get? "DependsOn")
  otherAttributes := attributes.filter fun member => !attributeKeys.contains member.1

/-- Where the keys differ, each part is looked up by its key and taken as it is. -/
theorem ofMembers?_of_regular {attributes properties : Entries Json} (h : Regular depth (.object attributes))
    (hproperties : attributes.get? "Properties" = some (.object properties)) :
    ofMembers? attributes = do
      let type ← attributes.get? "Type"
      guard (isResourceType type)
      let apiId ← properties.get? "ApiId"
      let typeName ← (← properties.get? "TypeName").string?
      let fieldName ← (← properties.get? "FieldName").string?
      let request ← optionalString? (properties.get? "RequestMappingTemplate")
      let response ← optionalString? (properties.get? "ResponseMappingTemplate")
      return ofParts attributes properties apiId typeName fieldName request response := by
  obtain ⟨_, hregular⟩ := h.get? hproperties
  have hsettled : ∀ apiId, properties.get? "ApiId" = some apiId → apiId.settled = apiId := by
    intro apiId hfound
    obtain ⟨_, hapiId⟩ := hregular.get? hfound
    exact hapiId.settled
  -- The properties stand under a binder until the look-up of `hproperties` has opened the match on it.
  rw [ofMembers?, funext (uniqueMember?_of_nodup h.nodup_names)]
  dsimp only [Option.bind_eq_bind, Option.bind_some]
  rw [hproperties, map_settled_nonNull? h, otherMembers_of_regular h]
  dsimp only [Option.bind_some]
  rw [funext (uniqueMember?_of_nodup hregular.nodup_names)]
  dsimp only [Option.bind_some]
  rw [map_settled_nonNull? hregular, otherMembers_of_regular hregular]
  refine Option.bind_congr fun type _ => Option.bind_congr fun _ _ => Option.bind_congr fun apiId hfound => ?_
  rw [hsettled apiId hfound]
  rfl

/-- The parts of a resolver are what the members of its value and the members of its properties hold. -/
structure Denoted (attributes properties : Entries Json) (r : Resolver) : Prop where
  type : ∃ type, attributes.get? "Type" = some type ∧ isResourceType type = true
  propertiesMember : attributes.get? "Properties" = some (.object properties)
  dependsOn : r.dependsOn = nonNull? (attributes.get? "DependsOn")
  otherAttributes : r.otherAttributes = attributes.filter fun member => !attributeKeys.contains member.1
  apiId : properties.get? "ApiId" = some r.apiId
  dataSourceName : r.dataSourceName = nonNull? (properties.get? "DataSourceName")
  typeName : properties.get? "TypeName" = some (.string r.typeName)
  fieldName : properties.get? "FieldName" = some (.string r.fieldName)
  requestTemplate : optionalString? (properties.get? "RequestMappingTemplate") = some r.requestTemplate
  responseTemplate : optionalString? (properties.get? "ResponseMappingTemplate") = some r.responseTemplate
  otherProperties : r.otherProperties = properties.filter fun member => !propertyKeys.contains member.1

theorem denoted_of_ofMembers? {attributes : Entries Json} {r : Resolver} (h : Regular depth (.object attributes))
    (hread : ofMembers? attributes = some r) : ∃ properties, Denoted attributes properties r := by
  obtain ⟨properties, hproperties⟩ : ∃ properties, attributes.get? "Properties" = some (.object properties) := by
    rw [ofMembers?, funext (uniqueMember?_of_nodup h.nodup_names)] at hread
    dsimp only [Option.bind_eq_bind, Option.bind_some] at hread
    obtain ⟨_, _, hread⟩ := Option.bind_eq_some_iff.mp hread
    obtain ⟨_, _, hread⟩ := Option.bind_eq_some_iff.mp hread
    obtain ⟨value, hvalue, hread⟩ := Option.bind_eq_some_iff.mp hread
    split at hread
    · exact ⟨_, hvalue⟩
    · cases hread
  rw [ofMembers?_of_regular h hproperties] at hread
  obtain ⟨type, htype, hread⟩ := Option.bind_eq_some_iff.mp hread
  obtain ⟨_, hguard, hread⟩ := Option.bind_eq_some_iff.mp hread
  obtain ⟨apiId, hapiId, hread⟩ := Option.bind_eq_some_iff.mp hread
  obtain ⟨typeValue, htypeName, hread⟩ := Option.bind_eq_some_iff.mp hread
  obtain ⟨typeName, htypeText, hread⟩ := Option.bind_eq_some_iff.mp hread
  obtain ⟨fieldValue, hfieldName, hread⟩ := Option.bind_eq_some_iff.mp hread
  obtain ⟨fieldName, hfieldText, hread⟩ := Option.bind_eq_some_iff.mp hread
  obtain ⟨request, hrequest, hread⟩ := Option.bind_eq_some_iff.mp hread
  obtain ⟨response, hresponse, hread⟩ := Option.bind_eq_some_iff.mp hread
  obtain rfl := Option.some.inj hread
  rw [string?_eq_some_iff.mp htypeText] at htypeName
  rw [string?_eq_some_iff.mp hfieldText] at hfieldName
  exact ⟨properties, {
    type := ⟨type, htype, (Option.guard_eq_some' _).mp hguard⟩
    propertiesMember := hproperties
    dependsOn := rfl
    otherAttributes := rfl
    apiId := hapiId
    dataSourceName := rfl
    typeName := htypeName
    fieldName := hfieldName
    requestTemplate := hrequest
    responseTemplate := hresponse
    otherProperties := rfl }⟩

theorem Denoted.ofMembers?_eq {attributes properties : Entries Json} {r : Resolver}
    (hparts : Denoted attributes properties r) (h : Regular depth (.object attributes)) :
    ofMembers? attributes = some r := by
  obtain ⟨apiId, dataSourceName, typeName, fieldName, request, response, _, _, _⟩ := r
  obtain ⟨⟨type, htype, hisType⟩, hproperties, rfl, rfl, hapiId, rfl, htypeName, hfieldName, hrequest,
    hresponse, rfl⟩ := hparts
  rw [ofMembers?_of_regular h hproperties]
  rw [htype, hapiId, htypeName, hfieldName, hrequest, hresponse]
  dsimp only [Option.bind_eq_bind, Option.bind_some]
  rw [guard, if_pos hisType]
  rfl

end Resolver

/-! ## Fields and further members -/

/-- The members of an object with fields that may be missing and further members after them. -/
def written (fields : Entries (Option Json)) (others : Entries Json) : Entries Json :=
  fields.flatMap (fun field => memberIfAny field.1 field.2) ++ others

section Written

variable {fields : Entries (Option Json)} {others : Entries Json}

theorem written_cons (key : String) (v : Option Json) :
    written ((key, v) :: fields) others = memberIfAny key v ++ written fields others := by
  rw [written, List.flatMap_cons, List.append_assoc, written]

theorem sublist_names_written : (written fields others).names.Sublist (fields.names ++ others.names) := by
  induction fields with
  | nil => exact List.Sublist.refl _
  | cons field fields ih =>
    obtain ⟨key, v⟩ := field
    rw [written_cons]
    cases v with
    | none => exact ih.cons key
    | some w => exact ih.cons_cons key

theorem nodup_names_written (hfields : fields.names.Nodup) (hothers : others.names.Nodup)
    (hfresh : ∀ key ∈ fields.names, key ∉ others.names) : (written fields others).names.Nodup := by
  refine sublist_names_written.nodup (List.nodup_append.mpr ⟨hfields, hothers, ?_⟩)
  rintro key hkey other hother rfl
  exact hfresh key hkey hother

theorem get?_written (hfields : fields.names.Nodup) (hfresh : ∀ key ∈ fields.names, key ∉ others.names)
    (name : String) :
    (written fields others).get? name = (fields.get? name).getD (others.get? name) := by
  induction fields with
  | nil => rfl
  | cons field fields ih =>
    obtain ⟨key, v⟩ := field
    obtain ⟨hnew, hnodup⟩ := List.nodup_cons.mp hfields
    obtain ⟨hkey, hrest⟩ := List.forall_mem_cons.mp hfresh
    rw [written_cons, Entries.get?_cons]
    cases v with
    | some w =>
      rw [memberIfAny, Option.toList_some, List.map_singleton, List.singleton_append, Entries.get?_cons,
        ih hnodup hrest]
      split
      · rfl
      · rfl
    | none =>
      rw [memberIfAny, Option.toList_none, List.map_nil, List.nil_append, ih hnodup hrest]
      split
      · next heq =>
        subst heq
        rw [Entries.get?_eq_none_iff.mpr hnew, Option.getD_none, Option.getD_some]
        exact Entries.get?_eq_none_iff.mpr hkey
      · rfl

theorem filter_written (hfresh : ∀ key ∈ fields.names, key ∉ others.names) :
    (written fields others).filter (fun member => !fields.names.contains member.1) = others := by
  have hfields : (fields.flatMap fun field => memberIfAny field.1 field.2).filter
      (fun member => !fields.names.contains member.1) = [] := by
    refine List.filter_eq_nil_iff.mpr fun member hmember => ?_
    obtain ⟨field, hfield, hmember⟩ := List.mem_flatMap.mp hmember
    obtain ⟨v, _, rfl⟩ := List.mem_map.mp hmember
    have hmem : field.1 ∈ fields.names := List.mem_map_of_mem hfield
    simpa using hmem
  have hothers : others.filter (fun member => !fields.names.contains member.1) = others := by
    refine List.filter_eq_self.mpr fun member hmember => ?_
    simpa using fun hmem => hfresh _ hmem (List.mem_map_of_mem hmember)
  rw [written, List.filter_append, hfields, hothers, List.nil_append]

theorem fresh_filter (keys : List String) (members : Entries Json) :
    ∀ key ∈ keys, key ∉ Entries.names (members.filter fun member => !keys.contains member.1) := by
  intro key hkey hmem
  obtain ⟨member, hmember, rfl⟩ := List.mem_map.mp hmem
  have hother : member.1 ∉ keys := by simpa using (List.mem_filter.mp hmember).2
  exact hother hkey

/-- Fields and the other members are the members rewritten by a rule, if each field is what the rule makes of
its member and the rule keeps all others. -/
theorem sameMembers_written {members : Entries Json} {rule : String → Json → Option Json}
    (hfields : fields.names.Nodup) (hmembers : members.names.Nodup)
    (hrule : ∀ key, key ∉ fields.names → ∀ v, rule key v = some v)
    (h : ∀ field ∈ fields, Option.Rel SameUpToOrder field.2 ((members.get? field.1).bind (rule field.1))) :
    SameMembers (written fields (members.filter fun member => !fields.names.contains member.1))
      (Json.rewritten rule members) := by
  have hfresh := fresh_filter fields.names members
  have hothers : (Entries.names (members.filter fun member => !fields.names.contains member.1)).Nodup :=
    (List.filter_sublist.map Prod.fst).nodup hmembers
  refine Json.sameMembers_of_get? (nodup_names_written hfields hothers hfresh)
    ((Json.sublist_names_rewritten rule members).nodup hmembers) fun key => ?_
  rw [get?_written hfields hfresh, Json.get?_rewritten hmembers]
  cases hfield : fields.get? key with
  | some v => exact h _ (Entries.mem_of_get? hfield)
  | none =>
    have hkey : key ∉ fields.names := Entries.get?_eq_none_iff.mp hfield
    rw [Option.getD_none, Entries.get?_filter fun key => !fields.names.contains key,
      if_pos (by simpa using hkey)]
    cases members.get? key with
    | none => exact .none
    | some v =>
      rw [Option.bind_some, hrule key hkey]
      exact .some (.refl v)

end Written

namespace Resolver

/-- The attributes of a resolver with a meaning. -/
def attributes (r : Resolver) : Entries (Option Json) :=
  [("Type", some (.string resourceType)), ("Properties", some (.object r.propertyMembers)),
   ("DependsOn", r.dependsOn)]

/-- The properties of a resolver with a meaning. -/
def properties (r : Resolver) : Entries (Option Json) :=
  [("ApiId", some r.apiId), ("DataSourceName", r.dataSourceName), ("TypeName", some (.string r.typeName)),
   ("FieldName", some (.string r.fieldName)), ("RequestMappingTemplate", r.requestTemplate.map .string),
   ("ResponseMappingTemplate", r.responseTemplate.map .string)]

theorem nodup_names_attributes (r : Resolver) : r.attributes.names.Nodup :=
  show attributeKeys.Nodup by decide

theorem nodup_names_properties (r : Resolver) : r.properties.names.Nodup :=
  show propertyKeys.Nodup by decide

theorem members_eq_written (r : Resolver) : r.members = written r.attributes r.otherAttributes := by
  simp [members, written, attributes, memberIfAny]

theorem propertyMembers_eq_written (r : Resolver) :
    r.propertyMembers = written r.properties r.otherProperties := by
  simp [propertyMembers, written, properties, memberIfAny]

/-! ## Written again -/

theorem nonNull?_idempotent (v : Option Json) : nonNull? (nonNull? v) = nonNull? v := by
  cases v with
  | none => rfl
  | some w =>
    cases w with
    | null => rfl
    | _ => rfl

theorem bind_nonNull? (v : Option Json) : (v.bind fun w => nonNull? (some w)) = nonNull? v := by
  cases v with
  | none => rfl
  | some w => rfl

theorem map_string_of_optionalString? {v : Option Json} {s : Option String} (h : optionalString? v = some s) :
    s.map Json.string = nonNull? v := by
  cases v with
  | none =>
    obtain rfl := Option.some.inj h
    rfl
  | some w =>
    cases w with
    | null =>
      obtain rfl := Option.some.inj h
      rfl
    | string t =>
      obtain rfl := Option.some.inj h
      rfl
    | _ => cases h

theorem optionalString?_map_string (s : Option String) : optionalString? (s.map Json.string) = some s := by
  cases s with
  | none => rfl
  | some t => rfl

theorem plainName_of_isResourceType {v : Json} (h : isResourceType v = true) :
    plainName v = .string resourceType := by
  unfold isResourceType at h
  split at h
  · exact congrArg Json.string (eq_of_beq h)
  · exact congrArg Json.string (eq_of_beq h)
  · cases h

theorem rel_of_eq {v w : Option Json} (h : v = w) : Option.Rel SameUpToOrder v w := by
  subst h
  cases v with
  | none => exact .none
  | some v => exact .some (.refl v)

namespace Denoted

variable {attributes properties : List (String × Json)} {r : Resolver}

theorem sameMembers_propertyMembers (h : Denoted attributes properties r)
    (hproperties : (properties.map (·.1)).Nodup) :
    SameMembers r.propertyMembers (Json.rewritten tidiedProperty properties) := by
  rw [propertyMembers_eq_written, h.otherProperties]
  refine sameMembers_written r.nodup_names_properties hproperties ?_ ?_
  · intro key hkey v
    refine if_neg fun hmem => hkey ?_
    exact (show _ ⊆ propertyKeys by decide) hmem
  · simp only [Resolver.properties, List.forall_mem_cons]
    refine ⟨rel_of_eq ?_, rel_of_eq ?_, rel_of_eq ?_, rel_of_eq ?_, rel_of_eq ?_, rel_of_eq ?_,
      List.forall_mem_nil _⟩
    · rw [h.apiId]
      rfl
    · rw [h.dataSourceName]
      exact (bind_nonNull? _).symm
    · rw [h.typeName]
      rfl
    · rw [h.fieldName]
      rfl
    · rw [map_string_of_optionalString? h.requestTemplate]
      exact (bind_nonNull? _).symm
    · rw [map_string_of_optionalString? h.responseTemplate]
      exact (bind_nonNull? _).symm

/-- A resolver is written as its value was, tidied. -/
theorem sameMembers_members (h : Denoted attributes properties r) (hregular : Regular depth (.object attributes)) :
    SameMembers r.members (Json.rewritten tidiedAttribute attributes) := by
  obtain ⟨_, hproperties⟩ := hregular.get? h.propertiesMember
  rw [members_eq_written, h.otherAttributes]
  refine sameMembers_written r.nodup_names_attributes hregular.nodup_names ?_ ?_
  · intro key hkey v
    have hne : ∀ other ∈ attributeKeys, key ≠ other := by
      rintro other hother rfl
      exact hkey hother
    rw [tidiedAttribute, if_neg (hne "Type" (by decide)), if_neg (hne "Properties" (by decide)),
      if_neg (hne "DependsOn" (by decide))]
  · simp only [Resolver.attributes, List.forall_mem_cons]
    refine ⟨rel_of_eq ?_, ?_, rel_of_eq ?_, List.forall_mem_nil _⟩
    · obtain ⟨type, htype, hisType⟩ := h.type
      rw [htype, ← plainName_of_isResourceType hisType]
      rfl
    · rw [h.propertiesMember]
      exact .some (.object (h.sameMembers_propertyMembers hproperties.nodup_names))
    · rw [h.dependsOn]
      exact (bind_nonNull? _).symm

theorem ofMembers?_members (h : Denoted attributes properties r) (hregular : Regular depth (.object attributes)) :
    ofMembers? r.members = some r := by
  have hwritten : Regular depth (.object r.members) :=
    (SameUpToOrder.object (h.sameMembers_members hregular)).regular (hregular.rewritten regular_tidiedAttribute)
  have hfreshAttributes : ∀ key ∈ r.attributes.names, key ∉ r.otherAttributes.names :=
    h.otherAttributes ▸ fresh_filter attributeKeys attributes
  have hfreshProperties : ∀ key ∈ r.properties.names, key ∉ r.otherProperties.names :=
    h.otherProperties ▸ fresh_filter propertyKeys properties
  have hattribute := get?_written r.nodup_names_attributes hfreshAttributes
  have hproperty := get?_written r.nodup_names_properties hfreshProperties
  rw [← members_eq_written] at hattribute
  rw [← propertyMembers_eq_written] at hproperty
  have hdenoted : Denoted r.members r.propertyMembers r := {
    type := ⟨.string resourceType, hattribute "Type", by decide⟩
    propertiesMember := hattribute "Properties"
    dependsOn := by
      rw [hattribute]
      change r.dependsOn = nonNull? r.dependsOn
      rw [h.dependsOn, nonNull?_idempotent]
    otherAttributes := by
      rw [members_eq_written]
      exact (filter_written hfreshAttributes).symm
    apiId := hproperty "ApiId"
    dataSourceName := by
      rw [hproperty]
      change r.dataSourceName = nonNull? r.dataSourceName
      rw [h.dataSourceName, nonNull?_idempotent]
    typeName := hproperty "TypeName"
    fieldName := hproperty "FieldName"
    requestTemplate := by
      rw [hproperty]
      exact optionalString?_map_string r.requestTemplate
    responseTemplate := by
      rw [hproperty]
      exact optionalString?_map_string r.responseTemplate
    otherProperties := by
      rw [propertyMembers_eq_written]
      exact (filter_written hfreshProperties).symm }
  exact hdenoted.ofMembers?_eq hwritten

end Denoted

end Resolver

/-! ## Resources -/

namespace Resource

variable {v : Json}

theorem ofJson_cases (h : Regular depth v) :
    (∃ attributes properties r, v = .object attributes ∧ Resolver.Denoted attributes properties r ∧
      ofJson v = .resolver r) ∨ ofJson v = .other v := by
  cases v with
  | object attributes =>
    cases hread : Resolver.ofMembers? attributes with
    | none =>
      refine Or.inr ?_
      rw [ofJson, hread]
      exact congrArg Resource.other h.settled
    | some r =>
      obtain ⟨properties, hparts⟩ := Resolver.denoted_of_ofMembers? h hread
      refine Or.inl ⟨attributes, properties, r, rfl, hparts, ?_⟩
      rw [ofJson, hread]
  | _ => exact Or.inr (congrArg Resource.other h.settled)

/-- What a resource is written as is the value it was read from, tidied. -/
theorem same_toJson (h : Regular depth v) : SameUpToOrder (ofJson v).toJson (tidied v) := by
  rcases ofJson_cases h with ⟨attributes, properties, r, rfl, hparts, hread⟩ | hread
  · rw [tidied, hread]
    exact .object (hparts.sameMembers_members h)
  · rw [tidied, hread]
    exact .refl v

/-- A resource that is read from a value and written is read as the same resource. -/
theorem ofJson_toJson (h : Regular depth v) : ofJson (ofJson v).toJson = ofJson v := by
  rcases ofJson_cases h with ⟨attributes, properties, r, rfl, hparts, hread⟩ | hread
  · rw [hread, toJson, ofJson, hparts.ofMembers?_members h]
  · rw [hread, toJson, hread]

end Resource

end AuditFields
