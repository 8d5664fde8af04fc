import AuditFields.Proofs.Stack.Decoding
import AuditFields.Proofs.Stack.Resolvers

/-!
# The round trip of stacks

A stack that a text denotes is written as a text that denotes the same stack, and the value written is the
value of the text up to the order of members and the tidying of resolvers
(**`ofText_indented`**). The keys of the text have to differ, and its floats have to be read back
from the digits they are written with.
-/

namespace AuditFields.Stack

open Json (Regular SameUpToOrder SameMembers)

variable {depth : Nat} {members : List (String × Json)} {stack : Stack}

theorem resourcesOf_of_nodup (h : (members.map (·.1)).Nodup) :
    resourcesOf members = members.map fun member => (member.1, Resource.ofJson member.2) := by
  refine Entries.ofPairs_of_nodup ?_
  rw [List.map_map]
  exact h

theorem get?_withResources (members : List (String × Json)) :
    Entries.get? (withResources members) resourcesKey =
      some ((Entries.get? members resourcesKey).getD (.object [])) := by
  unfold withResources Entries.contains
  cases hfound : Entries.get? members resourcesKey with
  | none => exact (Entries.get?_cons _ _ _ _).trans (if_pos rfl)
  | some v => exact hfound

theorem filter_withResources (members : List (String × Json)) :
    ((withResources members).filter fun member => !([resourcesKey].contains member.1)) =
      members.filter fun member => !([resourcesKey].contains member.1) := by
  unfold withResources
  split
  · rfl
  · exact List.filter_cons_of_neg (by simp)

theorem rewritten_some (f : Json → Json) (members : List (String × Json)) :
    Json.rewritten (fun _ v => some (f v)) members = members.map fun member => (member.1, f member.2) :=
  congrFun (List.filterMap_eq_map (f := fun member : String × Json => (member.1, f member.2))) members

theorem exists_resources (h : Regular (depth + 2) (.object members)) (hread : ofMembers? members = some stack) :
    ∃ resources, (Entries.get? members resourcesKey).getD (.object []) = .object resources ∧
      (∃ below, Regular below (.object resources)) ∧
      stack.resources = resources.map (fun member => (member.1, Resource.ofJson member.2)) ∧
      stack.others = members.filter fun member => !([resourcesKey].contains member.1) := by
  obtain ⟨⟨resources, hvalue, hresources⟩, hothers⟩ := parts_of_ofMembers? h.nodup_names hread
  have hregular : ∃ below, Regular below (.object resources) := by
    cases hfound : Entries.get? members resourcesKey with
    | none =>
      rw [hfound] at hvalue
      exact hvalue ▸ ⟨1, .object List.nodup_nil nofun⟩
    | some v =>
      rw [hfound] at hvalue
      exact hvalue ▸ h.get? hfound
  obtain ⟨_, hresourcesRegular⟩ := hregular
  refine ⟨resources, hvalue, ⟨_, hresourcesRegular⟩, ?_, ?_⟩
  · rw [hresources, resourcesOf_of_nodup hresourcesRegular.nodup_names]
  · rw [hothers, otherMembers_of_regular h]

/-- The part of a stack with a meaning, as a field that is there always. -/
def fields (stack : Stack) : Entries (Option Json) :=
  [(resourcesKey, some (.object (stack.resources.map fun entry => (entry.1, entry.2.toJson))))]

theorem toJson_eq_written (stack : Stack) : stack.toJson = .object (written stack.fields stack.others) := rfl

theorem nodup_names_fields (stack : Stack) : stack.fields.names.Nodup :=
  show [resourcesKey].Nodup by decide

theorem sameMembers_resources {resources : List (String × Json)} (h : Regular depth (.object resources)) :
    SameMembers (resources.map fun member => (member.1, (Resource.ofJson member.2).toJson))
      (Json.rewritten (fun _ v => some (Resource.tidied v)) resources) := by
  rw [rewritten_some]
  cases h with
  | object _ hmembers =>
    exact Json.sameMembers_map (f := fun v => (Resource.ofJson v).toJson) fun member hmember =>
      Resource.same_toJson (hmembers member hmember)

theorem same_toJson (h : Regular (depth + 2) (.object members)) (hread : ofMembers? members = some stack) :
    SameUpToOrder stack.toJson (tidied (.object members)) := by
  obtain ⟨resources, hvalue, ⟨_, hregular⟩, hresources, hothers⟩ := exists_resources h hread
  rw [toJson_eq_written, hothers, ← filter_withResources]
  refine .object (sameMembers_written stack.nodup_names_fields (regular_withResources h).nodup_names ?_ ?_)
  · intro key hkey v
    refine if_neg ?_
    rintro rfl
    exact hkey List.mem_cons_self
  · refine List.forall_mem_cons.mpr ⟨?_, nofun⟩
    rw [get?_withResources, hvalue, hresources, List.map_map]
    exact .some (.object (sameMembers_resources hregular))

theorem ofMembers?_written (h : Regular (depth + 2) (.object members)) (hread : ofMembers? members = some stack) :
    ofMembers? (written stack.fields stack.others) = some stack := by
  obtain ⟨resources, _, ⟨_, hregular⟩, hresources, hothers⟩ := exists_resources h hread
  have hfresh : resourcesKey ∉ stack.others.map (·.1) := by
    rw [hothers]
    exact fresh_filter [resourcesKey] members resourcesKey List.mem_cons_self
  have hkept : Entries.ofPairs (Json.settledMembers stack.others) = stack.others := by
    rw [hothers]
    exact (h.filter _).ofPairs_settledMembers
  have hagain : resourcesOf (stack.resources.map fun entry => (entry.1, entry.2.toJson)) = stack.resources := by
    have hnames : ((stack.resources.map fun entry => (entry.1, entry.2.toJson)).map (·.1)).Nodup := by
      rw [hresources, List.map_map, List.map_map]
      exact hregular.nodup_names
    rw [resourcesOf_of_nodup hnames, hresources, List.map_map, List.map_map]
    refine List.map_congr_left fun member hmember => ?_
    cases hregular with
    | object _ hmembers => exact Prod.ext rfl (Resource.ofJson_toJson (hmembers member hmember))
  have hwritten := ofMembers?_cons (stack.resources.map fun entry => (entry.1, entry.2.toJson)) hfresh
  rw [hagain, hkept] at hwritten
  exact hwritten

/-- **A stack is read back from its indented text, and nothing of the text it was read from is lost.** Where no
object of the text holds a key twice and its floats are read back, the text written denotes the same stack, and
its value is the value of the text, tidied, up to the order of members. -/
theorem ofText_indented {text : String} (h : ofText text = .ok stack) :
    ∃ v, Json.ofTextRaw text = .ok v ∧
      (v.distinctKeys = true → (∀ x ∈ v.floats, Json.ReadsBack x) →
        ofText stack.toJson.indented = .ok stack ∧
        Json.ofTextRaw stack.toJson.indented = .ok stack.toJson ∧
        SameUpToOrder stack.toJson (tidied v)) := by
  obtain ⟨members, hvalue, hread⟩ := ofText_eq_ok_iff.mp h
  refine ⟨.object members, hvalue, fun hkeys hfloats => ?_⟩
  obtain ⟨rest, htext, _⟩ := Json.whole_eq_ok_iff.mp hvalue
  have hregular : Regular (125 + 2) (.object members) := Json.regular_of_reads_value htext hkeys hfloats
  have hsame := same_toJson hregular hread
  have hwritten := Json.ofTextRaw_indented (hsame.regular (regular_tidied hregular))
  exact ⟨ofText_eq_ok_iff.mpr ⟨_, hwritten, ofMembers?_written hregular hread⟩, hwritten, hsame⟩

/-! ## A stack with all that is tidied -/

/-- A resolver with its type as an object, nulls where there may be nothing, and nulls elsewhere. -/
def untidyAttributes : List (String × Json) :=
  [("Properties", .object [
      ("Kind", .string "UNIT"), ("ApiId", .null), ("TypeName", .string "Mutation"),
      ("FieldName", .string "createPost"), ("DataSourceName", .null),
      ("ResponseMappingTemplate", .string "$ctx.result")]),
   ("Type", .object [("AWS::AppSync::Resolver", .null)]), ("DependsOn", .null), ("Condition", .null)]

/-- The members of a stack with the untidy resolver, a resource without what a resolver needs, and a number. -/
def untidyMembers : List (String × Json) :=
  [("Weight", .float (.ofDecimal false 25 (-1))),
   ("Resources", .object [
      ("Create", .object untidyAttributes),
      ("Other", .object [("Type", .string "AWS::AppSync::Resolver"), ("DependsOn", .null)])])]

def untidyStack : Stack where
  resources :=
    [("Create", .resolver {
        apiId := .null
        dataSourceName := none
        typeName := "Mutation"
        fieldName := "createPost"
        requestTemplate := none
        responseTemplate := some "$ctx.result"
        otherProperties := [("Kind", .string "UNIT")]
        otherAttributes := [("Condition", .null)] }),
     ("Other", .other (.object [("Type", .string "AWS::AppSync::Resolver"), ("DependsOn", .null)]))]
  others := [("Weight", .float (.ofDecimal false 25 (-1)))]

theorem readsBack_untidyMembers : ∀ x ∈ (Json.object untidyMembers).floats, Json.ReadsBack x := by
  have hfloats : (Json.object untidyMembers).floats = [.ofDecimal false 25 (-1)] := by decide +kernel
  rw [hfloats, List.forall_mem_singleton]
  change _ = _
  decide +kernel

theorem regular_untidyAttributes : Regular (depth + 2) (.object untidyAttributes) := by
  refine .object (by decide) ?_
  simp only [untidyAttributes, List.forall_mem_cons]
  refine ⟨.object (by decide) ?_, .object (by decide) ?_, .null, .null, List.forall_mem_nil _⟩
  · simp only [List.forall_mem_cons]
    exact ⟨.string _, .null, .string _, .string _, .null, .string _, List.forall_mem_nil _⟩
  · exact List.forall_mem_singleton.mpr .null

theorem regular_untidyMembers : Regular Json.maxDepth (.object untidyMembers) := by
  have hweight := readsBack_untidyMembers (.ofDecimal false 25 (-1)) (by decide +kernel)
  have hother : Regular 125 (.object [("Type", .string "AWS::AppSync::Resolver"), ("DependsOn", .null)]) :=
    .object (by decide) (List.forall_mem_cons.mpr ⟨.string _, List.forall_mem_singleton.mpr .null⟩)
  refine .object (by decide) (List.forall_mem_cons.mpr ⟨.float hweight, List.forall_mem_singleton.mpr ?_⟩)
  refine .object (by decide) (List.forall_mem_cons.mpr ⟨?_, List.forall_mem_singleton.mpr hother⟩)
  exact regular_untidyAttributes

theorem ofText_indented_untidy :
    ofText (Json.object untidyMembers).indented = .ok untidyStack ∧
    (Json.object untidyMembers).distinctKeys = true ∧
    (∀ x ∈ (Json.object untidyMembers).floats, Json.ReadsBack x) ∧
    ofText untidyStack.toJson.indented = .ok untidyStack ∧
    Json.ofTextRaw untidyStack.toJson.indented = .ok untidyStack.toJson ∧
    SameUpToOrder untidyStack.toJson (tidied (.object untidyMembers)) := by
  have hvalue := Json.ofTextRaw_indented regular_untidyMembers
  have hread : ofText (Json.object untidyMembers).indented = .ok untidyStack :=
    ofText_eq_ok_iff.mpr ⟨untidyMembers, hvalue, by decide +kernel⟩
  have hkeys : (Json.object untidyMembers).distinctKeys = true := by decide +kernel
  obtain ⟨v, hv, hround⟩ := ofText_indented hread
  obtain rfl := Except.ok.inj (hvalue.symm.trans hv)
  exact ⟨hread, hkeys, readsBack_untidyMembers, hround hkeys readsBack_untidyMembers⟩

end AuditFields.Stack
