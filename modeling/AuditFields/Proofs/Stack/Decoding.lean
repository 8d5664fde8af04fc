import AuditFields.Proofs.Json.Parts
import AuditFields.Proofs.Result
import AuditFields.Stack.Reader

/-!
# The stack of a value

A stack is read while its text is, member by member. The same stack comes from the value of the text: each
member that the text has is taken in turn (`ofMembers?`, **`ofText_eq_ok_iff`**). With different keys that
gives the members apart from the resources as they are, and each resource as its value denotes it
(`parts_of_ofMembers?`).
-/

namespace AuditFields.Stack

open Json (Reader Reads)
open Json.Reader (foldMembers)

/-! ## Folding -/

/-- The resources that members denote. -/
def resourcesOf (members : List (String × Json)) : Entries Resource :=
  Entries.ofPairs (members.map fun member => (member.1, Resource.ofJson member.2))

/-- The parts of a stack with one more member of the value. -/
def withMember (key : String) (v : Json) (parts : Parts) : Option Parts :=
  if key = resourcesKey then
    if parts.resources.isSome then none
    else v.members?.map fun members => { parts with resources := some (resourcesOf members) }
  else some { parts with others := parts.others.put key v.settled }

/-- The stack that the members of a value denote. -/
def ofMembers? (members : List (String × Json)) : Option Stack :=
  (foldMembers withMember members {}).map fun parts =>
    { resources := parts.resources.getD [], others := parts.others }

theorem folds_resourceMember : Json.Reader.Folds (Json.maxDepth - 2) resourceMember
    fun id v resources => some (Entries.put id (Resource.ofJson v) resources) :=
  Json.Reader.folds_value fun id v resources => Entries.put id (Resource.ofJson v) resources

theorem foldMembers_resourceMember (members : List (String × Json)) :
    foldMembers (fun id v resources => some (Entries.put id (Resource.ofJson v) resources)) members [] =
      some (resourcesOf members) := by
  rw [Json.Reader.foldMembers_some, resourcesOf, Entries.ofPairs, List.foldl_map]

theorem reads_resources_iff {parts after : Parts} {cs rest : List Char} :
    Reads (do
        Reader.expect ':'
        return { parts with resources := some (← Reader.object "a map" resourceMember []) }) cs after rest ↔
      ∃ members, Reads (Json.Reader.memberValue (Json.maxDepth - 1)) cs (.object members) rest ∧
        after = { parts with resources := some (resourcesOf members) } := by
  constructor
  · intro h
    obtain ⟨_, mid, hcolon, hrest⟩ := Json.reads_bind.mp h
    obtain ⟨resources, _, hobject, hpure⟩ := Json.reads_bind.mp hrest
    obtain ⟨rfl, rfl⟩ := Json.reads_pure.mp hpure
    obtain ⟨members, hread, hfold⟩ := (Json.reads_object_value_iff folds_resourceMember).mp hobject
    rw [foldMembers_resourceMember] at hfold
    obtain rfl := Option.some.inj hfold
    exact ⟨members, Json.reads_bind.mpr ⟨_, mid, hcolon, hread⟩, rfl⟩
  · rintro ⟨members, hmember, rfl⟩
    obtain ⟨_, mid, hcolon, hread⟩ := Json.reads_bind.mp hmember
    refine Json.reads_bind.mpr ⟨_, mid, hcolon, Json.reads_bind.mpr ⟨_, rest, ?_, rfl⟩⟩
    exact (Json.reads_object_value_iff folds_resourceMember).mpr
      ⟨members, hread, foldMembers_resourceMember members⟩

theorem withMember_resources_eq_some_iff {v : Json} {parts after : Parts} :
    withMember resourcesKey v parts = some after ↔
      parts.resources = none ∧
        ∃ members, v = .object members ∧ after = { parts with resources := some (resourcesOf members) } := by
  rw [withMember, if_pos rfl]
  cases hresources : parts.resources with
  | some resources => simp
  | none =>
    rw [if_neg (by simp), Option.map_eq_some_iff]
    simp only [Json.members?_eq_some_iff, true_and]
    constructor
    · rintro ⟨members, rfl, rfl⟩
      exact ⟨members, rfl, rfl⟩
    · rintro ⟨members, rfl, rfl⟩
      exact ⟨members, rfl, rfl⟩

theorem folds_member : Json.Reader.Folds (Json.maxDepth - 1) member withMember := by
  intro key parts after cs rest
  by_cases hkey : key = resourcesKey
  · subst hkey
    simp only [withMember_resources_eq_some_iff]
    rw [member, if_pos rfl]
    cases hresources : parts.resources with
    | some resources =>
      -- the second time that the resources come is refused before their text is looked at
      exact iff_of_false Json.not_reads_throw fun ⟨_, _, hnone, _⟩ => nomatch hnone
    | none =>
      refine Iff.trans reads_resources_iff ?_
      constructor
      · rintro ⟨members, hread, hafter⟩
        exact ⟨_, hread, rfl, members, rfl, hafter⟩
      · rintro ⟨_, hread, _, members, rfl, hafter⟩
        exact ⟨members, hread, hafter⟩
  · have hother : ∀ v, withMember key v parts =
        some { parts with others := parts.others.put key v.settled } := fun v => if_neg hkey
    simp only [hother]
    rw [member, if_neg hkey]
    exact Json.Reader.folds_value fun key v (parts : Parts) =>
      { parts with others := parts.others.put key v.settled }

theorem ofText_eq_ok_iff {text : String} {stack : Stack} :
    ofText text = .ok stack ↔
      ∃ members, Json.ofTextRaw text = .ok (.object members) ∧ ofMembers? members = some stack := by
  have hwhole : ∀ {parts : Parts},
      Reader.whole (Reader.object "struct StackTemplate" member {}) text = .ok parts ↔
        ∃ members, Json.ofTextRaw text = .ok (.object members) ∧
          foldMembers withMember members {} = some parts := by
    intro parts
    simp only [Json.ofTextRaw, Json.whole_eq_ok_iff, Json.reads_object_value_iff folds_member]
    constructor
    · rintro ⟨rest, ⟨members, hread, hfold⟩, hspace⟩
      exact ⟨members, ⟨rest, hread, hspace⟩, hfold⟩
    · rintro ⟨members, ⟨rest, hread, hspace⟩, hfold⟩
      exact ⟨rest, ⟨members, hread, hfold⟩, hspace⟩
  simp only [ofText, Except.bind_eq_ok_iff, hwhole, ofMembers?, Option.map_eq_some_iff]
  constructor
  · rintro ⟨parts, ⟨members, hread, hfold⟩, ⟨⟩⟩
    exact ⟨members, hread, parts, hfold, rfl⟩
  · rintro ⟨members, hread, parts, hfold, rfl⟩
    exact ⟨parts, ⟨members, hread, hfold⟩, rfl⟩

/-! ## Different keys -/

theorem foldMembers_withMember_of_not_mem {members : List (String × Json)} {parts : Parts}
    (h : resourcesKey ∉ members.map (·.1)) :
    foldMembers withMember members parts =
      some { parts with
        others := Entries.putAll (Json.settledMembers members) parts.others } := by
  induction members generalizing parts with
  | nil => rfl
  | cons member members ih =>
    rw [List.map_cons, List.mem_cons, not_or] at h
    refine Json.Reader.foldMembers_cons.mpr ⟨_, if_neg (Ne.symm h.1), ?_⟩
    rw [ih h.2]
    rfl

theorem ofMembers?_cons (resources : List (String × Json)) {others : List (String × Json)}
    (h : resourcesKey ∉ others.map (·.1)) :
    ofMembers? ((resourcesKey, .object resources) :: others) =
      some { resources := resourcesOf resources, others := Entries.ofPairs (Json.settledMembers others) } := by
  have hfold : foldMembers withMember ((resourcesKey, .object resources) :: others) {} =
      some { resources := some (resourcesOf resources),
             others := Entries.ofPairs (Json.settledMembers others) } := by
    have hfirst : withMember resourcesKey (.object resources) {} =
        some { resources := some (resourcesOf resources), others := [] } :=
      withMember_resources_eq_some_iff.mpr ⟨rfl, resources, rfl, rfl⟩
    refine Json.Reader.foldMembers_cons.mpr ⟨_, hfirst, ?_⟩
    rw [foldMembers_withMember_of_not_mem h]
    rfl
  rw [ofMembers?, hfold]
  rfl

theorem foldMembers_append {before after : List (String × Json)} {parts last : Parts} :
    foldMembers withMember (before ++ after) parts = some last ↔
      ∃ mid, foldMembers withMember before parts = some mid ∧ foldMembers withMember after mid = some last := by
  rw [foldMembers, List.foldlM_append]
  exact Option.bind_eq_some_iff

theorem filter_of_not_mem {key : String} {members : List (String × Json)} (h : key ∉ members.map (·.1)) :
    (members.filter fun member => !([key].contains member.1)) = members := by
  refine List.filter_eq_self.mpr fun member hmember => ?_
  have hne : member.1 ≠ key := fun heq => h (List.mem_map.mpr ⟨member, hmember, heq⟩)
  simpa using hne

/-- What a stack is made of, where the keys differ: the resources, none if they are missing, and every other
member. -/
theorem parts_of_ofMembers? {members : List (String × Json)} {stack : Stack}
    (hnames : (members.map (·.1)).Nodup) (h : ofMembers? members = some stack) :
    (∃ resources, (Entries.get? members resourcesKey).getD (.object []) = .object resources ∧
      stack.resources = resourcesOf resources) ∧
    stack.others = otherMembers [resourcesKey] members := by
  obtain ⟨parts, hfold, rfl⟩ := Option.map_eq_some_iff.mp h
  by_cases hmem : resourcesKey ∈ members.map (·.1)
  · obtain ⟨⟨key, v⟩, hmember, hkey⟩ := List.mem_map.mp hmem
    obtain rfl : key = resourcesKey := hkey
    have hfound := Entries.get?_of_mem hnames hmember
    obtain ⟨before, after, rfl⟩ := List.append_of_mem hmember
    rw [List.map_append, List.map_cons, List.nodup_append] at hnames
    obtain ⟨_, hafter, hdiffer⟩ := hnames
    have hbefore : resourcesKey ∉ before.map (·.1) := fun hmem =>
      hdiffer _ hmem _ List.mem_cons_self rfl
    have hrest : resourcesKey ∉ after.map (·.1) := (List.nodup_cons.mp hafter).1
    have hothers : ((before ++ (resourcesKey, v) :: after).filter fun member =>
        !([resourcesKey].contains member.1)) = before ++ after := by
      rw [List.filter_append, List.filter_cons_of_neg (by simp), filter_of_not_mem hbefore,
        filter_of_not_mem hrest]
    obtain ⟨mid, hmid, hlast⟩ := foldMembers_append.mp hfold
    obtain ⟨next, hnext, hlast⟩ := Json.Reader.foldMembers_cons.mp hlast
    rw [foldMembers_withMember_of_not_mem hbefore] at hmid
    obtain rfl := Option.some.inj hmid
    obtain ⟨_, resources, rfl, rfl⟩ := withMember_resources_eq_some_iff.mp hnext
    rw [foldMembers_withMember_of_not_mem hrest] at hlast
    obtain rfl := Option.some.inj hlast
    refine ⟨⟨resources, by rw [hfound]; rfl, rfl⟩, ?_⟩
    rw [otherMembers, hothers, Json.settledMembers_eq_map, Json.settledMembers_eq_map,
      Json.settledMembers_eq_map, List.map_append]
    exact List.foldl_append.symm
  · rw [foldMembers_withMember_of_not_mem hmem] at hfold
    obtain rfl := Option.some.inj hfold
    refine ⟨⟨[], by rw [Entries.get?_eq_none_iff.mpr hmem]; rfl, rfl⟩, ?_⟩
    rw [otherMembers, filter_of_not_mem hmem]
    rfl

end AuditFields.Stack
