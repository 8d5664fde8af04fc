import AuditFields.Proofs.Json.Order
import AuditFields.Stack.Reader

/-!
# Stacks as they are written

What becomes of the value of a stack when it is written again, apart from the order of members
(`Stack.tidied`): missing resources are there as an empty object, and in a resource that is a resolver a
type in the form of an object becomes the plain name and a null is left out where there may be nothing.
Every other value stays under its key.
-/

namespace AuditFields

open Json (Regular)

namespace Json

/-- The value with the members rewritten, if it is an object. -/
def withMembers (f : List (String × Json) → List (String × Json)) : Json → Json
  | .object members => .object (f members)
  | other => other

/-- The members with each value as the rule for its key has it, or left out. -/
def rewritten (rule : String → Json → Option Json) (members : List (String × Json)) : List (String × Json) :=
  members.filterMap fun member => (rule member.1 member.2).map (member.1, ·)

end Json

/-! ## Tidying -/

namespace Resolver

/-- The name in place of the object that has the name as its only key, with the null value. -/
def plainName : Json → Json
  | .object [(name, .null)] => .string name
  | other => other

/-- A property: no null where there may be nothing. -/
def tidiedProperty (key : String) (v : Json) : Option Json :=
  if key ∈ ["DataSourceName", "RequestMappingTemplate", "ResponseMappingTemplate"] then nonNull? (some v)
  else some v

/-- An attribute: the plain name of the type, tidied properties, and no null for the dependencies. -/
def tidiedAttribute (key : String) (v : Json) : Option Json :=
  if key = "Type" then some (plainName v)
  else if key = "Properties" then some (v.withMembers (Json.rewritten tidiedProperty))
  else if key = "DependsOn" then nonNull? (some v)
  else some v

end Resolver

/-- A resource, tidied if it is read as a resolver. -/
def Resource.tidied (v : Json) : Json :=
  match Resource.ofJson v with
  | .resolver _ => v.withMembers (Json.rewritten Resolver.tidiedAttribute)
  | .other _ => v

namespace Stack

/-- The members with an empty object for missing resources. -/
def withResources (members : List (String × Json)) : List (String × Json) :=
  if Entries.contains members resourcesKey then members else (resourcesKey, .object []) :: members

/-- A part of a stack: of the resources, each one tidied. -/
def tidiedPart (key : String) (v : Json) : Option Json :=
  if key = resourcesKey then some (v.withMembers (Json.rewritten fun _ resource => some (Resource.tidied resource)))
  else some v

/-- The value of a stack as it is written again, apart from the order of members. -/
def tidied : Json → Json :=
  Json.withMembers fun members => Json.rewritten tidiedPart (withResources members)

end Stack

/-! ## Members by key -/

namespace Json

variable {rule : String → Json → Option Json} {members : List (String × Json)}

theorem rewritten_cons (key : String) (v : Json) :
    rewritten rule ((key, v) :: members) =
      (rule key v).toList.map (key, ·) ++ rewritten rule members := by
  cases hrule : rule key v with
  | none => rw [rewritten, List.filterMap_cons_none (by rw [hrule]; rfl)]; rfl
  | some w => rw [rewritten, List.filterMap_cons_some (by rw [hrule]; rfl)]; rfl

theorem sublist_names_rewritten (rule : String → Json → Option Json) (members : List (String × Json)) :
    ((rewritten rule members).map (·.1)).Sublist (members.map (·.1)) := by
  induction members with
  | nil => exact .slnil
  | cons member members ih =>
    obtain ⟨key, v⟩ := member
    rw [rewritten_cons]
    cases rule key v with
    | none => exact ih.cons key
    | some w => exact ih.cons_cons key

theorem get?_rewritten (h : (members.map (·.1)).Nodup) (key : String) :
    Entries.get? (rewritten rule members) key = (Entries.get? members key).bind (rule key) := by
  induction members with
  | nil => rfl
  | cons member members ih =>
    obtain ⟨name, v⟩ := member
    obtain ⟨hfresh, hrest⟩ := List.nodup_cons.mp h
    rw [rewritten_cons, Entries.get?_cons]
    by_cases hname : name = key
    · subst hname
      have hmissing : Entries.get? (rewritten rule members) name = none :=
        Entries.get?_eq_none_iff.mpr fun hmem => hfresh ((sublist_names_rewritten rule members).subset hmem)
      rw [if_pos rfl, Option.bind_some]
      cases rule name v with
      | none => exact hmissing
      | some w => exact (Entries.get?_cons _ _ _ _).trans (if_pos rfl)
    · rw [if_neg hname, ← ih hrest]
      cases rule name v with
      | none => rfl
      | some w => exact (Entries.get?_cons _ _ _ _).trans (if_neg hname)

/-! ## Regular values -/

theorem Regular.withMembers {depth : Nat} {v : Json} {f : List (String × Json) → List (String × Json)}
    (hf : ∀ {depth : Nat} {members : List (String × Json)}, Regular depth (.object members) →
      Regular depth (.object (f members)))
    (h : Regular depth v) : Regular depth (v.withMembers f) := by
  cases v with
  | object members => exact hf h
  | _ => exact h

theorem Regular.rewritten {depth : Nat}
    (hrule : ∀ {depth : Nat} {key : String} {v w : Json}, Regular depth v → rule key v = some w →
      Regular depth w)
    (h : Regular depth (.object members)) : Regular depth (.object (rewritten rule members)) := by
  cases h with
  | object hnames hmembers =>
    refine .object ((sublist_names_rewritten rule members).nodup hnames) fun member hmember => ?_
    obtain ⟨⟨key, v⟩, hmem, hrewritten⟩ := List.mem_filterMap.mp hmember
    obtain ⟨w, hw, rfl⟩ := Option.map_eq_some_iff.mp hrewritten
    exact hrule (hmembers _ hmem) hw

end Json

theorem nonNull?_eq_some {v w : Json} (h : nonNull? (some v) = some w) : w = v := by
  cases v with
  | null => cases h
  | _ => exact (Option.some.inj h).symm

theorem Resolver.regular_plainName {depth : Nat} {v : Json} (h : Regular depth v) : Regular depth (plainName v) := by
  unfold plainName
  split
  · exact .string _
  · exact h

theorem Resolver.regular_tidiedProperty {depth : Nat} {key : String} {v w : Json} (h : Regular depth v)
    (hw : tidiedProperty key v = some w) : Regular depth w := by
  rw [tidiedProperty] at hw
  split at hw
  · exact nonNull?_eq_some hw ▸ h
  · exact Option.some.inj hw ▸ h

theorem Resolver.regular_tidiedAttribute {depth : Nat} {key : String} {v w : Json} (h : Regular depth v)
    (hw : tidiedAttribute key v = some w) : Regular depth w := by
  rw [tidiedAttribute] at hw
  split at hw
  · exact Option.some.inj hw ▸ regular_plainName h
  split at hw
  · exact Option.some.inj hw ▸ h.withMembers fun h => h.rewritten regular_tidiedProperty
  split at hw
  · exact nonNull?_eq_some hw ▸ h
  · exact Option.some.inj hw ▸ h

theorem Resource.regular_tidied {depth : Nat} {v : Json} (h : Regular depth v) : Regular depth (tidied v) := by
  unfold tidied
  split
  · exact h.withMembers fun h => h.rewritten Resolver.regular_tidiedAttribute
  · exact h

namespace Stack

theorem regular_tidiedPart {depth : Nat} {key : String} {v w : Json} (h : Regular depth v)
    (hw : tidiedPart key v = some w) : Regular depth w := by
  rw [tidiedPart] at hw
  split at hw
  · refine Option.some.inj hw ▸ h.withMembers fun h => h.rewritten fun h hw => ?_
    exact Option.some.inj hw ▸ Resource.regular_tidied h
  · exact Option.some.inj hw ▸ h

theorem regular_withResources {depth : Nat} {members : List (String × Json)}
    (h : Regular (depth + 2) (.object members)) : Regular (depth + 2) (.object (withResources members)) := by
  unfold withResources
  split
  · exact h
  · next hmissing =>
    have hnone : Entries.get? members resourcesKey = none :=
      Option.not_isSome_iff_eq_none.mp hmissing
    cases h with
    | object hnames hmembers =>
      refine .object (List.nodup_cons.mpr ⟨Entries.get?_eq_none_iff.mp hnone, hnames⟩) ?_
      exact List.forall_mem_cons.mpr ⟨.object List.nodup_nil nofun, hmembers⟩

theorem regular_tidied {depth : Nat} {v : Json} (h : Regular (depth + 2) v) : Regular (depth + 2) (tidied v) := by
  cases v with
  | object members => exact (regular_withResources h).rewritten regular_tidiedPart
  | _ => exact h

end Stack

end AuditFields
