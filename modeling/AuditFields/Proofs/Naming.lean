import AuditFields.Naming

/-!
# Generated names do not collide

The name of an artifact starts with a letter of its kind, whatever the type. So among artifacts with
different first letters (`Apart`), the name says which artifact it is, and of which type.
-/

namespace AuditFields.Artifact

/-- The first letter of every name of the artifact, unless its names start with that of the type. -/
def initial (artifact : Artifact) : Option Char :=
  artifact.front.toList.head?

theorem head?_nameFor {artifact : Artifact} {letter : Char} (h : artifact.initial = some letter)
    (type : String) : (artifact.nameFor type).toList.head? = some letter := by
  rw [nameFor, String.toList_append, String.toList_append, List.append_assoc, List.head?_append,
    ← initial, h]
  rfl

theorem nameFor_ne_self {artifact : Artifact} (h : artifact.initial.isSome) (type : String) :
    artifact.nameFor type ≠ type := by
  intro heq
  have hlength := congrArg String.length heq
  rw [nameFor, String.length_append, String.length_append] at hlength
  have hfront : artifact.front.length = 0 := by omega
  rw [initial, String.toList_eq_nil_iff.mpr (String.length_eq_zero_iff.mp hfront)] at h
  cases h

/-- All of the artifacts have first letters, different ones for different artifacts. -/
def Apart (artifacts : List Artifact) : Prop :=
  ∀ artifact ∈ artifacts, artifact.initial.isSome ∧
    ∀ other ∈ artifacts, artifact.initial = other.initial → artifact = other

instance (artifacts : List Artifact) : Decidable (Apart artifacts) :=
  inferInstanceAs (Decidable (∀ artifact ∈ artifacts, artifact.initial.isSome ∧
    ∀ other ∈ artifacts, artifact.initial = other.initial → artifact = other))

theorem Apart.nameFor_eq_iff {artifacts : List Artifact} (h : Apart artifacts)
    {artifact another : Artifact} (hartifact : artifact ∈ artifacts) (hanother : another ∈ artifacts)
    {type other : String} :
    artifact.nameFor type = another.nameFor other ↔ artifact = another ∧ type = other := by
  constructor
  · intro heq
    obtain ⟨letter, hletter⟩ := Option.isSome_iff_exists.mp (h artifact hartifact).1
    obtain ⟨different, hdifferent⟩ := Option.isSome_iff_exists.mp (h another hanother).1
    have hhead := head?_nameFor hletter type
    rw [heq, head?_nameFor hdifferent other, ← hdifferent, ← hletter] at hhead
    obtain rfl := (h artifact hartifact).2 another hanother hhead.symm
    exact ⟨rfl, nameFor_inj heq⟩
  · rintro ⟨rfl, rfl⟩
    rfl

theorem Apart.not_mem_map_nameFor {artifacts : List Artifact} (h : Apart artifacts)
    {type other name : String} (hne : type ≠ other) (hname : name ∈ artifacts.map (·.nameFor type)) :
    name ∉ artifacts.map (·.nameFor other) := by
  intro hother
  obtain ⟨artifact, hartifact, rfl⟩ := List.mem_map.mp hname
  obtain ⟨another, hanother, heq⟩ := List.mem_map.mp hother
  exact hne ((h.nameFor_eq_iff hanother hartifact).mp heq).2.symm

end AuditFields.Artifact
