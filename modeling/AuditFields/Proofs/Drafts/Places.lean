import AuditFields.Proofs.Drafts.Transaction
import AuditFields.Proofs.Schema.Plain
import Mathlib.Logic.Relation

/-!
# Types keep their places

The types of a schema stand in the order in which they came, and changes find them by name. A type that
is put takes the place of the one of its name, or comes last (`Placed`); appending to the mutation root
puts an object of that name. So along any work on an API no type is gone and none has moved, and the
names at one point of the work are the first names at every later point.

A draft has a map of its own, which is no part of the document, and writes the mutation root to it under
a name that it asks the API for. The map is kept like the types of a schema, since what it looks the root
up in are maps that are (`Workspace.Keyed`).
-/

namespace AuditFields

open Schema

/-! ## One type -/

/-- The type has come to its place: that of the type of its name, or the last one. -/
inductive Placed (type : TypeDefinition) : Entries TypeDefinition → Entries TypeDefinition → Prop
  | inPlace (before rest : Entries TypeDefinition) (old : TypeDefinition) :
      Placed type (before ++ (type.name, old) :: rest) (before ++ (type.name, type) :: rest)
  | last (types : Entries TypeDefinition) (hfresh : type.name ∉ types.names) :
      Placed type types (types ++ [(type.name, type)])

theorem Placed.names_grow {type : TypeDefinition} {types after : Entries TypeDefinition}
    (h : Placed type types after) : types.names <+: after.names := by
  cases h with
  | inPlace before rest old =>
    have hnames : Entries.names (before ++ (type.name, type) :: rest) =
        Entries.names (before ++ (type.name, old) :: rest) := by
      simp only [Entries.names, List.map_append, List.map_cons]
    exact ⟨[], (List.append_nil _).trans hnames.symm⟩
  | last hfresh =>
    rw [Entries.names, Entries.names, List.map_append]
    exact List.prefix_append _ _

theorem Schema.placed_put (schema : Schema) (type : TypeDefinition) :
    Placed type schema.types (schema.put type).types := by
  rw [Schema.put]
  by_cases hmem : type.name ∈ schema.types.names
  · obtain ⟨before, old, rest, htypes, hput⟩ := Entries.exists_put_eq_of_mem hmem type
    rw [hput, htypes]
    exact .inPlace before rest old
  · rw [Entries.put_of_not_mem hmem]
    exact .last _ hmem

theorem Schema.Keyed.exists_placed_addMutations {schema : Schema} (h : schema.Keyed)
    (fields : List Field) :
    ∃ root : ObjectType, root.name = schema.mutationName ∧ fields <:+ root.fields ∧
      Placed (.object root) schema.types (schema.addMutations fields).types := by
  unfold Schema.addMutations
  dsimp only
  split
  · next root hroot =>
    have hname : root.name = schema.mutationName := h.name_of_get? hroot
    refine ⟨root.addFields fields, hname, List.suffix_append _ _, ?_⟩
    rw [← hname]
    exact schema.placed_put (.object (root.addFields fields))
  · refine ⟨.plain schema.mutationName fields, rfl, List.suffix_rfl, ?_⟩
    exact schema.placed_put (.object (.plain schema.mutationName fields))

/-! ## One type after the other -/

/-- Types have come to their places one after the other. -/
def AllPlaced : Entries TypeDefinition → Entries TypeDefinition → Prop :=
  Relation.ReflTransGen fun types after => ∃ type, Placed type types after

namespace AllPlaced

variable {types between after : Entries TypeDefinition}

theorem refl (types : Entries TypeDefinition) : AllPlaced types types :=
  Relation.ReflTransGen.refl

theorem trans (h : AllPlaced types between) (hnext : AllPlaced between after) : AllPlaced types after :=
  Relation.ReflTransGen.trans h hnext

theorem of_placed {type : TypeDefinition} (h : Placed type types after) : AllPlaced types after :=
  Relation.ReflTransGen.single ⟨type, h⟩

theorem names_grow (h : AllPlaced types after) : types.names <+: after.names := by
  induction h with
  | refl => exact List.prefix_rfl
  | tail _ hstep ih =>
    obtain ⟨type, hplaced⟩ := hstep
    exact ih.trans hplaced.names_grow

end AllPlaced

theorem Api.allPlaced_apply {api : Api} (h : api.schema.Keyed) (edit : Edit) :
    AllPlaced api.schema.types (api.apply edit).schema.types := by
  cases edit with
  | type type => exact .of_placed (api.schema.placed_put type)
  | input input => exact .of_placed (api.schema.placed_put (.input input))
  | mutations fields =>
    obtain ⟨root, _, _, hplaced⟩ := h.exists_placed_addMutations fields
    exact .of_placed hplaced
  | resource id resource => exact .refl _
  | deployment stack id => exact .refl _

/-! ## The maps of drafts -/

/-- The types that a draft puts, as a schema. -/
def Draft.schema (draft : Draft) : Schema :=
  { types := draft.types }

namespace Workspace

variable {workspace under : Workspace} {draft : Draft}

/-- The schema of the API and the maps of all drafts have every type under its own name, once. -/
def Keyed : Workspace → Prop
  | .direct api => api.schema.Keyed
  | .drafted under draft => under.Keyed ∧ draft.schema.Keyed

namespace Keyed

theorem api (h : workspace.Keyed) : workspace.api.schema.Keyed := by
  induction workspace with
  | direct api => exact h
  | drafted under draft ih => exact ih h.1

theorem name_of_type? (h : workspace.Keyed) {name : String} {type : TypeDefinition}
    (hfound : workspace.type? name = some type) : type.name = name := by
  induction workspace with
  | direct api => exact Schema.Keyed.name_of_get? h hfound
  | drafted under draft ih =>
    rw [Workspace.type?] at hfound
    cases hdraft : draft.types.get? name with
    | none =>
      rw [hdraft] at hfound
      exact ih h.1 hfound
    | some found =>
      rw [hdraft] at hfound
      obtain rfl := Option.some.inj hfound
      exact h.2.name_of_get? hdraft

theorem name_objectOrNew (h : workspace.Keyed) (name : String) :
    (workspace.objectOrNew name).name = name := by
  rw [objectOrNew]
  cases hobject : (workspace.type? name).bind TypeDefinition.object? with
  | none => rfl
  | some object =>
    obtain ⟨type, hfound, htype⟩ := Option.bind_eq_some_iff.mp hobject
    cases type with
    | object other =>
      obtain rfl := Option.some.inj htype
      exact h.name_of_type? hfound
    | _ => cases htype

theorem record (h : (drafted under draft).Keyed) (edit : Edit) :
    (Workspace.record under draft edit).schema.Keyed := by
  cases edit with
  | type type => exact h.2.put type
  | input input => exact h.2.put (.input input)
  | mutations fields =>
    -- The root is written under the name that the API gives it, and has this name itself.
    let longer : Draft := { draft with edits := draft.edits ++ [.mutations fields] }
    have hlonger : (drafted under longer).Keyed := h
    refine h.2.putAt ?_
    exact hlonger.name_objectOrNew under.mutationName
  | resource id resource => exact h.2
  | deployment stack id => exact h.2

/-! ## Moves -/

theorem apply (h : workspace.Keyed) (edit : Edit) : (workspace.apply edit).Keyed := by
  cases workspace with
  | direct api => exact Schema.Keyed.apply h edit
  | drafted under draft => exact ⟨h.1, h.record edit⟩

theorem applyAll (h : workspace.Keyed) (edits : List Edit) : (workspace.applyAll edits).Keyed := by
  induction edits generalizing workspace with
  | nil => exact h
  | cons edit edits ih => exact ih (h.apply edit)

theorem openDraft (h : workspace.Keyed) : workspace.openDraft.Keyed :=
  ⟨h, keyed_empty⟩

theorem discard (h : workspace.Keyed) : workspace.discard.Keyed := by
  cases workspace with
  | direct api => exact h
  | drafted under draft => exact h.1

/-- The step: every move keeps the types of the API and of all drafts under their own names. -/
theorem run (h : workspace.Keyed) (move : Move) : (move.run workspace).Keyed := by
  cases move with
  | edit edit => exact h.apply edit
  | openDraft => exact h.openDraft
  | commit => exact h.discard.applyAll workspace.pending
  | discard => exact h.discard

theorem foldl_run (h : workspace.Keyed) (moves : List Move) :
    (moves.foldl Move.run workspace).Keyed := by
  induction moves generalizing workspace with
  | nil => exact h
  | cons move moves ih => exact ih (h.run move)

end Keyed

/-! ## The places -/

theorem Keyed.allPlaced_apply (h : workspace.Keyed) (edit : Edit) :
    AllPlaced workspace.api.schema.types (workspace.apply edit).api.schema.types := by
  cases workspace with
  | direct api => exact Api.allPlaced_apply h edit
  | drafted under draft => exact .refl _

theorem Keyed.allPlaced_applyAll (h : workspace.Keyed) (edits : List Edit) :
    AllPlaced workspace.api.schema.types (workspace.applyAll edits).api.schema.types := by
  induction edits generalizing workspace with
  | nil => exact .refl _
  | cons edit edits ih => exact (h.allPlaced_apply edit).trans (ih (h.apply edit))

theorem api_discard (workspace : Workspace) : workspace.discard.api = workspace.api := by
  cases workspace with
  | direct api => rfl
  | drafted under draft => rfl

theorem mutationName_applyAll (workspace : Workspace) (edits : List Edit) :
    (workspace.applyAll edits).mutationName = workspace.mutationName := by
  induction edits generalizing workspace with
  | nil => rfl
  | cons edit edits ih => rw [applyAll_cons, ih, mutationName_apply]

/-- The step: by a move the types of the API come to their places. -/
theorem Keyed.allPlaced_run (h : workspace.Keyed) (move : Move) :
    AllPlaced workspace.api.schema.types (move.run workspace).api.schema.types := by
  cases move with
  | edit edit => exact h.allPlaced_apply edit
  | openDraft => exact .refl _
  | commit =>
    have hplaced := h.discard.allPlaced_applyAll workspace.pending
    rwa [api_discard] at hplaced
  | discard =>
    rw [Move.run, api_discard]
    exact .refl _

theorem mutationName_run (workspace : Workspace) (move : Move) :
    (move.run workspace).mutationName = workspace.mutationName := by
  have hdiscard : workspace.discard.mutationName = workspace.mutationName :=
    congrArg Api.mutationName workspace.api_discard
  cases move with
  | edit edit => exact mutationName_apply workspace edit
  | openDraft => rfl
  | commit => exact (mutationName_applyAll _ _).trans hdiscard
  | discard => exact hdiscard

/-- The run: by any moves they do, and the mutation root has one name all the time. -/
theorem Keyed.allPlaced_foldl_run (h : workspace.Keyed) (moves : List Move) :
    AllPlaced workspace.api.schema.types (moves.foldl Move.run workspace).api.schema.types ∧
      (moves.foldl Move.run workspace).mutationName = workspace.mutationName := by
  induction moves generalizing workspace with
  | nil => exact ⟨.refl _, rfl⟩
  | cons move moves ih =>
    obtain ⟨hplaced, hname⟩ := ih (h.run move)
    exact ⟨(h.allPlaced_run move).trans hplaced, hname.trans (mutationName_run workspace move)⟩

end Workspace

/-! ## The document -/

namespace Schema

variable {schema : Schema}

/-- The document has the texts of some types in order, between those of the directives and those of the
extensions. -/
def Writes (schema : Schema) (types : List TypeDefinition) : Prop :=
  schema.render = Text.joinWith "\n"
    (schema.roots.toList.map Roots.render ++
      schema.directiveDefinitions.map DirectiveDefinition.render ++
      types.map TypeDefinition.render ++ schema.extensions.map renderExtension)

theorem writes_values (schema : Schema) : schema.Writes schema.types.values := rfl

theorem Keyed.names_values (h : schema.Keyed) :
    schema.types.values.map (·.name) = schema.types.names := by
  rw [Entries.values, Entries.names, List.map_map]
  exact List.map_congr_left h.own

theorem Keyed.mem_values_iff (h : schema.Keyed) {type : TypeDefinition} :
    type ∈ schema.types.values ↔ schema.get? type.name = some type := by
  constructor
  · intro hmem
    obtain ⟨⟨name, _⟩, hentry, rfl⟩ := List.mem_map.mp hmem
    have hname := h.own _ hentry
    exact Entries.get?_of_mem h.nodup (hname ▸ hentry)
  · exact fun hfound => List.mem_map_of_mem (Entries.mem_of_get? hfound)

end Schema

/-- **Types keep their places, and each is written once, at its place.** Take a schema that is read from a
document, or the empty one, and any two points of any work on an API with this schema: changes made
directly, and changes in drafts at any depth, committed or discarded. At the later point every type of the
API, and every type in the map of a draft, stands under its own name and no other one does. From the one
point to the other, types have only come to their places, so that the names of before are the first
names, and the mutation root has the name that it had. A type that is put, and a root that gets
fields, comes to its place. The document has the text of each type once, in the order of the names. -/
theorem types_keep_places (api : Api)
    (h : api.schema = {} ∨ ∃ text, ofText text = .ok api.schema) (moves further : List Move) :
    let reached := moves.foldl Move.run (.direct api)
    let final := further.foldl Move.run reached
    let now := reached.api.schema
    let after := final.api.schema
    final.Keyed ∧ after.Keyed ∧
    AllPlaced now.types after.types ∧ now.types.names <+: after.types.names ∧
    after.mutationName = api.schema.mutationName ∧
    (∀ type, Placed type after.types (after.put type).types) ∧
    (∀ fields, ∃ root : ObjectType, root.name = after.mutationName ∧ fields <:+ root.fields ∧
      Placed (.object root) after.types (after.addMutations fields).types) ∧
    ∃ written, after.Writes written ∧ written.map (·.name) = after.types.names ∧
      ∀ type, type ∈ written ↔ after.get? type.name = some type := by
  intro reached final now after
  have hstart : api.schema.Keyed := by
    rcases h with hempty | ⟨text, htext⟩
    · exact hempty ▸ keyed_empty
    · exact keyed_ofText htext
  have hbefore : (Workspace.direct api).Keyed := hstart
  have hreached : reached.Keyed := hbefore.foldl_run moves
  have hfinal : final.Keyed := hreached.foldl_run further
  have hafter : after.Keyed := hfinal.api
  obtain ⟨_, hname⟩ := hbefore.allPlaced_foldl_run moves
  obtain ⟨hplaced, hnameFinal⟩ := hreached.allPlaced_foldl_run further
  exact ⟨hfinal, hafter, hplaced, hplaced.names_grow, hnameFinal.trans hname, after.placed_put,
    hafter.exists_placed_addMutations, after.types.values, after.writes_values, hafter.names_values,
    fun _ => hafter.mem_values_iff⟩

/-- The work on a memo: its mutation root is made in a draft, and the memo is put again. -/
theorem types_keep_places_memo :
    let moves : List Move := [.openDraft, .edit (.mutations [.plain "clear" [] (.named "Memo")])]
    let further : List Move := [.edit (.type (.scalar ⟨none, "Memo", []⟩)), .commit]
    let reached := moves.foldl Move.run (.direct { schema := memo })
    let final := further.foldl Move.run reached
    ofText memoText = .ok memo ∧ final.Keyed ∧ final.api.schema.Keyed ∧
    AllPlaced reached.api.schema.types final.api.schema.types ∧
    final.api.schema.types.names = ["Memo", "Mutation"] ∧
    final.api.schema.mutationName = "Mutation" ∧
    ∃ written, final.api.schema.Writes written ∧ written.map (·.name) = ["Memo", "Mutation"] := by
  intro moves further reached final
  have hread : memo = {} ∨ ∃ text, ofText text = .ok memo := Or.inr ⟨memoText, ofText_memo⟩
  have hnames : final.api.schema.types.names = ["Memo", "Mutation"] := by decide
  obtain ⟨hfinal, hkeyed, hplaced, _, hname, _, _, written, hwritten, hwrittenNames, _⟩ :=
    types_keep_places { schema := memo } hread moves further
  exact ⟨ofText_memo, hfinal, hkeyed, hplaced, hnames, hname, written, hwritten,
    hwrittenNames.trans hnames⟩

end AuditFields
