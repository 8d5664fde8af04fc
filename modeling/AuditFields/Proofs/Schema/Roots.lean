import AuditFields.Proofs.Schema.Plain

/-!
# The roots of a document

A document may say what its roots are in several places, in one definition and any number of extensions.
An extension adds to whatever came before it, but a definition takes the place of whatever came before
it. So the schema has all that the document says (`Gathers`) unless something is said before the
definition (`Overwrites`), which is the only thing about the order of a document that matters here.

The roots are followed through the fold over the definitions by themselves (`foldl_onRoots_eq`): what
is left at the end are the parts from the definition on, put together.
-/

namespace AuditFields.Schema

/-! ## What a document says about its roots -/

/-- The root type of an operation. -/
def Roots.root? (roots : Roots) : Operation → Option String
  | .query => roots.query
  | .mutation => roots.mutation
  | .subscription => roots.subscription

namespace Definition

def roots? : Definition → Option Roots
  | .roots definition => some definition
  | _ => none

/-- What a definition or an extension of the roots says. -/
def rootsPart? : Definition → Option Roots
  | .roots definition => some definition
  | .rootsExtension added => some added
  | _ => none

def typeName? : Definition → Option String
  | .type definition => some definition.name
  | _ => none

end Definition

/-- All that is said about the roots, in the order of the document. -/
def rootsParts (ds : List Definition) : List Roots :=
  ds.filterMap Definition.rootsPart?

/-- The roots are all that the parts say: there are roots if there is a part, the root type of an
operation is the one that a part gives, and the directives are those of all parts in some order. -/
structure Gathers (parts : List Roots) (roots : Option Roots) : Prop where
  present : roots ≠ none ↔ parts ≠ []
  root (operation : Operation) (name : String) :
    (∃ found ∈ roots, found.root? operation = some name) ↔
      ∃ part ∈ parts, part.root? operation = some name
  directives : (roots.toList.flatMap (·.directives)).Perm (parts.flatMap (·.directives))

theorem Gathers.perm {parts other : List Roots} {roots : Option Roots} (h : Gathers parts roots)
    (hperm : parts.Perm other) : Gathers other roots where
  present := h.present.trans (not_congr ⟨fun hnil => List.perm_nil.mp (hnil ▸ hperm.symm),
    fun hnil => List.perm_nil.mp (hnil ▸ hperm)⟩)
  root operation name := by
    rw [h.root]
    simp only [hperm.mem_iff]
  directives := h.directives.trans (hperm.flatMap_right _)

/-- A definition of the roots stands behind a part that says something. -/
def Overwrites (ds : List Definition) : Prop :=
  ∃ before definition after, ds = before ++ .roots definition :: after ∧ ∃ part ∈ rootsParts before, part ≠ {}

/-- Each operation is given a root type at most once. -/
def EachOnce (parts : List Roots) : Prop :=
  ∀ operation, (parts.filterMap (·.root? operation)).length ≤ 1

/-! ## Parts put together -/

/-- The parts as extensions of each other. -/
def mergedRoots (parts : List Roots) : Roots :=
  parts.foldl Roots.extend {}

theorem Roots.root?_extend (roots extension : Roots) (operation : Operation) :
    (roots.extend extension).root? operation =
      (roots.root? operation <|> extension.root? operation) := by
  cases operation <;> rfl

theorem root?_foldl_extend (parts : List Roots) (roots : Roots) (operation : Operation) :
    (parts.foldl Roots.extend roots).root? operation =
      (roots.root? operation <|> parts.findSome? (·.root? operation)) := by
  induction parts generalizing roots with
  | nil => simp
  | cons part parts ih =>
    rw [List.foldl_cons, ih, Roots.root?_extend, List.findSome?_cons]
    cases roots.root? operation with
    | some name => rfl
    | none => cases part.root? operation <;> rfl

theorem directives_foldl_extend (parts : List Roots) (roots : Roots) :
    (parts.foldl Roots.extend roots).directives =
      roots.directives ++ parts.flatMap (·.directives) := by
  induction parts generalizing roots with
  | nil => exact (List.append_nil _).symm
  | cons part parts ih =>
    rw [List.foldl_cons, ih, List.flatMap_cons, ← List.append_assoc]
    rfl

theorem root?_mergedRoots (parts : List Roots) (operation : Operation) :
    (mergedRoots parts).root? operation = parts.findSome? (·.root? operation) := by
  rw [mergedRoots, root?_foldl_extend]
  cases operation <;> rfl

theorem directives_mergedRoots (parts : List Roots) :
    (mergedRoots parts).directives = parts.flatMap (·.directives) :=
  directives_foldl_extend parts {}

theorem Roots.eq_empty {roots : Roots} (hroot : ∀ operation, roots.root? operation = none)
    (hdirectives : roots.directives = []) : roots = {} := by
  obtain ⟨directives, query, mutation, subscription⟩ := roots
  obtain rfl : query = none := hroot .query
  obtain rfl : mutation = none := hroot .mutation
  obtain rfl : subscription = none := hroot .subscription
  obtain rfl : directives = [] := hdirectives
  rfl

theorem findSome?_eq_some_iff_of_once {α β : Type} {f : α → Option β} {xs : List α}
    (h : (xs.filterMap f).length ≤ 1) {y : β} : xs.findSome? f = some y ↔ ∃ x ∈ xs, f x = some y := by
  rw [← List.head?_filterMap, ← List.mem_filterMap]
  cases hfound : xs.filterMap f with
  | nil => simp
  | cons first rest =>
    rw [hfound, List.length_cons] at h
    obtain rfl : rest = [] := List.length_eq_zero_iff.mp (by omega)
    simp [eq_comm]

theorem EachOnce.right {parts others : List Roots} (h : EachOnce (parts ++ others)) : EachOnce others := by
  intro operation
  have hboth := h operation
  rw [List.filterMap_append, List.length_append] at hboth
  omega

theorem EachOnce.root?_eq_none {parts others : List Roots} (h : EachOnce (parts ++ others))
    {part other : Roots} (hpart : part ∈ parts) (hother : other ∈ others) {operation : Operation}
    {name : String} (hgiven : other.root? operation = some name) : part.root? operation = none := by
  refine Option.eq_none_iff_forall_ne_some.mpr fun another hanother => ?_
  have hbefore : another ∈ parts.filterMap (·.root? operation) := List.mem_filterMap.mpr ⟨part, hpart, hanother⟩
  have hbehind : name ∈ others.filterMap (·.root? operation) := List.mem_filterMap.mpr ⟨other, hother, hgiven⟩
  have := List.length_pos_of_mem hbefore
  have := List.length_pos_of_mem hbehind
  have hboth := h operation
  rw [List.filterMap_append, List.length_append] at hboth
  omega

/-- Some of the parts put together are all of them exactly if the others say nothing. -/
theorem gathers_mergedRoots_iff {dropped kept : List Roots} (honce : EachOnce (dropped ++ kept))
    (hkept : kept ≠ []) :
    Gathers (dropped ++ kept) (some (mergedRoots kept)) ↔ ∀ part ∈ dropped, part = {} := by
  have hfound : ∀ operation name, (mergedRoots kept).root? operation = some name ↔
      ∃ part ∈ kept, part.root? operation = some name := by
    intro operation name
    rw [root?_mergedRoots, findSome?_eq_some_iff_of_once (honce.right operation)]
  constructor
  · intro h part hpart
    refine Roots.eq_empty (fun operation => ?_) ?_
    · refine Option.eq_none_iff_forall_ne_some.mpr fun name hname => ?_
      -- The root type would be that of a part that is kept, and so be given twice.
      obtain ⟨_, hmem, hmerged⟩ := (h.root operation name).mpr ⟨part, List.mem_append_left _ hpart, hname⟩
      obtain rfl := Option.some.inj hmem
      obtain ⟨other, hother, hsame⟩ := (hfound operation name).mp hmerged
      cases hname.symm.trans (honce.root?_eq_none hpart hother hsame)
    · have hlength := h.directives.length_eq
      rw [List.flatMap_append, List.length_append, Option.toList_some, List.flatMap_singleton,
        directives_mergedRoots] at hlength
      have hnone : dropped.flatMap (·.directives) = [] := List.length_eq_zero_iff.mp (by omega)
      exact List.flatMap_eq_nil_iff.mp hnone part hpart
  · intro hempty
    refine ⟨by simp [hkept], fun operation name => ?_, ?_⟩
    · simp only [Option.mem_def, Option.some.injEq, exists_eq_left', hfound]
      constructor
      · rintro ⟨part, hpart, hname⟩
        exact ⟨part, List.mem_append_right _ hpart, hname⟩
      · rintro ⟨part, hpart, hname⟩
        rcases List.mem_append.mp hpart with hdropped | hkept
        · rw [hempty part hdropped] at hname
          cases operation <;> cases hname
        · exact ⟨part, hkept, hname⟩
    · have hnone : dropped.flatMap (·.directives) = [] :=
        List.flatMap_eq_nil_iff.mpr fun part hpart => by rw [hempty part hpart]
      rw [List.flatMap_append, hnone, List.nil_append, Option.toList_some, List.flatMap_singleton,
        directives_mergedRoots]

/-! ## The roots along a document -/

/-- The roots after one more definition. -/
def Definition.onRoots (roots : Option Roots) : Definition → Option Roots
  | .roots definition => some definition
  | .rootsExtension added => some ((roots.getD {}).extend added)
  | _ => roots

theorem roots_of_addDefinition {schema after : Schema} {definition : Definition}
    (h : addDefinition schema definition = .ok after) :
    after.roots = definition.onRoots schema.roots := by
  cases definition with
  | type type =>
    rw [addDefinition] at h
    split at h
    · cases h
    · obtain rfl := Except.ok.inj h
      rfl
  | _ =>
    obtain rfl := Except.ok.inj h
    rfl

theorem roots_of_foldlM {ds : List Definition} {schema after : Schema}
    (h : ds.foldlM addDefinition schema = .ok after) :
    after.roots = ds.foldl Definition.onRoots schema.roots := by
  induction ds generalizing schema with
  | nil =>
    obtain rfl := Except.ok.inj h
    rfl
  | cons first rest ih =>
    obtain ⟨next, hfirst, hrest⟩ := Except.foldlM_cons_eq_ok_iff.mp h
    rw [ih hrest, roots_of_addDefinition hfirst, List.foldl_cons]

theorem foldl_onRoots_some {ds : List Definition} (h : ds.filterMap Definition.roots? = []) (roots : Roots) :
    ds.foldl Definition.onRoots (some roots) = some ((rootsParts ds).foldl Roots.extend roots) := by
  induction ds generalizing roots with
  | nil => rfl
  | cons first rest ih =>
    cases first with
    | roots definition => cases h
    | rootsExtension added => exact ih h (roots.extend added)
    | _ => exact ih h roots

theorem foldl_onRoots_none {ds : List Definition} (h : ds.filterMap Definition.roots? = []) :
    ds.foldl Definition.onRoots none =
      if rootsParts ds = [] then none else some (mergedRoots (rootsParts ds)) := by
  induction ds with
  | nil => rfl
  | cons first rest ih =>
    cases first with
    | roots definition => cases h
    | rootsExtension added =>
      have hrest : rest.filterMap Definition.roots? = [] := h
      exact (foldl_onRoots_some hrest (({} : Roots).extend added)).trans
        (if_neg (List.cons_ne_nil added (rootsParts rest))).symm
    | _ => exact ih h

theorem foldl_onRoots_split (before : List Definition) (definition : Roots) {after : List Definition}
    (h : after.filterMap Definition.roots? = []) (roots : Option Roots) :
    (before ++ .roots definition :: after).foldl Definition.onRoots roots =
      some (mergedRoots (definition :: rootsParts after)) := by
  have hextend : ({} : Roots).extend definition = definition := by
    cases definition
    rfl
  rw [List.foldl_append, List.foldl_cons, mergedRoots, List.foldl_cons, hextend]
  exact foldl_onRoots_some h definition

theorem gathers_iff_of_split {before after : List Definition} {definition : Roots}
    (hone : ((before ++ .roots definition :: after).filterMap Definition.roots?).length ≤ 1)
    (honce : EachOnce (rootsParts (before ++ .roots definition :: after))) :
    Gathers (rootsParts (before ++ .roots definition :: after))
        ((before ++ .roots definition :: after).foldl Definition.onRoots none) ↔
      ∀ part ∈ rootsParts before, part = {} := by
  have hafter : after.filterMap Definition.roots? = [] := by
    have hdefined : (Definition.roots definition :: after).filterMap Definition.roots? =
        definition :: after.filterMap Definition.roots? := rfl
    rw [List.filterMap_append, List.length_append, hdefined, List.length_cons] at hone
    exact List.length_eq_zero_iff.mp (by omega)
  have hparts : rootsParts (before ++ .roots definition :: after) =
      rootsParts before ++ (definition :: rootsParts after) := List.filterMap_append
  rw [foldl_onRoots_split before definition hafter, hparts]
  rw [hparts] at honce
  exact gathers_mergedRoots_iff honce (List.cons_ne_nil _ _)

theorem gathers_foldl_onRoots_iff {ds : List Definition}
    (hone : (ds.filterMap Definition.roots?).length ≤ 1) (honce : EachOnce (rootsParts ds)) :
    Gathers (rootsParts ds) (ds.foldl Definition.onRoots none) ↔ ¬Overwrites ds := by
  constructor
  · rintro h ⟨before, definition, after, rfl, part, hpart, hne⟩
    exact hne ((gathers_iff_of_split hone honce).mp h part hpart)
  · intro hnot
    by_cases hdefined : ∃ definition, Definition.roots definition ∈ ds
    · obtain ⟨definition, hmem⟩ := hdefined
      obtain ⟨before, after, rfl⟩ := List.append_of_mem hmem
      refine (gathers_iff_of_split hone honce).mpr fun part hpart => ?_
      exact Classical.byContradiction fun hne =>
        hnot ⟨before, definition, after, rfl, part, hpart, hne⟩
    · have hnone : ds.filterMap Definition.roots? = [] := by
        refine List.filterMap_eq_nil_iff.mpr fun d hmem => ?_
        cases d with
        | roots definition => exact absurd ⟨definition, hmem⟩ hdefined
        | _ => rfl
      rw [foldl_onRoots_none hnone]
      split
      · next hnil =>
        rw [hnil]
        exact ⟨by simp, by simp, List.Perm.refl _⟩
      · next hne =>
        have hall : EachOnce ([] ++ rootsParts ds) := honce
        exact (gathers_mergedRoots_iff hall hne).mpr fun _ hmem => absurd hmem List.not_mem_nil

/-! ## Documents in another order -/

theorem addDefinition_of_not_type {definition : Definition} (h : definition.typeName? = none)
    (schema : Schema) : ∃ after, addDefinition schema definition = .ok after ∧ after.types = schema.types := by
  cases definition with
  | type type => cases h
  | _ => exact ⟨_, rfl, rfl⟩

theorem exists_foldlM_addDefinition_iff {ds : List Definition} {schema : Schema}
    (h : schema.types.names.Nodup) :
    (∃ after, ds.foldlM addDefinition schema = .ok after) ↔
      (schema.types.names ++ ds.filterMap Definition.typeName?).Nodup := by
  induction ds generalizing schema with
  | nil =>
    rw [List.filterMap_nil, List.append_nil]
    exact ⟨fun _ => h, fun _ => ⟨schema, rfl⟩⟩
  | cons first rest ih =>
    simp only [Except.foldlM_cons_eq_ok_iff]
    cases hname : first.typeName? with
    | none =>
      obtain ⟨next, hadded, htypes⟩ := addDefinition_of_not_type hname schema
      rw [List.filterMap_cons_none hname, ← htypes, ← ih (htypes ▸ h), hadded]
      simp
    | some name =>
      obtain ⟨type, rfl, rfl⟩ : ∃ type, first = .type type ∧ type.name = name := by
        cases first with
        | type type => exact ⟨type, rfl, Option.some.inj hname⟩
        | _ => cases hname
      rw [List.filterMap_cons_some hname]
      by_cases hused : type.name ∈ schema.types.names
      · have htwice : ¬(schema.types.names ++ type.name :: rest.filterMap Definition.typeName?).Nodup :=
          fun hnodup => (List.nodup_append.mp hnodup).2.2 type.name hused type.name List.mem_cons_self rfl
        simp [addDefinition_type_of_used hused, htwice]
      · have hput : (schema.put type).types.names = schema.types.names ++ [type.name] := by
          rw [put, Entries.names_put, Entries.withName, if_neg hused]
        have hnodup : (schema.put type).types.names.Nodup := Entries.nodup_names_put h
        rw [addDefinition_type_of_fresh hused, List.append_cons, ← hput, ← ih hnodup]
        simp

theorem exists_foldlM_addDefinition_of_perm {ds other : List Definition} (hperm : other.Perm ds)
    {schema : Schema} (h : ds.foldlM addDefinition {} = .ok schema) :
    ∃ again, other.foldlM addDefinition {} = .ok again := by
  have hnodup := (exists_foldlM_addDefinition_iff keyed_empty.nodup).mp ⟨schema, h⟩
  refine (exists_foldlM_addDefinition_iff keyed_empty.nodup).mpr ?_
  exact ((hperm.filterMap _).append_left _).nodup_iff.mpr hnodup

theorem EachOnce.perm {parts other : List Roots} (h : EachOnce parts) (hperm : other.Perm parts) :
    EachOnce other :=
  fun operation => (hperm.filterMap _).length_eq ▸ h operation

/-- **The roots of a schema are all that its document says, unless something is said before their
definition.** This holds of a document that defines the roots at most once and gives each operation at
most one root type. Its definitions can be put in any order, and make up a schema in each, with the same
roots in all orders that have nothing to overwrite. -/
theorem ofText_gathers_iff {text : String} {ds : List Definition} {schema : Schema}
    (hread : definitionsOf text = .ok ds) (h : ofText text = .ok schema)
    (hone : (ds.filterMap Definition.roots?).length ≤ 1) (honce : EachOnce (rootsParts ds)) :
    (Gathers (rootsParts ds) schema.roots ↔ ¬Overwrites ds) ∧
    ∀ reordered other, definitionsOf reordered = .ok other → other.Perm ds →
      ∃ again, ofText reordered = .ok again ∧
        (Gathers (rootsParts ds) again.roots ↔ ¬Overwrites other) := by
  have hfold : ds.foldlM addDefinition {} = .ok schema := by
    rwa [ofText, hread] at h
  refine ⟨roots_of_foldlM hfold ▸ gathers_foldl_onRoots_iff hone honce, fun reordered other hother hperm => ?_⟩
  obtain ⟨again, hagain⟩ := exists_foldlM_addDefinition_of_perm hperm hfold
  have hparts : (rootsParts other).Perm (rootsParts ds) := hperm.filterMap _
  have honeOther : (other.filterMap Definition.roots?).length ≤ 1 := (hperm.filterMap _).length_eq ▸ hone
  have hiff := gathers_foldl_onRoots_iff honeOther (honce.perm hparts)
  refine ⟨again, by rwa [ofText, hother], ?_⟩
  rw [roots_of_foldlM hagain, ← hiff]
  exact ⟨fun hgathers => hgathers.perm hparts.symm, fun hgathers => hgathers.perm hparts⟩

/-! ## An extension before and behind a definition -/

def readRoots : Definition :=
  .roots { query := some "Reads" }

def changeRoots : Definition :=
  .rootsExtension { directives := [⟨"shared", []⟩], mutation := some "Changes" }

def counterType (name : String) : Definition :=
  .type (.object (.plain name [.plain "count" [] (.named "Int")]))

/-- An extension behind the definition. -/
def extended : List Definition :=
  [readRoots, changeRoots, counterType "Reads", counterType "Changes"]

/-- The same extension before the definition. -/
def overwritten : List Definition :=
  [changeRoots, readRoots, counterType "Reads", counterType "Changes"]

theorem printable_counterType {name : String} (h : IsName name) : (counterType name).Printable := by
  have hplain : (Field.plain "count" [] (.named "Int")).Plain :=
    Field.plain_plain (fun _ h => absurd h List.not_mem_nil) _ _
  have hwellFormed : (Field.plain "count" [] (.named "Int")).WellFormed :=
    Field.wellFormed_plain (by decide) (fun _ h => absurd h List.not_mem_nil) (by decide : IsName "Int")
  exact Definition.Plain.printable (ObjectType.plain_plain (List.forall_mem_singleton.mpr hplain) name)
    (ObjectType.wellFormed_plain h (List.forall_mem_singleton.mpr hwellFormed)) (List.cons_ne_nil _ _)

theorem printable_readRoots : readRoots.Printable := by
  refine Definition.Plain.printable (fun _ h => absurd h List.not_mem_nil) ⟨fun _ h => absurd h List.not_mem_nil,
    ?_, (fun _ h => nomatch h), fun _ h => nomatch h⟩ trivial
  intro name hname
  obtain rfl := Option.some.inj hname
  decide

theorem printable_changeRoots : changeRoots.Printable := by
  refine Definition.Plain.printable (List.forall_mem_singleton.mpr trivial)
    ⟨List.forall_mem_singleton.mpr ⟨by decide, trivial⟩, (fun _ h => nomatch h), ?_, fun _ h => nomatch h⟩ trivial
  intro name hname
  obtain rfl := Option.some.inj hname
  decide

theorem printable_extended : ∀ d ∈ extended, d.Printable :=
  List.forall_mem_cons.mpr ⟨printable_readRoots, List.forall_mem_cons.mpr ⟨printable_changeRoots,
    List.forall_mem_cons.mpr ⟨printable_counterType (by decide),
      List.forall_mem_singleton.mpr (printable_counterType (by decide))⟩⟩⟩

theorem overwritten_perm : overwritten.Perm extended :=
  List.Perm.swap _ _ _

theorem definitionsOf_extended :
    definitionsOf (Text.joinWith "\n" (extended.map Definition.render)) = .ok extended :=
  definitionsOf_of_printable (List.cons_ne_nil _ _) printable_extended

theorem definitionsOf_overwritten :
    definitionsOf (Text.joinWith "\n" (overwritten.map Definition.render)) = .ok overwritten :=
  definitionsOf_of_printable (List.cons_ne_nil _ _) fun d hmem =>
    printable_extended d (overwritten_perm.mem_iff.mp hmem)

theorem eachOnce_extended : EachOnce (rootsParts extended) := by
  intro operation
  cases operation <;> decide

theorem not_overwrites_extended : ¬Overwrites extended := by
  rintro ⟨before, definition, after, hsplit, part, hpart, _⟩
  cases before with
  | nil => exact absurd hpart List.not_mem_nil
  | cons first before =>
    have hmem : Definition.roots definition ∈ [changeRoots, counterType "Reads", counterType "Changes"] := by
      rw [(List.cons.inj hsplit).2]
      exact List.mem_append_right _ List.mem_cons_self
    simp [changeRoots, counterType] at hmem

theorem overwrites_overwritten : Overwrites overwritten :=
  ⟨[changeRoots], _, _, rfl, _, List.mem_cons_self, by decide⟩

theorem ofText_gathers_iff_extended :
    ∃ schema again, ofText (Text.joinWith "\n" (extended.map Definition.render)) = .ok schema ∧
      ofText (Text.joinWith "\n" (overwritten.map Definition.render)) = .ok again ∧
      Gathers (rootsParts extended) schema.roots ∧ ¬Gathers (rootsParts extended) again.roots := by
  obtain ⟨schema, hschema⟩ : ∃ schema,
      ofText (Text.joinWith "\n" (extended.map Definition.render)) = .ok schema := by
    rw [ofText, definitionsOf_extended]
    exact ⟨_, rfl⟩
  obtain ⟨hgathers, hreordered⟩ :=
    ofText_gathers_iff definitionsOf_extended hschema (by decide) eachOnce_extended
  obtain ⟨again, hagain, hiff⟩ := hreordered _ _ definitionsOf_overwritten overwritten_perm
  exact ⟨schema, again, hschema, hagain, hgathers.mpr not_overwrites_extended,
    fun h => hiff.mp h overwrites_overwritten⟩

/-- The definition drops the mutation root that the extension before it has named. -/
theorem not_gathers_overwritten :
    definitionsOf (Text.joinWith "\n" (overwritten.map Definition.render)) = .ok overwritten ∧
    (overwritten.filterMap Definition.roots?).length ≤ 1 ∧ EachOnce (rootsParts overwritten) ∧
    ∃ schema, ofText (Text.joinWith "\n" (overwritten.map Definition.render)) = .ok schema ∧
      schema.roots = some { query := some "Reads" } ∧ ¬Gathers (rootsParts overwritten) schema.roots := by
  have honce : EachOnce (rootsParts overwritten) := eachOnce_extended.perm (overwritten_perm.filterMap _)
  refine ⟨definitionsOf_overwritten, by decide, honce, ?_⟩
  rw [ofText, definitionsOf_overwritten]
  refine ⟨_, rfl, rfl, fun hgathers => ?_⟩
  exact (gathers_foldl_onRoots_iff (by decide) honce).mp hgathers overwrites_overwritten

end AuditFields.Schema
