import AuditFields.Proofs.Json.Parts

/-!
# Values that are the same up to the order of members

Two values are the same up to the order of members if one becomes the other by moving members within their
objects, at any depth (`SameUpToOrder`). With different keys, it is enough that the values found under each
key are the same (`sameMembers_of_get?`). A value that is the same as a regular one is regular.
-/

namespace AuditFields.Json

mutual

/-- One value becomes the other by moving members within their objects. -/
inductive SameUpToOrder : Json → Json → Prop where
  | refl (v : Json) : SameUpToOrder v v
  | array {items others : List Json} (h : SameItems items others) :
      SameUpToOrder (.array items) (.array others)
  | object {members others : List (String × Json)} (h : SameMembers members others) :
      SameUpToOrder (.object members) (.object others)

/-- The items are the same one by one. -/
inductive SameItems : List Json → List Json → Prop where
  | nil : SameItems [] []
  | cons {v w : Json} {items others : List Json} (hfirst : SameUpToOrder v w)
      (hothers : SameItems items others) : SameItems (v :: items) (w :: others)

/-- The members are the same one by one once they are put in the right order. -/
inductive SameMembers : List (String × Json) → List (String × Json) → Prop where
  | nil : SameMembers [] []
  | cons {name : String} {v w : Json} {members others : List (String × Json)} (hfirst : SameUpToOrder v w)
      (hothers : SameMembers members others) : SameMembers ((name, v) :: members) ((name, w) :: others)
  | reorder {members between others : List (String × Json)} (horder : members.Perm between)
      (h : SameMembers between others) : SameMembers members others

end

/-! ## Regular values -/

theorem SameMembers.perm_names : ∀ {members others : List (String × Json)}, SameMembers members others →
    (members.map (·.1)).Perm (others.map (·.1))
  | _, _, .nil => .nil
  | _, _, .cons _ hothers => hothers.perm_names.cons _
  | _, _, .reorder horder h => (horder.map _).trans h.perm_names

mutual

theorem SameUpToOrder.regular : ∀ {v w : Json} {depth : Nat}, SameUpToOrder v w → Regular depth w →
    Regular depth v
  | _, _, _, .refl _, h => h
  | _, _, _, .array hitems, .array h => .array (hitems.regular h)
  | _, _, _, .object hmembers, .object hnames h =>
    .object (hmembers.perm_names.nodup_iff.mpr hnames) (hmembers.regular h)

theorem SameItems.regular : ∀ {items others : List Json} {depth : Nat}, SameItems items others →
    (∀ other ∈ others, Regular depth other) → ∀ item ∈ items, Regular depth item
  | _, _, _, .nil, h => h
  | _, _, _, .cons hfirst hothers, h =>
    have ⟨hw, hrest⟩ := List.forall_mem_cons.mp h
    List.forall_mem_cons.mpr ⟨hfirst.regular hw, hothers.regular hrest⟩

theorem SameMembers.regular : ∀ {members others : List (String × Json)} {depth : Nat},
    SameMembers members others → (∀ other ∈ others, Regular depth other.2) →
    ∀ member ∈ members, Regular depth member.2
  | _, _, _, .nil, h => h
  | _, _, _, .cons hfirst hothers, h =>
    have ⟨hw, hrest⟩ := List.forall_mem_cons.mp h
    List.forall_mem_cons.mpr ⟨hfirst.regular hw, hothers.regular hrest⟩
  | _, _, _, .reorder horder hsame, h =>
    fun member hmember => hsame.regular h member (horder.mem_iff.mp hmember)

end

/-! ## Members by key -/

theorem sameMembers_map {members : List (String × Json)} {f g : Json → Json}
    (h : ∀ member ∈ members, SameUpToOrder (f member.2) (g member.2)) :
    SameMembers (members.map fun member => (member.1, f member.2))
      (members.map fun member => (member.1, g member.2)) := by
  induction members with
  | nil => exact .nil
  | cons member members ih =>
    obtain ⟨hfirst, hothers⟩ := List.forall_mem_cons.mp h
    exact .cons hfirst (ih hothers)

/-- With different keys, members are the same if what is found under each key is. -/
theorem sameMembers_of_get? {members others : Entries Json} (hmembers : members.names.Nodup)
    (hothers : others.names.Nodup)
    (h : ∀ name, Option.Rel SameUpToOrder (members.get? name) (others.get? name)) :
    SameMembers members others := by
  induction others generalizing members with
  | nil =>
    cases members with
    | nil => exact .nil
    | cons member members =>
      have hfirst := h member.1
      rw [Entries.get?_of_mem hmembers List.mem_cons_self] at hfirst
      cases hfirst
  | cons other others ih =>
    obtain ⟨key, w⟩ := other
    obtain ⟨hfresh, hnodup⟩ := List.nodup_cons.mp hothers
    obtain ⟨v, hv, hsame⟩ : ∃ v, members.get? key = some v ∧ SameUpToOrder v w := by
      have hkey := h key
      rw [Entries.get?_cons, if_pos rfl] at hkey
      cases hfound : members.get? key with
      | none =>
        rw [hfound] at hkey
        cases hkey
      | some v =>
        rw [hfound] at hkey
        cases hkey with
        | some hsame => exact ⟨v, rfl, hsame⟩
    have horder := List.perm_cons_erase (Entries.mem_of_get? hv)
    have hnames : (Entries.names ((key, v) :: members.erase (key, v))).Nodup :=
      (horder.map _).nodup_iff.mp hmembers
    refine .reorder horder (.cons hsame (ih (List.nodup_cons.mp hnames).2 hnodup fun name => ?_))
    have hname := h name
    rw [← Entries.get?_of_perm horder hmembers, Entries.get?_cons, Entries.get?_cons] at hname
    by_cases hkey : key = name
    · subst hkey
      have hmissing : Entries.get? (members.erase (key, v)) key = none :=
        Entries.get?_eq_none_iff.mpr (List.nodup_cons.mp hnames).1
      rw [hmissing, Entries.get?_eq_none_iff.mpr hfresh]
      exact .none
    · rwa [if_neg hkey, if_neg hkey] at hname

end AuditFields.Json
