import AuditFields.Proofs.Entries
import AuditFields.Proofs.Json.Printing

/-!
# The value of a text

The parts of a value are the value and all that it holds (`Json.parts`); whether its keys differ and which
floats it has is said of the parts. A value that is read off a text nests no deeper than the reader allows
and has its integers in range, so it is regular if its keys differ and its floats are read back
(`regular_of_reads_value`). To settle a regular value changes nothing (`Regular.settled`).
-/

namespace AuditFields

namespace Json

/-! ## Parts -/

mutual

/-- The value and all values in it. -/
def parts : Json → List Json
  | .array items => .array items :: partsOfItems items
  | .object members => .object members :: partsOfMembers members
  | scalar => [scalar]

def partsOfItems : List Json → List Json
  | [] => []
  | item :: items => parts item ++ partsOfItems items

def partsOfMembers : List (String × Json) → List Json
  | [] => []
  | (_, value) :: members => parts value ++ partsOfMembers members

end

/-- Whether no object in the value holds a key twice. -/
def distinctKeys (v : Json) : Bool :=
  v.parts.all fun
    | .object members => decide (members.map (·.1)).Nodup
    | _ => true

def float? : Json → Option Binary64
  | .float x => some x
  | _ => none

/-- The numbers in the value that are no integers. -/
def floats (v : Json) : List Binary64 :=
  v.parts.filterMap float?

/-- The members of an object. -/
def members? : Json → Option (List (String × Json))
  | .object members => some members
  | _ => none

theorem members?_eq_some_iff {v : Json} {members : List (String × Json)} :
    v.members? = some members ↔ v = .object members := by
  cases v with
  | object others => exact Option.some_inj.trans (Iff.of_eq (Json.object.injEq others members)).symm
  | _ => exact iff_of_false nofun nofun

theorem mem_partsOfItems {part : Json} {items : List Json} :
    part ∈ partsOfItems items ↔ ∃ item ∈ items, part ∈ item.parts := by
  induction items with
  | nil => simp [partsOfItems]
  | cons item items ih => simp [partsOfItems, ih]

theorem mem_partsOfMembers {part : Json} {members : List (String × Json)} :
    part ∈ partsOfMembers members ↔ ∃ member ∈ members, part ∈ member.2.parts := by
  induction members with
  | nil => simp [partsOfMembers]
  | cons member members ih => simp [partsOfMembers, ih]

theorem mem_parts_array {part : Json} {items : List Json} :
    part ∈ (Json.array items).parts ↔ part = .array items ∨ ∃ item ∈ items, part ∈ item.parts := by
  rw [parts, List.mem_cons, mem_partsOfItems]

theorem mem_parts_object {part : Json} {members : List (String × Json)} :
    part ∈ (Json.object members).parts ↔
      part = .object members ∨ ∃ member ∈ members, part ∈ member.2.parts := by
  rw [parts, List.mem_cons, mem_partsOfMembers]

theorem distinctKeys_iff {v : Json} :
    v.distinctKeys = true ↔ ∀ members, .object members ∈ v.parts → (members.map (·.1)).Nodup := by
  rw [distinctKeys, List.all_eq_true]
  constructor
  · intro h members hmem
    exact of_decide_eq_true (h _ hmem)
  · intro h part hmem
    cases part with
    | object members => exact decide_eq_true (h members hmem)
    | _ => rfl

theorem mem_floats {v : Json} {x : Binary64} : x ∈ v.floats ↔ .float x ∈ v.parts := by
  rw [floats, List.mem_filterMap]
  constructor
  · rintro ⟨part, hmem, hfloat⟩
    cases part with
    | float y =>
      obtain rfl := Option.some.inj hfloat
      exact hmem
    | _ => cases hfloat
  · exact fun hmem => ⟨_, hmem, rfl⟩

/-! ## What is read -/

open Reader (value)

variable {depth : Nat} {cs rest : List Char} {v : Json}

theorem exists_read_of_mem_moreItems {item : Reader Json} {bound : List Char} {items : List Json}
    (h : Reads (Reader.moreItems item bound) cs items rest) :
    ∀ v ∈ items, ∃ start left, Reads item start v left := by
  induction bound generalizing cs items with
  | nil => exact absurd h Reader.not_reads_moreItems_nil
  | cons c bound ih =>
    rcases Reader.reads_moreItems_iff.mp h with ⟨_, rfl⟩ | ⟨_, _, _, _, _, hfirst, hothers, rfl⟩
    · exact fun _ hv => nomatch hv
    · exact List.forall_mem_cons.mpr ⟨⟨_, _, hfirst⟩, ih hothers⟩

theorem exists_read_of_mem_items {item : Reader Json} {items : List Json}
    (h : Reads (Reader.items item) cs items rest) : ∀ v ∈ items, ∃ start left, Reads item start v left := by
  rcases Reader.reads_items_iff.mp h with ⟨_, rfl⟩ | ⟨_, _, _, _, hfirst, hothers, rfl⟩
  · exact fun _ hv => nomatch hv
  · exact List.forall_mem_cons.mpr ⟨⟨_, _, hfirst⟩, exists_read_of_mem_moreItems hothers⟩

theorem exists_read_of_member {member : String × Json} (h : Reader.Member depth cs member rest) :
    ∃ start left, Reads (value depth) start member.2 left := by
  obtain ⟨_, _, hvalue⟩ := h
  obtain ⟨_, start, _, hread⟩ := reads_bind.mp hvalue
  exact ⟨start, rest, hread⟩

theorem exists_read_of_mem_moreMembers {bound : List Char} {members : List (String × Json)}
    (h : Reader.MoreMembers depth bound cs members rest) :
    ∀ member ∈ members, ∃ start left, Reads (value depth) start member.2 left := by
  induction h with
  | close => exact fun _ hmember => nomatch hmember
  | next _ hfirst _ ih => exact List.forall_mem_cons.mpr ⟨exists_read_of_member hfirst, ih⟩

theorem exists_read_of_mem_members {members : List (String × Json)}
    (h : Reader.Members depth cs members rest) :
    ∀ member ∈ members, ∃ start left, Reads (value depth) start member.2 left := by
  cases h with
  | empty => exact fun _ hmember => nomatch hmember
  | some _ hfirst hothers =>
    exact List.forall_mem_cons.mpr ⟨exists_read_of_member hfirst, exists_read_of_mem_moreMembers hothers⟩

theorem reads_value_cases (h : Reads (value depth) cs v rest) :
    Reads Reader.scalar (cs.dropWhile Reader.isSpace) v rest ∨
    (∃ below items, depth = below + 1 ∧ v = .array items ∧
      ∀ item ∈ items, ∃ start left, Reads (value below) start item left) ∨
    (∃ below tail members, depth = below + 1 ∧ v = .object members ∧
      cs.dropWhile Reader.isSpace = '{' :: tail ∧ Reader.Members below tail members rest) := by
  by_cases hbracket : (cs.dropWhile Reader.isSpace).head? = some '['
  · obtain ⟨tail, htail⟩ := List.head?_eq_some_iff.mp hbracket
    cases depth with
    | zero =>
      rw [value, Reader.reads_skipSpace_then, Reader.reads_peek_then, htail] at h
      exact absurd h not_reads_throw
    | succ below =>
      obtain ⟨items, hitems, rfl⟩ := (Reader.reads_value_array_iff htail).mp h
      exact Or.inr (Or.inl ⟨below, items, rfl, rfl, exists_read_of_mem_items hitems⟩)
  by_cases hbrace : (cs.dropWhile Reader.isSpace).head? = some '{'
  · obtain ⟨tail, htail⟩ := List.head?_eq_some_iff.mp hbrace
    cases depth with
    | zero =>
      rw [value, Reader.reads_skipSpace_then, Reader.reads_peek_then, htail] at h
      exact absurd h not_reads_throw
    | succ below =>
      obtain ⟨members, hmembers, rfl⟩ := (Reader.reads_value_object_iff htail).mp h
      exact Or.inr (Or.inr ⟨below, tail, members, rfl, rfl, htail, hmembers⟩)
  exact Or.inl ((Reader.reads_value_scalar_iff hbracket hbrace).mp h)

theorem not_reads_scalar_object {members : List (String × Json)} :
    ¬Reads Reader.scalar cs (.object members) rest := by
  intro h
  have hnumber : ∀ {negative : Bool} {cs : List Char},
      Number.read negative cs ≠ some (.object members, rest) := by
    intro negative cs hread
    rcases Number.kept_read hread with ⟨_, ⟨⟩⟩ | ⟨_, _, ⟨⟩⟩
  rcases Reader.reads_scalar_cases h with
    ⟨⟨⟩, _⟩ | ⟨⟨⟩, _⟩ | ⟨⟨⟩, _⟩ | ⟨_, _, _, _, ⟨⟩⟩ | ⟨_, _, hread⟩ | hread
  · exact hnumber hread
  · exact hnumber hread

theorem reads_value_objectText_iff {members : List (String × Json)} :
    Reads (value (depth + 1)) cs (.object members) rest ↔ Reader.ObjectText depth cs members rest := by
  constructor
  · intro h
    rcases reads_value_cases h with hscalar | ⟨_, _, _, ⟨⟩, _⟩ | ⟨_, tail, _, ⟨⟩, ⟨⟩, htail, hmembers⟩
    · exact absurd hscalar not_reads_scalar_object
    · exact ⟨tail, htail, hmembers⟩
  · rintro ⟨tail, htail, hmembers⟩
    exact (Reader.reads_value_object_iff htail).mpr ⟨members, hmembers, rfl⟩

/-- To make something of the members while they are read is to make it of the object that is read. -/
theorem reads_object_value_iff {σ : Type} {member : String → σ → Reader σ}
    {step : String → Json → σ → Option σ} (h : Reader.Folds depth member step) {expected : String}
    {state after : σ} :
    Reads (Reader.object expected member state) cs after rest ↔
      ∃ members, Reads (value (depth + 1)) cs (.object members) rest ∧
        Reader.foldMembers step members state = some after := by
  simp only [Reader.reads_object_iff h, reads_value_objectText_iff]

theorem regular_of_reads_scalar (h : Reads Reader.scalar cs v rest) (hfloats : ∀ x ∈ v.floats, ReadsBack x) :
    Regular depth v := by
  have hnumber : ∀ {negative : Bool} {cs : List Char}, Number.read negative cs = some (v, rest) →
      Regular depth v := by
    intro negative cs hread
    rcases Number.kept_read hread with ⟨x, rfl⟩ | ⟨n, hrange, rfl⟩
    · exact .float (hfloats x (mem_floats.mpr List.mem_cons_self))
    · exact .int hrange
  rcases Reader.reads_scalar_cases h with
    ⟨rfl, _⟩ | ⟨rfl, _⟩ | ⟨rfl, _⟩ | ⟨_, s, _, _, rfl⟩ | ⟨_, _, hread⟩ | hread
  · exact .null
  · exact .bool true
  · exact .bool false
  · exact .string s
  · exact hnumber hread
  · exact hnumber hread

/-- What is read as a value is regular if its keys differ and its floats are read back. -/
theorem regular_of_reads_value (h : Reads (value depth) cs v rest) (hkeys : v.distinctKeys = true)
    (hfloats : ∀ x ∈ v.floats, ReadsBack x) : Regular depth v := by
  induction depth generalizing cs v rest with
  | zero =>
    rcases reads_value_cases h with hscalar | ⟨_, _, hdepth, _⟩ | ⟨_, _, _, hdepth, _⟩
    · exact regular_of_reads_scalar hscalar hfloats
    · cases hdepth
    · cases hdepth
  | succ depth ih =>
    rw [distinctKeys_iff] at hkeys
    simp only [mem_floats] at hfloats
    rcases reads_value_cases h with hscalar | ⟨_, items, ⟨⟩, rfl, hitems⟩ |
      ⟨_, _, members, ⟨⟩, rfl, _, hmembers⟩
    · exact regular_of_reads_scalar hscalar fun x hx => hfloats x (mem_floats.mp hx)
    · refine .array fun item hitem => ?_
      obtain ⟨start, left, hread⟩ := hitems item hitem
      refine ih hread (distinctKeys_iff.mpr fun members hmem => ?_) fun x hx => ?_
      · exact hkeys members (mem_parts_array.mpr (Or.inr ⟨item, hitem, hmem⟩))
      · exact hfloats x (mem_parts_array.mpr (Or.inr ⟨item, hitem, mem_floats.mp hx⟩))
    · refine .object (hkeys members (mem_parts_object.mpr (Or.inl rfl))) fun member hmember => ?_
      obtain ⟨start, left, hread⟩ := exists_read_of_mem_members hmembers member hmember
      refine ih hread (distinctKeys_iff.mpr fun others hmem => ?_) fun x hx => ?_
      · exact hkeys others (mem_parts_object.mpr (Or.inr ⟨member, hmember, hmem⟩))
      · exact hfloats x (mem_parts_object.mpr (Or.inr ⟨member, hmember, mem_floats.mp hx⟩))

/-! ## Settling -/

theorem settledItems_eq_map (items : List Json) : settledItems items = items.map settled := by
  induction items with
  | nil => rfl
  | cons item items ih => rw [settledItems, ih, List.map_cons]

theorem settledMembers_eq_map (members : List (String × Json)) :
    settledMembers members = members.map fun member => (member.1, member.2.settled) := by
  induction members with
  | nil => rfl
  | cons member members ih => rw [settledMembers, ih, List.map_cons]

end Json

theorem Entries.putAll_of_nodup {α : Type} {others : List (String × α)} {entries : Entries α}
    (h : (entries ++ others).names.Nodup) : putAll others entries = entries ++ others := by
  induction others generalizing entries with
  | nil => rw [List.append_nil]; rfl
  | cons other others ih =>
    have happend : entries ++ other :: others = (entries ++ [other]) ++ others := by
      rw [List.append_assoc, List.singleton_append]
    have hfresh : other.1 ∉ entries.names := by
      intro hmem
      rw [names, List.map_append, List.nodup_append] at h
      exact h.2.2 _ hmem _ List.mem_cons_self rfl
    rw [happend] at h
    rw [putAll_cons, put_of_not_mem hfresh, ih h, happend]

theorem Entries.ofPairs_of_nodup {α : Type} {pairs : List (String × α)} (h : (pairs.map (·.1)).Nodup) :
    ofPairs pairs = pairs :=
  putAll_of_nodup (show ([] ++ pairs : Entries α).names.Nodup from h)

namespace Json

theorem Regular.settled {depth : Nat} {v : Json} (h : Regular depth v) : v.settled = v := by
  induction h with
  | array _ ih =>
    rw [Json.settled, settledItems_eq_map, List.map_congr_left ih, List.map_id']
  | object hnames _ ih =>
    have hmembers : ∀ member ∈ _, ((member.1, member.2.settled) : String × Json) = member :=
      fun member hmember => Prod.ext rfl (ih member hmember)
    rw [Json.settled, settledMembers_eq_map, List.map_congr_left hmembers, List.map_id',
      Entries.ofPairs_of_nodup hnames]
  | _ => rfl

theorem Regular.nodup_names {depth : Nat} {members : List (String × Json)}
    (h : Regular depth (.object members)) : (members.map (·.1)).Nodup := by
  cases h with
  | object hnames _ => exact hnames

theorem Regular.ofPairs_settledMembers {depth : Nat} {members : List (String × Json)}
    (h : Regular depth (.object members)) : Entries.ofPairs (settledMembers members) = members :=
  Json.object.inj h.settled

theorem Regular.filter {depth : Nat} {members : List (String × Json)} (h : Regular depth (.object members))
    (p : String × Json → Bool) : Regular depth (.object (members.filter p)) := by
  cases h with
  | object hnames hmembers =>
    exact .object ((List.filter_sublist.map _).nodup hnames) fun member hmember =>
      hmembers member (List.mem_of_mem_filter hmember)

theorem Regular.get? {depth : Nat} {members : List (String × Json)} (h : Regular depth (.object members))
    {key : String} {v : Json} (hfound : Entries.get? members key = some v) :
    ∃ below, Regular below v := by
  cases h with
  | object _ hmembers => exact ⟨_, hmembers _ (Entries.mem_of_get? hfound)⟩

end Json

end AuditFields
