import AuditFields.Proofs.Json.Leaves
import Mathlib.Data.List.DropRight

/-!
# Reading the indented text of a value

A value is regular to a depth if it nests no deeper, its integers are in range, its floats are read back and
no object holds a name twice (`Regular`). The indented text of a regular value is read as the value
(**`ofTextRaw_indented`**). The statement for the induction is about the text at any level of indentation
with any rest after it that does not go on a number (`WrittenAt`); arrays and objects share the layout of
their parts (`furtherParts`).
-/

namespace AuditFields.Json

variable {depth level : Nat} {cs rest : List Char} {v : Json}

/-- A value with integers in range, floats that are read back and different names in each object, of which
the arrays and objects nest up to a depth. -/
inductive Regular : Nat → Json → Prop where
  | null {depth : Nat} : Regular depth .null
  | bool {depth : Nat} (b : Bool) : Regular depth (.bool b)
  | int {depth : Nat} {n : Int} (h : InRange n) : Regular depth (.int n)
  | float {depth : Nat} {x : Binary64} (h : ReadsBack x) : Regular depth (.float x)
  | string {depth : Nat} (s : String) : Regular depth (.string s)
  | array {depth : Nat} {items : List Json} (h : ∀ item ∈ items, Regular depth item) :
      Regular (depth + 1) (.array items)
  | object {depth : Nat} {members : List (String × Json)} (hnames : (members.map (·.1)).Nodup)
      (h : ∀ member ∈ members, Regular depth member.2) : Regular (depth + 1) (.object members)

/-! ## Blanks -/

open Reader (isSpace value moreItems)

theorem reads_value_dropWhile :
    Reads (value depth) (cs.dropWhile isSpace) v rest ↔ Reads (value depth) cs v rest := by
  cases depth with
  | zero => rw [value, Reader.reads_skipSpace_then, Reader.reads_skipSpace_then, List.dropWhile_idempotent]
  | succ depth =>
    rw [value, Reader.reads_skipSpace_then, Reader.reads_skipSpace_then, List.dropWhile_idempotent]

theorem isSpace_newline (level : Nat) : ∀ c ∈ (newline level).toList, isSpace c = true := by
  intro c hc
  rw [newline, String.toList_append, List.mem_append] at hc
  rcases hc with hbreak | hblank
  · obtain rfl := List.mem_singleton.mp hbreak
    rfl
  · rw [String.toList_ofList] at hblank
    obtain rfl := List.eq_of_mem_replicate hblank
    rfl

theorem dropWhile_newline (level : Nat) (cs : List Char) :
    ((newline level).toList ++ cs).dropWhile isSpace = cs.dropWhile isSpace :=
  List.dropWhile_append_of_pos (isSpace_newline level)

theorem ends_newline (level : Nat) (cs : List Char) : Number.Ends ((newline level).toList ++ cs) := by
  rw [newline, String.toList_append]
  exact Number.ends_cons (by decide)

/-! ## The parts of a container -/

/-- The text of a container after its first part: further parts, each after a comma and a line break, and the
line of the closing bracket. -/
def furtherParts (level : Nat) (closing : List Char) : List String → List Char
  | [] => (newline level).toList ++ closing
  | part :: parts =>
    ',' :: ((newline (level + 1)).toList ++ (part.toList ++ furtherParts level closing parts))

theorem toList_block_nil (level : Nat) (opening closing : String) :
    (block level opening closing []).toList ++ rest = opening.toList ++ (closing.toList ++ rest) := by
  rw [block, String.toList_append, List.append_assoc]

theorem toList_block_cons (level : Nat) (opening closing part : String) (parts : List String) :
    (block level opening closing (part :: parts)).toList ++ rest =
      opening.toList ++
        ((newline (level + 1)).toList ++ (part.toList ++ furtherParts level (closing.toList ++ rest) parts)) := by
  have hfurther : (parts.flatMap fun part => ("," ++ newline (level + 1)).toList ++ part.toList) ++
      ((newline level).toList ++ (closing.toList ++ rest)) =
        furtherParts level (closing.toList ++ rest) parts := by
    induction parts with
    | nil => rfl
    | cons part parts ih =>
      rw [furtherParts, ← ih, List.flatMap_cons, String.toList_append]
      simp only [List.append_assoc]
      rfl
  have hjoin := toList_joinWith_cons ("," ++ newline (level + 1)) id part parts
  rw [List.map_id] at hjoin
  rw [← hfurther, block]
  · simp only [String.toList_append, hjoin, List.append_assoc, id_eq]
  · exact List.cons_ne_nil part parts

theorem ends_furtherParts (level : Nat) (closing : List Char) (parts : List String) :
    Number.Ends (furtherParts level closing parts) := by
  cases parts with
  | nil => exact ends_newline level closing
  | cons part parts => exact Number.ends_cons (by decide)

theorem length_lt_furtherParts (level : Nat) (c : Char) (closing : List Char) (parts : List String) :
    parts.length < (furtherParts level (c :: closing) parts).length := by
  induction parts with
  | nil =>
    rw [furtherParts, List.length_append, List.length_cons, List.length_nil]
    omega
  | cons part parts ih =>
    simp only [furtherParts, List.length_cons, List.length_append]
    omega

theorem indentedItems_eq_map (level : Nat) (items : List Json) :
    indentedItems level items = items.map (indentedAt level) := by
  induction items with
  | nil => rfl
  | cons item items ih => rw [indentedItems, ih, List.map_cons]

/-- The text of a member at a level of indentation. -/
def indentedMember (level : Nat) (member : String × Json) : String :=
  quoted member.1 ++ ": " ++ indentedAt level member.2

theorem indentedMembers_eq_map (level : Nat) (members : List (String × Json)) :
    indentedMembers level members = members.map (indentedMember level) := by
  induction members with
  | nil => rfl
  | cons member members ih => rw [indentedMembers, ih, List.map_cons, indentedMember]

/-! ## Scalars -/

theorem exists_head_of_reads_scalar (h : Reads Reader.scalar cs v rest) :
    ∃ c tail, cs = c :: tail ∧ isSpace c = false ∧ c ≠ '[' ∧ c ≠ ']' ∧ c ≠ '{' := by
  rcases Reader.reads_scalar_cases h with
    ⟨_, rfl⟩ | ⟨_, rfl⟩ | ⟨_, rfl⟩ | ⟨tail, _, rfl, _⟩ | ⟨tail, rfl, _⟩ | hread
  · exact ⟨'n', _, rfl, by decide⟩
  · exact ⟨'t', _, rfl, by decide⟩
  · exact ⟨'f', _, rfl, by decide⟩
  · exact ⟨'"', tail, rfl, by decide⟩
  · exact ⟨'-', tail, rfl, by decide⟩
  · obtain ⟨c, tail, rfl, hdigit⟩ := Reader.exists_digit_of_read hread
    have hne : ∀ {other : Char}, other.isDigit = false → c ≠ other := ne_of_isDigit hdigit
    have hspace : isSpace c = false := by
      simp only [isSpace, Bool.or_eq_false_iff, beq_eq_false_iff_ne]
      exact ⟨⟨⟨hne rfl, hne rfl⟩, hne rfl⟩, hne rfl⟩
    exact ⟨c, tail, rfl, hspace, hne rfl, hne rfl, hne rfl⟩

theorem reads_value_of_scalar (h : Reads Reader.scalar cs v rest) : Reads (value depth) cs v rest := by
  obtain ⟨c, tail, rfl, hspace, hbracket, _, hbrace⟩ := exists_head_of_reads_scalar h
  have hdrop : (c :: tail).dropWhile isSpace = c :: tail :=
    List.dropWhile_cons_of_neg (Bool.eq_false_iff.mp hspace)
  refine (Reader.reads_value_scalar_iff ?_ ?_).mpr (by rw [hdrop]; exact h)
  · rw [hdrop]
    exact fun heq => hbracket (Option.some.inj heq)
  · rw [hdrop]
    exact fun heq => hbrace (Option.some.inj heq)

theorem reads_scalar_null : Reads Reader.scalar ((compact .null).toList ++ rest) .null rest := by
  rw [compact]
  exact Reader.reads_scalar_null

theorem reads_scalar_bool (b : Bool) :
    Reads Reader.scalar ((compact (.bool b)).toList ++ rest) (.bool b) rest := by
  cases b with
  | true =>
    rw [compact]
    exact Reader.reads_scalar_true
  | false =>
    rw [compact]
    exact Reader.reads_scalar_false

theorem reads_scalar_string (s : String) :
    Reads Reader.scalar ((compact (.string s)).toList ++ rest) (.string s) rest := by
  rw [compact, toList_quoted, List.cons_append, List.append_assoc]
  exact Reader.reads_scalar_string (reads_stringRest_escape s)

/-! ## Values -/

/-- The text of the value at the level is read as the value, whatever follows. -/
def WrittenAt (depth level : Nat) (v : Json) : Prop :=
  ∀ {rest : List Char}, Number.Ends rest →
    Reads (value depth) ((indentedAt level v).toList ++ rest) v rest

theorem Regular.exists_head (h : Regular depth v) (level : Nat) :
    ∃ c tail, (indentedAt level v).toList = c :: tail ∧ isSpace c = false ∧ c ≠ ']' := by
  have hscalar : ∀ {v : Json}, Reads Reader.scalar ((compact v).toList ++ []) v [] →
      ∃ c tail, (compact v).toList = c :: tail ∧ isSpace c = false ∧ c ≠ ']' := by
    intro v hread
    obtain ⟨c, tail, htext, hspace, _, hclose, _⟩ := exists_head_of_reads_scalar hread
    rw [List.append_nil] at htext
    exact ⟨c, tail, htext, hspace, hclose⟩
  have hblock : ∀ (opening : Char) (closing : String) (parts : List String),
      isSpace opening = false → opening ≠ ']' →
      ∃ c tail, (block level (String.singleton opening) closing parts).toList = c :: tail ∧
        isSpace c = false ∧ c ≠ ']' := by
    intro opening closing parts hspace hclose
    cases parts with
    | nil => exact ⟨opening, closing.toList, by simp [block], hspace, hclose⟩
    | cons part parts =>
      have htext : (block level (String.singleton opening) closing (part :: parts)).toList ++ [] = _ :=
        toList_block_cons level (String.singleton opening) closing part parts
      rw [List.append_nil, String.toList_singleton, List.singleton_append] at htext
      exact ⟨opening, _, htext, hspace, hclose⟩
  cases h with
  | null => exact hscalar reads_scalar_null
  | bool b => exact hscalar (reads_scalar_bool b)
  | int h => exact hscalar (reads_scalar_int h Number.ends_nil)
  | float h => exact hscalar (reads_scalar_float h Number.ends_nil)
  | string s => exact hscalar (reads_scalar_string s)
  | array h => exact hblock '[' "]" _ (by decide) (by decide)
  | object hnames h => exact hblock '{' "\x7d" _ (by decide) (by decide)

theorem reads_moreItems_furtherParts {items : List Json}
    (hitems : ∀ item ∈ items, WrittenAt depth (level + 1) item) {bound : List Char}
    (hbound : items.length < bound.length) :
    Reads (moreItems (value depth) bound)
      (furtherParts level (']' :: rest) (items.map (indentedAt (level + 1)))) items rest := by
  induction items generalizing bound with
  | nil =>
    cases bound with
    | nil => cases hbound
    | cons c bound =>
      refine Reader.reads_moreItems_iff.mpr (Or.inl ⟨?_, rfl⟩)
      rw [List.map_nil, furtherParts, dropWhile_newline]
      rfl
  | cons item items ih =>
    cases bound with
    | nil => cases hbound
    | cons c bound =>
      obtain ⟨hitem, hothers⟩ := List.forall_mem_cons.mp hitems
      have hrest := ih hothers (Nat.lt_of_succ_lt_succ hbound)
      refine Reader.reads_moreItems_iff.mpr (Or.inr ⟨_, item, _, items, rfl, ?_, hrest, rfl⟩)
      rw [← reads_value_dropWhile, dropWhile_newline, reads_value_dropWhile]
      exact hitem (ends_furtherParts level _ _)

theorem member_indentedMember {member : String × Json} (h : WrittenAt depth level member.2)
    (hrest : Number.Ends rest) :
    Reader.Member depth ((indentedMember level member).toList ++ rest) member rest := by
  have htext : (indentedMember level member).toList ++ rest =
      '"' :: (member.1.toList.flatMap escape ++
        '"' :: ':' :: ' ' :: ((indentedAt level member.2).toList ++ rest)) := by
    simp only [indentedMember, String.toList_append, toList_quoted, List.append_assoc, List.cons_append]
    rfl
  rw [htext]
  refine ⟨_, reads_bind.mpr ⟨(), _, Reader.reads_expect.mpr rfl, reads_stringRest_escape member.1⟩, ?_⟩
  refine reads_bind.mpr ⟨(), _, Reader.reads_expect.mpr rfl, ?_⟩
  have hblank : (' ' :: ((indentedAt level member.2).toList ++ rest)).dropWhile isSpace =
      ((indentedAt level member.2).toList ++ rest).dropWhile isSpace :=
    List.dropWhile_cons_of_pos rfl
  rw [← reads_value_dropWhile, hblank, reads_value_dropWhile]
  exact h hrest

theorem member_dropWhile {member : String × Json}
    (h : Reader.Member depth (cs.dropWhile isSpace) member rest) : Reader.Member depth cs member rest := by
  obtain ⟨mid, hname, hvalue⟩ := h
  obtain ⟨_, start, hquote, hstring⟩ := reads_bind.mp hname
  refine ⟨mid, reads_bind.mpr ⟨(), start, ?_, hstring⟩, hvalue⟩
  rw [Reader.reads_expect] at hquote ⊢
  rwa [List.dropWhile_idempotent] at hquote

theorem dropWhile_indentedMember (level : Nat) (member : String × Json) (cs : List Char) :
    ((indentedMember level member).toList ++ cs).dropWhile isSpace =
      (indentedMember level member).toList ++ cs := by
  simp only [indentedMember, String.toList_append, toList_quoted, List.append_assoc, List.cons_append]
  rfl

theorem moreMembers_furtherParts {members : List (String × Json)}
    (hmembers : ∀ member ∈ members, WrittenAt depth (level + 1) member.2) {bound : List Char}
    (hbound : members.length < bound.length) :
    Reader.MoreMembers depth bound
      (furtherParts level ('}' :: rest) (members.map (indentedMember (level + 1)))) members rest := by
  induction members generalizing bound with
  | nil =>
    cases bound with
    | nil => cases hbound
    | cons c bound =>
      refine .close ?_
      rw [List.map_nil, furtherParts, dropWhile_newline]
      rfl
  | cons member members ih =>
    cases bound with
    | nil => cases hbound
    | cons c bound =>
      obtain ⟨hmember, hothers⟩ := List.forall_mem_cons.mp hmembers
      refine .next rfl (member_dropWhile ?_) (ih hothers (Nat.lt_of_succ_lt_succ hbound))
      rw [dropWhile_newline, dropWhile_indentedMember]
      exact member_indentedMember hmember (ends_furtherParts level _ _)

theorem reads_items_parts {item : Json} {items : List Json} (hregular : Regular depth item)
    (hitem : WrittenAt depth (level + 1) item)
    (hothers : ∀ other ∈ items, WrittenAt depth (level + 1) other) :
    Reads (Reader.items (value depth))
      ((newline (level + 1)).toList ++ ((indentedAt (level + 1) item).toList ++
        furtherParts level (']' :: rest) (items.map (indentedAt (level + 1))))) (item :: items) rest := by
  obtain ⟨c, tail, htext, hspace, hclose⟩ := hregular.exists_head (level + 1)
  have hdrop : ∀ cs, ((newline (level + 1)).toList ++
      ((indentedAt (level + 1) item).toList ++ cs)).dropWhile isSpace =
        (indentedAt (level + 1) item).toList ++ cs := by
    intro cs
    rw [dropWhile_newline, htext, List.cons_append,
      List.dropWhile_cons_of_neg (Bool.eq_false_iff.mp hspace)]
  have hlength := length_lt_furtherParts level ']' rest (items.map (indentedAt (level + 1)))
  rw [List.length_map] at hlength
  rw [Reader.reads_items_iff, hdrop]
  refine Or.inr ⟨item, _, items, ?_, hitem (ends_furtherParts level _ _), ?_, rfl⟩
  · rw [htext]
    exact fun heq => hclose (Option.some.inj heq)
  · exact reads_moreItems_furtherParts hothers hlength

theorem members_parts {member : String × Json} {members : List (String × Json)}
    (hmember : WrittenAt depth (level + 1) member.2)
    (hothers : ∀ other ∈ members, WrittenAt depth (level + 1) other.2) :
    Reader.Members depth
      ((newline (level + 1)).toList ++ ((indentedMember (level + 1) member).toList ++
        furtherParts level ('}' :: rest) (members.map (indentedMember (level + 1)))))
      (member :: members) rest := by
  have hdrop := dropWhile_newline (level + 1) ((indentedMember (level + 1) member).toList ++
    furtherParts level ('}' :: rest) (members.map (indentedMember (level + 1))))
  rw [dropWhile_indentedMember] at hdrop
  have hlength := length_lt_furtherParts level '}' rest (members.map (indentedMember (level + 1)))
  rw [List.length_map] at hlength
  refine .some ?_ ?_ (moreMembers_furtherParts hothers hlength)
  · rw [hdrop]
    simp [indentedMember, String.toList_append, toList_quoted]
  · rw [hdrop]
    exact member_indentedMember hmember (ends_furtherParts level _ _)

theorem writtenAt_array {items : List Json} (hregular : ∀ item ∈ items, Regular depth item)
    (hitems : ∀ item ∈ items, WrittenAt depth (level + 1) item) :
    WrittenAt (depth + 1) level (.array items) := by
  intro rest _
  rw [indentedAt, indentedItems_eq_map]
  cases items with
  | nil =>
    rw [List.map_nil, toList_block_nil]
    refine (Reader.reads_value_array_iff rfl).mpr ⟨[], ?_, rfl⟩
    exact Reader.reads_items_iff.mpr (Or.inl ⟨rfl, rfl⟩)
  | cons item items =>
    obtain ⟨hitem, hothers⟩ := List.forall_mem_cons.mp hitems
    rw [List.map_cons, toList_block_cons]
    refine (Reader.reads_value_array_iff rfl).mpr ⟨item :: items, ?_, rfl⟩
    exact reads_items_parts (hregular item List.mem_cons_self) hitem hothers

theorem writtenAt_object {members : List (String × Json)}
    (hmembers : ∀ member ∈ members, WrittenAt depth (level + 1) member.2) :
    WrittenAt (depth + 1) level (.object members) := by
  intro rest _
  rw [indentedAt, indentedMembers_eq_map]
  cases members with
  | nil =>
    rw [List.map_nil, toList_block_nil]
    exact (Reader.reads_value_object_iff rfl).mpr ⟨[], .empty rfl, rfl⟩
  | cons member members =>
    obtain ⟨hmember, hothers⟩ := List.forall_mem_cons.mp hmembers
    rw [List.map_cons, toList_block_cons]
    exact (Reader.reads_value_object_iff rfl).mpr ⟨member :: members, members_parts hmember hothers, rfl⟩

/-- The text of a regular value is read as the value. -/
theorem Regular.writtenAt (h : Regular depth v) : ∀ level, WrittenAt depth level v := by
  induction h with
  | null => exact fun _ _ _ => reads_value_of_scalar reads_scalar_null
  | bool b => exact fun _ _ _ => reads_value_of_scalar (reads_scalar_bool b)
  | int h => exact fun _ _ hrest => reads_value_of_scalar (reads_scalar_int h hrest)
  | float h => exact fun _ _ hrest => reads_value_of_scalar (reads_scalar_float h hrest)
  | string s => exact fun _ _ _ => reads_value_of_scalar (reads_scalar_string s)
  | array h ih => exact fun level => writtenAt_array h fun item hitem => ih item hitem (level + 1)
  | object _ _ ih => exact fun level => writtenAt_object fun member hmember => ih member hmember (level + 1)

/-! ## Whole texts -/

theorem whole_eq_ok_iff {α : Type} {reader : Reader α} {text : String} {x : α} :
    Reader.whole reader text = .ok x ↔ ∃ rest, Reads reader text.toList x rest ∧ rest.all isSpace = true := by
  unfold Reader.whole Reads
  cases reader.run text.toList with
  | error refusal =>
    constructor
    · rintro ⟨⟩
    · rintro ⟨_, ⟨⟩, _⟩
  | ok p =>
    obtain ⟨y, left⟩ := p
    dsimp only
    constructor
    · intro h
      split at h
      · next hspace =>
        cases h
        exact ⟨left, rfl, hspace⟩
      · cases h
    · rintro ⟨rest, ⟨⟩, hspace⟩
      rw [if_pos hspace]

/-- The indented text of a regular value is read as the value. -/
theorem ofTextRaw_indented (h : Regular maxDepth v) : ofTextRaw v.indented = .ok v := by
  have hread := h.writtenAt 0 Number.ends_nil
  rw [List.append_nil] at hread
  exact whole_eq_ok_iff.mpr ⟨[], hread, rfl⟩

end AuditFields.Json
