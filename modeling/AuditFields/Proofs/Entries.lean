import AuditFields.Entries

/-!
# The order of entries

Putting an entry changes what is found under its name only, removes no name and moves none: the names
stay as they are when the name is there, and gain it at the end when it is not. Names that are
pairwise different stay so, and then an entry is found exactly if it is in the list. The same is said
of entries put one after the other.
-/

namespace AuditFields.Entries

variable {α : Type}

/-! ## What is found -/

theorem get?_put (name : String) (value : α) (entries : Entries α) (other : String) :
    get? (put name value entries) other = if name = other then some value else get? entries other := by
  by_cases h : name = other
  · subst h
    rw [if_pos rfl, get?_put_self]
  · rw [if_neg h, get?_put_of_ne h]

theorem mem_of_get? {name : String} {value : α} {entries : Entries α}
    (h : entries.get? name = some value) : (name, value) ∈ entries := by
  induction entries with
  | nil => simp at h
  | cons entry rest ih =>
    obtain ⟨key, old⟩ := entry
    rw [get?_cons] at h
    by_cases hk : key = name
    · rw [if_pos hk] at h
      obtain rfl := Option.some.inj h
      rw [hk]
      exact List.mem_cons_self
    · rw [if_neg hk] at h
      exact List.mem_cons_of_mem _ (ih h)

theorem mem_names_of_get? {name : String} {value : α} {entries : Entries α}
    (h : entries.get? name = some value) : name ∈ entries.names :=
  List.mem_map_of_mem (mem_of_get? h)

theorem get?_eq_none_iff {name : String} {entries : Entries α} :
    entries.get? name = none ↔ name ∉ entries.names := by
  induction entries with
  | nil => simp [names]
  | cons entry rest ih =>
    obtain ⟨key, old⟩ := entry
    rw [get?_cons]
    by_cases hk : key = name
    · simp [names, hk]
    · rw [if_neg hk, ih]
      simp [names, Ne.symm hk]

theorem contains_iff {name : String} {entries : Entries α} :
    entries.contains name = true ↔ name ∈ entries.names := by
  rw [contains]
  cases hfound : entries.get? name with
  | none => simp [get?_eq_none_iff.mp hfound]
  | some value => simp [mem_names_of_get? hfound]

theorem get?_of_mem {name : String} {value : α} {entries : Entries α}
    (hnodup : entries.names.Nodup) (h : (name, value) ∈ entries) :
    entries.get? name = some value := by
  induction entries with
  | nil => simp at h
  | cons entry rest ih =>
    obtain ⟨key, old⟩ := entry
    obtain ⟨hfresh, hrest⟩ := List.nodup_cons.mp hnodup
    rw [get?_cons]
    rcases List.mem_cons.mp h with heq | hmem
    · obtain ⟨rfl, rfl⟩ := Prod.mk.inj heq
      rw [if_pos rfl]
    · have hne : key ≠ name := by
        rintro rfl
        exact hfresh (List.mem_map.mpr ⟨_, hmem, rfl⟩)
      rw [if_neg hne]
      exact ih hrest hmem

theorem get?_of_perm {entries other : Entries α} (h : entries.Perm other)
    (hnodup : entries.names.Nodup) (name : String) : other.get? name = entries.get? name := by
  have hnames : entries.names.Perm other.names := h.map _
  cases hfound : entries.get? name with
  | none => exact get?_eq_none_iff.mpr fun hmem => get?_eq_none_iff.mp hfound (hnames.mem_iff.mpr hmem)
  | some value => exact get?_of_mem (hnames.nodup_iff.mp hnodup) (h.mem_iff.mp (mem_of_get? hfound))

theorem get?_filter (p : String → Bool) (entries : Entries α) (name : String) :
    get? (entries.filter fun entry => p entry.1) name = if p name then get? entries name else none := by
  induction entries with
  | nil => simp
  | cons entry rest ih =>
    obtain ⟨key, value⟩ := entry
    rw [List.filter_cons, get?_cons]
    by_cases heq : key = name
    · subst heq
      by_cases hkey : p key = true
      · simp [hkey, get?_cons]
      · simp [hkey, ih]
    · by_cases hkey : p key = true
      · simp [hkey, get?_cons, heq, ih]
      · simp [hkey, heq, ih]

/-! ## The names -/

/-- The names with one more at the end, unless it is there already. -/
def withName (names : List String) (name : String) : List String :=
  if name ∈ names then names else names ++ [name]

theorem withName_of_mem {names : List String} {name : String} (h : name ∈ names) :
    withName names name = names :=
  if_pos h

theorem names_put (name : String) (value : α) (entries : Entries α) :
    (put name value entries).names = withName entries.names name := by
  unfold withName
  induction entries with
  | nil => simp [put, names]
  | cons entry rest ih =>
    obtain ⟨key, old⟩ := entry
    by_cases hk : key = name
    · simp [put, names, hk]
    · have hiff : name ∈ names ((key, old) :: rest) ↔ name ∈ names rest := by
        simp [names, Ne.symm hk]
      have hput : (put name value ((key, old) :: rest)).names =
          key :: (put name value rest).names := by
        rw [put, if_neg hk]
        rfl
      rw [hput, ih]
      simp only [hiff]
      split
      · rfl
      · rfl

theorem put_of_not_mem {name : String} {entries : Entries α} (h : name ∉ entries.names) (value : α) :
    put name value entries = entries ++ [(name, value)] := by
  induction entries with
  | nil => rfl
  | cons entry rest ih =>
    obtain ⟨key, old⟩ := entry
    have hkey : key ≠ name := fun heq => h (heq ▸ List.mem_cons_self)
    rw [put, if_neg hkey, ih fun hmem => h (List.mem_cons_of_mem _ hmem), List.cons_append]

theorem exists_put_eq_of_mem {name : String} {entries : Entries α} (h : name ∈ entries.names) (value : α) :
    ∃ before old rest, entries = before ++ (name, old) :: rest ∧
      put name value entries = before ++ (name, value) :: rest := by
  induction entries with
  | nil => exact absurd h List.not_mem_nil
  | cons entry rest ih =>
    obtain ⟨key, old⟩ := entry
    by_cases hkey : key = name
    · subst hkey
      exact ⟨[], old, rest, rfl, if_pos rfl⟩
    · have hrest := (List.mem_cons.mp h).resolve_left (Ne.symm hkey)
      obtain ⟨before, other, after, rfl, hput⟩ := ih hrest
      exact ⟨(key, old) :: before, other, after, rfl, by rw [put, if_neg hkey, hput, List.cons_append]⟩

theorem nodup_names_put {name : String} {value : α} {entries : Entries α}
    (h : entries.names.Nodup) : (put name value entries).names.Nodup := by
  rw [names_put, withName]
  split
  · exact h
  · next hfresh =>
    rw [List.nodup_append]
    refine ⟨h, by simp, fun a ha b hb => ?_⟩
    obtain rfl := List.mem_singleton.mp hb
    exact fun heq => hfresh (heq ▸ ha)

theorem mem_put {name : String} {value : α} {entries : Entries α} {entry : String × α}
    (h : entry ∈ put name value entries) : entry = (name, value) ∨ entry ∈ entries := by
  induction entries with
  | nil => exact Or.inl (List.mem_singleton.mp h)
  | cons first rest ih =>
    obtain ⟨key, old⟩ := first
    rw [put] at h
    split at h
    · next hk =>
      rcases List.mem_cons.mp h with heq | hmem
      · exact Or.inl (hk ▸ heq)
      · exact Or.inr (List.mem_cons_of_mem _ hmem)
    · rcases List.mem_cons.mp h with heq | hmem
      · exact Or.inr (heq ▸ List.mem_cons_self)
      · exact (ih hmem).imp_right (List.mem_cons_of_mem _)

/-! ## Several entries -/

/-- The entries with others put one after the other. -/
def putAll (others : List (String × α)) (entries : Entries α) : Entries α :=
  others.foldl (fun entries other => put other.1 other.2 entries) entries

theorem putAll_cons (other : String × α) (others : List (String × α)) (entries : Entries α) :
    putAll (other :: others) entries = putAll others (put other.1 other.2 entries) :=
  rfl

theorem names_putAll (others : List (String × α)) (entries : Entries α) :
    (putAll others entries).names = (others.map (·.1)).foldl withName entries.names := by
  induction others generalizing entries with
  | nil => rfl
  | cons other others ih => rw [putAll_cons, ih, names_put, List.map_cons, List.foldl_cons]

theorem get?_putAll_of_not_mem {name : String} {others : List (String × α)}
    (h : name ∉ others.map (·.1)) (entries : Entries α) :
    get? (putAll others entries) name = get? entries name := by
  induction others generalizing entries with
  | nil => rfl
  | cons other others ih =>
    rw [List.map_cons, List.mem_cons, not_or] at h
    rw [putAll_cons, ih h.2, get?_put_of_ne (Ne.symm h.1)]

theorem get?_putAll {others : List (String × α)} (h : (others.map (·.1)).Nodup)
    (entries : Entries α) (name : String) :
    get? (putAll others entries) name = (get? others name <|> get? entries name) := by
  induction others generalizing entries with
  | nil => rfl
  | cons other others ih =>
    obtain ⟨key, value⟩ := other
    obtain ⟨hfresh, hrest⟩ := List.nodup_cons.mp h
    rw [putAll_cons, get?_cons]
    by_cases hkey : key = name
    · subst hkey
      rw [get?_putAll_of_not_mem hfresh, get?_put_self, if_pos rfl]
      rfl
    · rw [ih hrest, get?_put_of_ne hkey, if_neg hkey]

end AuditFields.Entries
