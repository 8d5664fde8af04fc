import AuditFields.Cli.Files

/-!
# Writing files

A file that is written has its text, the other files stay as they are, and no path leads anywhere else
afterwards. So what a sequence of writes to one directory leaves behind is known as long as the names are
different: each file that was written has its text, and if all of them had it before, nothing has changed.
-/

namespace AuditFields.Cli

/-! ## Paths in a directory -/

theorem exists_toList_joinPath (directory file : String) :
    ∃ before, (joinPath directory file).toList = before ++ '/' :: file.toList := by
  unfold joinPath
  split
  · next hlast =>
    obtain ⟨before, hbefore⟩ := List.getLast?_eq_some_iff.mp hlast
    exact ⟨before, by simp [hbefore]⟩
  · exact ⟨directory.toList, by simp⟩

namespace FileTree

variable {tree after ready : FileTree}

theorem getLast?_namesOf_joinPath {directory file : String} (h : '/' ∉ file.toList) :
    (namesOf (joinPath directory file)).getLast? = some file := by
  obtain ⟨before, hpath⟩ := exists_toList_joinPath directory file
  rw [namesOf, hpath, List.splitOn_append_cons_self, List.splitOn_eq_singleton h, List.map_append,
    List.map_singleton, List.getLast?_concat, String.ofList_toList]

theorem getLast?_of_place?_joinPath {directory file : String} {place : List String}
    (hname : '/' ∉ file.toList) (h : tree.place? (joinPath directory file) = some place) :
    place.getLast? = some file := by
  rw [place?, getLast?_namesOf_joinPath hname] at h
  dsimp only at h
  split at h
  · cases h
  · obtain ⟨base, _, rfl⟩ := Option.map_eq_some_iff.mp h
    exact List.getLast?_concat

/-! ## One file -/

theorem lookup_map_replace (files : List (List String × String)) (path : List String) (text : String)
    (other : List String) :
    (files.map fun file => if file.1 = path then (path, text) else file).lookup other =
      if other = path then (files.lookup path).map fun _ => text else files.lookup other := by
  induction files with
  | nil => simp
  | cons file files ih =>
    obtain ⟨first, found⟩ := file
    rw [List.map_cons]
    by_cases hpath : first = path
    · subst hpath
      by_cases hother : other = first
      · simp [hother]
      · rw [if_neg hother] at ih ⊢
        simp [List.lookup_cons, beq_false_of_ne hother, ih]
    · rw [if_neg hpath, List.lookup_cons, List.lookup_cons, List.lookup_cons, ih]
      by_cases hother : other = path
      · subst hother
        simp [beq_false_of_ne (Ne.symm hpath)]
      · simp only [if_neg hother]

theorem file?_put (tree : FileTree) (path : List String) (text : String) (other : List String) :
    (tree.put path text).file? other = if other = path then some text else tree.file? other := by
  unfold put
  split
  · next hsome =>
    obtain ⟨_, htext⟩ := Option.isSome_iff_exists.mp hsome
    exact (lookup_map_replace _ _ _ _).trans (by rw [← file?, htext]; rfl)
  · next hnone =>
    have hfresh : tree.files.lookup path = none := Option.not_isSome_iff_eq_none.mp hnone
    show (tree.files ++ [(path, text)]).lookup other = _
    rw [List.lookup_append]
    by_cases hother : other = path
    · simp [hother, hfresh]
    · simp [hother, List.lookup_cons, beq_false_of_ne hother, file?]

theorem isDirectory_congr (h : after.directories = tree.directories) (path : List String) :
    after.isDirectory path = tree.isDirectory path := by
  rw [isDirectory, isDirectory, h]

theorem walk_congr (h : after.directories = tree.directories) (base names : List String) :
    after.walk base names = tree.walk base names := by
  induction names generalizing base with
  | nil => rfl
  | cons name names ih => simp only [walk, isDirectory_congr h, ih]

theorem place?_congr (h : after.directories = tree.directories) (path : String) :
    after.place? path = tree.place? path := by
  simp only [place?, walk_congr h]

theorem directories_put (tree : FileTree) (path : List String) (text : String) :
    (tree.put path text).directories = tree.directories := by
  unfold put
  split
  · rfl
  · rfl

theorem write_eq_some_iff {path text : String} :
    tree.write path text = some after ↔
      ∃ place, tree.place? path = some place ∧ tree.isDirectory place = false ∧
        after = tree.put place text := by
  unfold write
  cases hplace : tree.place? path with
  | none => simp
  | some place =>
    cases hdirectory : tree.isDirectory place with
    | false => simp [hdirectory, Eq.comm (a := after)]
    | true => simp [hdirectory]

theorem files_of_makeAll {base names : List String} (h : makeAll base names tree = some ready) :
    ready.files = tree.files := by
  induction names generalizing base tree with
  | nil =>
    obtain rfl := Option.some.inj h
    rfl
  | cons name names ih =>
    rw [makeAll] at h
    split at h
    · exact ih h
    · split at h
      · split at h
        · cases h
        · exact ih h
      · dsimp only at h
        split at h
        · cases h
        · split at h
          · exact ih h
          · have hfiles := ih h
            exact hfiles

theorem files_of_makeDirectories {path : String} (h : tree.makeDirectories path = some ready) :
    ready.files = tree.files := by
  unfold makeDirectories at h
  split at h
  · cases h
  · exact files_of_makeAll h

/-! ## Several files -/

/-- The tree after files are written to a directory one after the other, if all can be. -/
def writeAll (directory : String) (files : List (String × String)) (tree : FileTree) : Option FileTree :=
  files.foldlM (fun tree file => tree.write (joinPath directory file.1) file.2) tree

variable {directory : String} {files : List (String × String)}

theorem writeAll_cons {file : String × String} :
    tree.writeAll directory (file :: files) = some after ↔
      ∃ next, tree.write (joinPath directory file.1) file.2 = some next ∧
        next.writeAll directory files = some after :=
  Option.bind_eq_some_iff

theorem file?_of_writeAll_of_read (h : tree.writeAll directory files = some after)
    (hread : ∀ file ∈ files, tree.read (joinPath directory file.1) = some file.2) (place : List String) :
    after.file? place = tree.file? place := by
  induction files generalizing tree with
  | nil =>
    obtain rfl := Option.some.inj h
    rfl
  | cons file files ih =>
    obtain ⟨next, hwrite, hrest⟩ := writeAll_cons.mp h
    obtain ⟨own, hplace, _, rfl⟩ := write_eq_some_iff.mp hwrite
    have hown : tree.file? own = some file.2 := by
      rw [← hread file List.mem_cons_self, read, hplace, Option.bind_some]
    have hsame : ∀ other, (tree.put own file.2).file? other = tree.file? other := by
      intro other
      rw [file?_put]
      split
      · next heq => rw [heq, hown]
      · rfl
    have hdirectories := directories_put tree own file.2
    refine (ih hrest fun other hmem => ?_).trans (hsame place)
    rw [read, place?_congr hdirectories, ← hread other (List.mem_cons_of_mem _ hmem), read]
    exact Option.bind_congr fun found _ => hsame found

theorem file?_of_writeAll_of_not_mem (h : tree.writeAll directory files = some after)
    (hplain : ∀ file ∈ files, '/' ∉ file.1.toList) {place : List String}
    (hplace : ∀ name ∈ place.getLast?, name ∉ files.map (·.1)) :
    after.file? place = tree.file? place := by
  induction files generalizing tree with
  | nil =>
    obtain rfl := Option.some.inj h
    rfl
  | cons file files ih =>
    obtain ⟨next, hwrite, hrest⟩ := writeAll_cons.mp h
    obtain ⟨own, hown, _, rfl⟩ := write_eq_some_iff.mp hwrite
    have hlast := getLast?_of_place?_joinPath (hplain file List.mem_cons_self) hown
    have hne : place ≠ own := by
      rintro rfl
      exact hplace file.1 hlast List.mem_cons_self
    have hrestPlace : ∀ name ∈ place.getLast?, name ∉ files.map (·.1) := fun name hname hmem =>
      hplace name hname (List.mem_cons_of_mem _ hmem)
    rw [ih hrest (fun other hmem => hplain other (List.mem_cons_of_mem _ hmem)) hrestPlace, file?_put,
      if_neg hne]

theorem exists_file?_of_writeAll (h : tree.writeAll directory files = some after)
    (hplain : ∀ file ∈ files, '/' ∉ file.1.toList) (hnodup : (files.map (·.1)).Nodup)
    {file : String × String} (hmem : file ∈ files) :
    ∃ place, tree.place? (joinPath directory file.1) = some place ∧ after.file? place = some file.2 := by
  induction files generalizing tree with
  | nil => cases hmem
  | cons first files ih =>
    obtain ⟨next, hwrite, hrest⟩ := writeAll_cons.mp h
    obtain ⟨own, hown, _, rfl⟩ := write_eq_some_iff.mp hwrite
    obtain ⟨hfresh, hnodupRest⟩ := List.nodup_cons.mp hnodup
    have hplainRest : ∀ file ∈ files, '/' ∉ file.1.toList := fun other hmem =>
      hplain other (List.mem_cons_of_mem _ hmem)
    rcases List.mem_cons.mp hmem with rfl | htail
    · have hlast := getLast?_of_place?_joinPath (hplain file List.mem_cons_self) hown
      have hnot : ∀ name ∈ own.getLast?, name ∉ files.map (·.1) := by
        rw [hlast]
        rintro _ ⟨⟩
        exact hfresh
      refine ⟨own, hown, ?_⟩
      rw [file?_of_writeAll_of_not_mem hrest hplainRest hnot, file?_put, if_pos rfl]
    · rw [← place?_congr (directories_put tree own first.2)]
      exact ih hrest hplainRest hnodupRest htail

/-- What is written makes no difference exactly if all of it was there before. -/
theorem file?_of_writeAll_iff (h : tree.writeAll directory files = some after)
    (hplain : ∀ file ∈ files, '/' ∉ file.1.toList) (hnodup : (files.map (·.1)).Nodup) :
    (∀ place, after.file? place = tree.file? place) ↔
      ∀ file ∈ files, tree.read (joinPath directory file.1) = some file.2 := by
  refine ⟨fun hsame file hmem => ?_, file?_of_writeAll_of_read h⟩
  obtain ⟨place, hplace, htext⟩ := exists_file?_of_writeAll h hplain hnodup hmem
  rw [read, hplace, Option.bind_some, ← hsame, htext]

end FileTree

end AuditFields.Cli
