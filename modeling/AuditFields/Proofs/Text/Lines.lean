import AuditFields.Text.Blank

/-!
# The lines of a text

The lines of a text are what stands between its line feeds, but for the carriage returns before these and
for an empty part at the end (`lines_eq_of_splitOn`). Lines with a line feed behind each are told apart
again, whatever follows them.
-/

namespace AuditFields.Text

/-- The line without a carriage return at its end. -/
def dropReturn (line : List Char) : List Char :=
  if line.getLast? = some '\r' then line.dropLast else line

theorem dropReturn_cons_cons (c d : Char) (line : List Char) :
    dropReturn (c :: d :: line) = c :: dropReturn (d :: line) := by
  unfold dropReturn
  rw [List.getLast?_cons_cons, List.dropLast_cons_cons]
  split
  · rfl
  · rfl

theorem dropReturn_append (front : List Char) {line : List Char} (h : line ≠ []) :
    dropReturn (front ++ line) = front ++ dropReturn line := by
  have hlast : (front ++ line).getLast? = line.getLast? := by
    rw [List.getLast?_append, List.getLast?_eq_some_getLast h, Option.some_or]
  unfold dropReturn
  rw [hlast, List.dropLast_append_of_ne_nil h]
  split
  · rfl
  · rfl

theorem dropReturn_prefix_self (line : List Char) : dropReturn line <+: line := by
  unfold dropReturn
  split
  · exact List.dropLast_prefix line
  · exact List.prefix_rfl

theorem dropReturn_eq_self_iff {line : List Char} :
    dropReturn line = line ↔ line.getLast? ≠ some '\r' := by
  unfold dropReturn
  split
  · next h =>
    refine iff_of_false (fun heq => ?_) (fun hne => hne h)
    have hlength := congrArg List.length heq
    obtain ⟨front, rfl⟩ := List.getLast?_eq_some_iff.mp h
    simp at hlength
  · next h => exact iff_of_true rfl h

theorem lines_feed (cs : List Char) : lines ('\n' :: cs) = [] :: lines cs := rfl

theorem lines_cons {c : Char} {cs : List Char} (hc : c ≠ '\n')
    (hreturn : c = '\r' → cs.head? ≠ some '\n') :
    lines (c :: cs) = match lines cs with
      | [] => [[c]]
      | line :: rest => (c :: line) :: rest := by
  rw [lines.eq_def]
  split
  · next heq => cases heq
  · next heq => exact absurd (List.cons.inj heq).1 hc
  · next heq =>
    obtain ⟨rfl, rfl⟩ := List.cons.inj heq
    exact absurd rfl (hreturn rfl)
  · next heq =>
    obtain ⟨rfl, rfl⟩ := List.cons.inj heq
    rfl

theorem not_mem_of_not_mem_cons {c d : Char} {line : List Char} (h : c ∉ d :: line) : d ≠ c ∧ c ∉ line :=
  ⟨fun heq => h (heq ▸ List.mem_cons_self), fun hmem => h (List.mem_cons_of_mem _ hmem)⟩

theorem lines_line {line : List Char} (h : '\n' ∉ line) (rest : List Char) :
    lines (line ++ '\n' :: rest) = dropReturn line :: lines rest := by
  induction line with
  | nil => exact lines_feed rest
  | cons c line ih =>
    obtain ⟨hc, hline⟩ := not_mem_of_not_mem_cons h
    cases line with
    | nil =>
      by_cases hreturn : c = '\r'
      · rw [hreturn]
        rfl
      · rw [List.singleton_append, lines_cons hc fun heq => absurd heq hreturn, lines_feed,
          dropReturn_eq_self_iff.mpr (by simpa using hreturn)]
    | cons d line =>
      have hd : d ≠ '\n' := (not_mem_of_not_mem_cons hline).1
      rw [List.cons_append, lines_cons hc fun _ => by simpa using hd, ih hline, dropReturn_cons_cons]

theorem lines_last {line : List Char} (h : '\n' ∉ line) (hne : line ≠ []) : lines line = [line] := by
  induction line with
  | nil => exact absurd rfl hne
  | cons c line ih =>
    obtain ⟨hc, hline⟩ := not_mem_of_not_mem_cons h
    cases line with
    | nil => rw [lines_cons hc fun _ => by simp, lines]
    | cons d line =>
      have hd : d ≠ '\n' := (not_mem_of_not_mem_cons hline).1
      rw [lines_cons hc fun _ => by simpa using hd, ih hline (List.cons_ne_nil _ _)]

theorem lines_flatMap {ls : List (List Char)} (h : ∀ line ∈ ls, '\n' ∉ line) (rest : List Char) :
    lines (ls.flatMap (· ++ ['\n']) ++ rest) = ls.map dropReturn ++ lines rest := by
  induction ls with
  | nil => rfl
  | cons line ls ih =>
    obtain ⟨hline, hls⟩ := List.forall_mem_cons.mp h
    rw [List.flatMap_cons, List.append_assoc, List.append_assoc, List.singleton_append,
      lines_line hline, ih hls, List.map_cons, List.cons_append]

theorem intercalate_concat (ls : List (List Char)) (last : List Char) :
    ['\n'].intercalate (ls ++ [last]) = ls.flatMap (· ++ ['\n']) ++ last := by
  induction ls with
  | nil => exact List.intercalate_singleton
  | cons line ls ih =>
    rw [List.cons_append, List.intercalate_cons_of_ne_nil (by simp), ih, List.flatMap_cons]
    simp only [List.append_assoc]

theorem not_mem_of_mem_splitOn {text line : List Char} (h : line ∈ text.splitOn '\n') : '\n' ∉ line := by
  induction text generalizing line with
  | nil =>
    rw [List.splitOn_nil, List.mem_singleton] at h
    exact h ▸ List.not_mem_nil
  | cons c text ih =>
    rw [List.splitOn_cons_eq_if_modifyHead] at h
    obtain ⟨first, rest, hsplit⟩ := List.exists_cons_of_ne_nil (List.splitOn_ne_nil '\n' text)
    rw [hsplit] at h ih
    split at h
    · rcases List.mem_cons.mp h with rfl | hmem
      · exact List.not_mem_nil
      · exact ih hmem
    · next hc =>
      rcases List.mem_cons.mp h with rfl | hmem
      · rintro (_ | ⟨_, hfirst⟩)
        · exact hc rfl
        · exact ih List.mem_cons_self hfirst
      · exact ih (List.mem_cons_of_mem _ hmem)

/-- The lines of a text are what stands between its line feeds, without carriage returns before these,
and without the last part if there is nothing in it. -/
theorem lines_eq_of_splitOn {text last : List Char} {front : List (List Char)}
    (h : text.splitOn '\n' = front ++ [last]) :
    lines text = front.map dropReturn ++ if last = [] then [] else [last] := by
  have hfeed : ∀ line ∈ front ++ [last], '\n' ∉ line := fun line hline =>
    not_mem_of_mem_splitOn (h ▸ hline)
  rw [List.forall_mem_append, List.forall_mem_singleton] at hfeed
  have htext : ['\n'].intercalate (text.splitOn '\n') = text := List.intercalate_splitOn '\n'
  rw [h, intercalate_concat] at htext
  rw [← htext, lines_flatMap hfeed.1]
  split
  · next hempty => rw [hempty, lines]
  · next hne => rw [lines_last hfeed.2 hne]

theorem exists_splitOn_eq_concat (text : List Char) :
    ∃ front last, text.splitOn '\n' = front ++ [last] :=
  ⟨_, _, (List.dropLast_concat_getLast (List.splitOn_ne_nil '\n' text)).symm⟩

theorem not_mem_of_mem_lines {text line : List Char} (h : line ∈ lines text) : '\n' ∉ line := by
  obtain ⟨front, last, hsplit⟩ := exists_splitOn_eq_concat text
  have hfeed : ∀ line ∈ front ++ [last], '\n' ∉ line := fun line hline =>
    not_mem_of_mem_splitOn (hsplit ▸ hline)
  rw [lines_eq_of_splitOn hsplit, List.mem_append] at h
  rcases h with hfront | hlast
  · obtain ⟨original, horiginal, rfl⟩ := List.mem_map.mp hfront
    exact fun hmem => hfeed original (List.mem_append_left _ horiginal)
      ((dropReturn_prefix_self original).subset hmem)
  · split at hlast
    · exact absurd hlast List.not_mem_nil
    · exact hfeed line (List.mem_append_right _ hlast)

end AuditFields.Text
