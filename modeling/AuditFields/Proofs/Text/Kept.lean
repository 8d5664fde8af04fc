import AuditFields.Proofs.Text.Outdent

/-!
# Texts that a block keeps

What is read from the block of a text does not depend on the indentation that the block is written with:
it is the text without the indentation that its lines have in common, without the blank lines at its ends
and without a carriage return at the end of each line (`content_body_eq`). A text that has none of these
to lose is read again (`Kept`), and no other one is: what is read has as many lines as the text then, so
none was taken off, and none of them got shorter.
-/

namespace AuditFields.Text.Block

/-! ## Reading a written block -/

variable {indent : String}

/-- The lines as they are read again: without the indentation that they have in common, and without
carriage returns at their ends. -/
def outdented (ls : List (List Char)) : List (List Char) :=
  ls.map fun line => dropBytes (commonIndentation ls) (dropReturn line)

theorem isAllBlank_lineChars (hindent : ∀ c ∈ indent.toList, c = ' ') (line : List Char) :
    isAllBlank (lineChars indent line) = isAllBlank line := by
  unfold lineChars
  split
  · next hempty => rw [List.isEmpty_iff.mp hempty]
  · rw [isAllBlank_append, isAllBlank_of_spaces hindent, Bool.true_and, isAllBlank_escape]

theorem indentation_lineChars (hindent : ∀ c ∈ indent.toList, c = ' ') {line : List Char}
    (h : isAllBlank line = false) :
    indentation (lineChars indent line) = byteCount indent.toList + indentation line := by
  have hne : ¬line.isEmpty = true := by
    rw [List.isEmpty_iff]
    rintro rfl
    cases h
  rw [lineChars, if_neg hne, indentation_append hindent, indentation_escape]

theorem not_mem_lineChars (hindent : ∀ c ∈ indent.toList, c = ' ') {line : List Char} (h : '\n' ∉ line) :
    '\n' ∉ lineChars indent line := by
  have hspaces : '\n' ∉ indent.toList := fun hmem => absurd (hindent _ hmem) (by decide)
  unfold lineChars
  split
  · exact List.not_mem_nil
  · exact fun hmem => (List.mem_append.mp hmem).elim hspaces (not_mem_escape h)

theorem commonIndentation_written (hindent : ∀ c ∈ indent.toList, c = ' ') {ls back : List (List Char)}
    (hback : ∀ line ∈ back, isAllBlank line = true) (h : ∃ line ∈ ls, isAllBlank line = false) :
    commonIndentation (ls.map (fun line => dropReturn (lineChars indent line)) ++ back) =
      byteCount indent.toList + commonIndentation ls := by
  have hwritten : ∀ line, isAllBlank (dropReturn (lineChars indent line)) = isAllBlank line := fun line => by
    rw [isAllBlank_dropReturn, isAllBlank_lineChars hindent]
  have hindentation : ∀ {line}, isAllBlank line = false →
      indentation (dropReturn (lineChars indent line)) = byteCount indent.toList + indentation line := by
    intro line hline
    rw [indentation_dropReturn (isAllBlank_lineChars hindent line ▸ hline), indentation_lineChars hindent hline]
  obtain ⟨⟨least, hleast, hblank, hleast_eq⟩, hall⟩ := (commonIndentation_eq_iff h _).mp rfl
  have hmem : dropReturn (lineChars indent least) ∈
      ls.map (fun line => dropReturn (lineChars indent line)) ++ back :=
    List.mem_append_left _ (List.mem_map_of_mem hleast)
  have hnonblank : isAllBlank (dropReturn (lineChars indent least)) = false := (hwritten least).trans hblank
  refine (commonIndentation_eq_iff ⟨_, hmem, hnonblank⟩ _).mpr ⟨⟨_, hmem, hnonblank, ?_⟩, ?_⟩
  · rw [hindentation hblank, hleast_eq]
  · intro line hline hnot
    rcases List.mem_append.mp hline with hls | hback'
    · obtain ⟨original, horiginal, rfl⟩ := List.mem_map.mp hls
      rw [hwritten] at hnot
      rw [hindentation hnot]
      exact Nat.add_le_add_left (hall original horiginal hnot) _
    · rw [hback line hback'] at hnot
      cases hnot

theorem dropBytes_lineChars (hindent : ∀ c ∈ indent.toList, c = ' ') {n : Nat} {line : List Char}
    (h : isAllBlank line = false → n ≤ indentation line) :
    dropBytes (byteCount indent.toList + n) (dropReturn (lineChars indent line)) =
      escape (dropBytes n (dropReturn line)) := by
  have hcut : isAllBlank (dropReturn line) = true ∨ n ≤ indentation (dropReturn line) := by
    cases hblank : isAllBlank line with
    | true => exact Or.inl ((isAllBlank_dropReturn line).trans hblank)
    | false => exact Or.inr (indentation_dropReturn hblank ▸ h hblank)
  unfold lineChars
  split
  · next hempty =>
    have hnone : dropReturn [] = [] := rfl
    rw [List.isEmpty_iff.mp hempty, hnone, dropBytes_nil, dropBytes_nil, escape]
  · next hne =>
    rw [dropReturn_append _ (escape_ne_nil (mt List.isEmpty_iff.mpr hne)), dropBytes_append hindent,
      dropReturn_escape, dropBytes_escape hcut]

theorem isAllBlank_of_mem_lines_spaces {blanks : List Char} (h : ∀ c ∈ blanks, c = ' ') :
    ∀ line ∈ lines blanks, isAllBlank line = true := by
  intro line hline
  by_cases hnone : blanks = []
  · rw [hnone] at hline
    cases hline
  · rw [lines_last (fun hmem => absurd (h _ hmem) (by decide)) hnone] at hline
    obtain rfl := List.mem_singleton.mp hline
    exact isAllBlank_of_spaces h

theorem isAllBlank_of_mem_outdented {ls : List (List Char)} (h : ∀ line ∈ ls, isAllBlank line = true) :
    ∀ line ∈ outdented ls, isAllBlank line = true := by
  intro line hline
  obtain ⟨original, horiginal, rfl⟩ := List.mem_map.mp hline
  exact isAllBlank_dropBytes _ ((isAllBlank_dropReturn original).trans (h original horiginal))

theorem lines_body (hindent : ∀ c ∈ indent.toList, c = ' ') (text : String) :
    lines (body indent text) =
      [] :: ((lines text.toList).map (fun line => dropReturn (lineChars indent line)) ++
        lines indent.toList) := by
  rw [body, lines_flatMap, List.map_cons, List.map_map]
  · rfl
  · intro line hline
    rcases List.mem_cons.mp hline with rfl | hmem
    · exact List.not_mem_nil
    · obtain ⟨original, horiginal, rfl⟩ := List.mem_map.mp hmem
      exact not_mem_lineChars hindent (not_mem_of_mem_lines horiginal)

/-- What is read from a written block. It does not depend on the indentation of the block. -/
theorem content_body_eq (hindent : ∀ c ∈ indent.toList, c = ' ') (text : String) :
    content (body indent text) = ['\n'].intercalate (trimLines (outdented (lines text.toList))) := by
  have hback := isAllBlank_of_mem_lines_spaces hindent
  rw [content, lines_body hindent]
  dsimp only
  generalize lines indent.toList = back at hback
  generalize lines text.toList = ls
  by_cases h : ∃ line ∈ ls, isAllBlank line = false
  · have hdropped : (ls.map (fun line => dropReturn (lineChars indent line)) ++ back).map
        (dropBytes (byteCount indent.toList + commonIndentation ls)) =
        (outdented ls).map escape ++
          back.map (dropBytes (byteCount indent.toList + commonIndentation ls)) := by
      rw [List.map_append, outdented, List.map_map, List.map_map]
      exact congrArg (· ++ _) (List.map_congr_left fun line hline =>
        dropBytes_lineChars hindent (commonIndentation_le hline))
    have hblanks : ∀ line ∈ back.map (dropBytes (byteCount indent.toList + commonIndentation ls)),
        isAllBlank line = true :=
      List.forall_mem_map.mpr fun line hline => isAllBlank_dropBytes _ (hback line hline)
    rw [commonIndentation_written hindent hback h, hdropped, trimLines_append rfl hblanks,
      trimLines_map isAllBlank_escape, unescape_intercalate]
  · -- Nothing is left of blank lines, whatever is cut off.
    have hall : ∀ line ∈ ls, isAllBlank line = true := fun line hline =>
      Bool.not_eq_false _ |>.mp fun hblank => h ⟨line, hline, hblank⟩
    rw [trimLines_eq_nil (isAllBlank_of_mem_outdented hall), trimLines_eq_nil]
    · rfl
    · refine List.forall_mem_cons.mpr ⟨rfl, List.forall_mem_map.mpr fun line hline => ?_⟩
      refine isAllBlank_dropBytes _ ?_
      rcases List.mem_append.mp hline with hls | hmem
      · obtain ⟨original, horiginal, rfl⟩ := List.mem_map.mp hls
        rw [isAllBlank_dropReturn, isAllBlank_lineChars hindent, hall original horiginal]
      · exact hback line hmem

/-! ## What is kept -/

/-- A text of several lines that has nothing to lose when it is written as a block. -/
structure Kept (text : List Char) : Prop where
  /-- No line ends with a carriage return. -/
  noReturn : ∀ line ∈ text.splitOn '\n', line.getLast? ≠ some '\r'
  /-- The first line is not blank. -/
  first : ∀ line ∈ (text.splitOn '\n').head?, isAllBlank line = false
  /-- The last line is not blank. -/
  last : ∀ line ∈ (text.splitOn '\n').getLast?, isAllBlank line = false
  /-- Some line starts with no blank. -/
  flush : ∃ line ∈ text.splitOn '\n', ∃ c ∈ line.head?, isBlank c = false

theorem indentation_eq_zero_iff {line : List Char} (h : isAllBlank line = false) :
    indentation line = 0 ↔ ∃ c ∈ line.head?, isBlank c = false := by
  cases line with
  | nil => cases h
  | cons c line =>
    cases hc : isBlank c with
    | false => simp [indentation_cons_of_not_blank hc, hc]
    | true =>
      have hsize := c.utf8Size_pos
      rw [indentation_cons_of_blank hc]
      simp [hc]
      omega

theorem isAllBlank_eq_false_of_head? {line : List Char} {c : Char} (h : c ∈ line.head?)
    (hc : isBlank c = false) : isAllBlank line = false := by
  obtain ⟨rest, rfl⟩ := List.head?_eq_some_iff.mp h
  rw [isAllBlank_cons, hc, Bool.false_and]

theorem commonIndentation_eq_zero_iff {ls : List (List Char)} (h : ∃ line ∈ ls, isAllBlank line = false) :
    commonIndentation ls = 0 ↔ ∃ line ∈ ls, ∃ c ∈ line.head?, isBlank c = false := by
  rw [commonIndentation_eq_iff h]
  constructor
  · rintro ⟨⟨line, hline, hblank, hzero⟩, -⟩
    exact ⟨line, hline, (indentation_eq_zero_iff hblank).mp hzero⟩
  · rintro ⟨line, hline, c, hhead, hc⟩
    have hblank := isAllBlank_eq_false_of_head? hhead hc
    exact ⟨⟨line, hline, hblank, (indentation_eq_zero_iff hblank).mpr ⟨c, hhead, hc⟩⟩,
      fun _ _ _ => Nat.zero_le _⟩

theorem ne_nil_of_not_blank {line : List Char} (h : isAllBlank line = false) : line ≠ [] := by
  rintro rfl
  cases h

theorem dropReturn_eq_self_of_length_le {line : List Char} (h : line.length ≤ (dropReturn line).length) :
    line.getLast? ≠ some '\r' :=
  dropReturn_eq_self_iff.mp ((dropReturn_prefix_self line).eq_of_length_le h)

theorem outdented_eq_self_iff {ls : List (List Char)} (h : ∃ line ∈ ls, isAllBlank line = false) :
    outdented ls = ls ↔ (∀ line ∈ ls, line.getLast? ≠ some '\r') ∧
      ∃ line ∈ ls, ∃ c ∈ line.head?, isBlank c = false := by
  have heach : outdented ls = ls ↔ ∀ line ∈ ls, dropBytes (commonIndentation ls) (dropReturn line) = line := by
    rw [outdented]
    constructor
    · exact fun heq => List.map_inj_left.mp (heq.trans (List.map_id ls).symm)
    · exact fun heq => (List.map_inj_left.mpr heq).trans (List.map_id ls)
  rw [heach, ← commonIndentation_eq_zero_iff h]
  constructor
  · intro heq
    have hlength : ∀ line ∈ ls, line.length ≤ (dropReturn line).length := by
      intro line hline
      have hle := (dropBytes_suffix (commonIndentation ls) (dropReturn line)).length_le
      rwa [heq line hline] at hle
    refine ⟨fun line hline => dropReturn_eq_self_of_length_le (hlength line hline), ?_⟩
    obtain ⟨line, hline, hblank⟩ := h
    have hne := ne_nil_of_not_blank ((isAllBlank_dropReturn line).trans hblank)
    refine Classical.byContradiction fun hcommon => ?_
    have hlt := length_dropBytes_lt hcommon hne
    rw [heq line hline] at hlt
    exact absurd (dropReturn_prefix_self line).length_le (Nat.not_le.mpr hlt)
  · rintro ⟨hreturn, hcommon⟩ line hline
    rw [hcommon, dropReturn_eq_self_iff.mpr (hreturn line hline), dropBytes]

theorem Kept.content_eq {text : List Char} (h : Kept text) :
    ['\n'].intercalate (trimLines (outdented (lines text))) = text := by
  obtain ⟨front, last, hsplit⟩ := exists_splitOn_eq_concat text
  obtain ⟨hreturn, hfirst, hlast, hflush⟩ := h
  have hne : last ≠ [] := ne_nil_of_not_blank (hlast last (by rw [hsplit, List.getLast?_concat]; rfl))
  have hfront : front.map dropReturn = front := by
    refine (List.map_inj_left.mpr fun line hline => ?_).trans (List.map_id front)
    exact dropReturn_eq_self_iff.mpr (hreturn line (hsplit ▸ List.mem_append_left _ hline))
  have hlines : lines text = text.splitOn '\n' := by
    rw [lines_eq_of_splitOn hsplit, hfront, if_neg hne, hsplit]
  obtain ⟨line, hline, c, hhead, hc⟩ := hflush
  have hblank := isAllBlank_eq_false_of_head? hhead hc
  rw [hlines, (outdented_eq_self_iff ⟨line, hline, hblank⟩).mpr ⟨hreturn, line, hline, c, hhead, hc⟩,
    trimLines_eq_self_iff.mpr ⟨hfirst, hlast⟩, List.intercalate_splitOn]

theorem not_mem_of_mem_outdented {text line : List Char} (h : line ∈ outdented (lines text)) :
    '\n' ∉ line := by
  obtain ⟨original, horiginal, rfl⟩ := List.mem_map.mp h
  exact fun hmem => not_mem_of_mem_lines horiginal
    ((dropReturn_prefix_self original).subset ((dropBytes_suffix _ _).subset hmem))

theorem splitOn_intercalate_trimLines {text : List Char} (h : trimLines (outdented (lines text)) ≠ []) :
    (['\n'].intercalate (trimLines (outdented (lines text)))).splitOn '\n' =
      trimLines (outdented (lines text)) :=
  List.splitOn_intercalate '\n'
    (fun _ hline => not_mem_of_mem_outdented ((trimLines_sublist _).subset hline)) h

theorem dropReturn_eq_self_of_cut {n : Nat} {line : List Char}
    (h : line = dropBytes n (dropReturn (dropReturn line))) : dropReturn line = line := by
  have hcut := (dropBytes_suffix n (dropReturn (dropReturn line))).length_le
  have htwice := (dropReturn_prefix_self (dropReturn line)).length_le
  refine (dropReturn_prefix_self line).eq_of_length_le ?_
  calc line.length = _ := congrArg List.length h
    _ ≤ (dropReturn (dropReturn line)).length := hcut
    _ ≤ (dropReturn line).length := htwice

/-- A text that is read again has as many lines as were written, so that none was taken off, and none of
them got shorter. -/
theorem kept_of_content_eq {text : List Char} (hfeed : '\n' ∈ text)
    (h : ['\n'].intercalate (trimLines (outdented (lines text))) = text) : Kept text := by
  obtain ⟨front, last, hsplit⟩ := exists_splitOn_eq_concat text
  have hlines := lines_eq_of_splitOn hsplit
  have htrimmed : text.splitOn '\n' = trimLines (outdented (lines text)) := by
    refine (congrArg _ h).symm.trans (splitOn_intercalate_trimLines fun hnil => ?_)
    rw [hnil] at h
    rw [← h] at hfeed
    cases hfeed
  have hlength : (outdented (lines text)).length ≤ (trimLines (outdented (lines text))).length := by
    rw [← htrimmed, hsplit, outdented, List.length_map, hlines]
    split <;> simp
  have hwhole := (trimLines_sublist (outdented (lines text))).eq_of_length_le hlength
  rw [hwhole] at htrimmed
  have hlast : last ≠ [] := by
    rintro rfl
    have hshorter := congrArg List.length htrimmed
    rw [hsplit, outdented, List.length_map, hlines] at hshorter
    simp at hshorter
  have hfront : front.map dropReturn = front := by
    have hparts : front ++ [last] = outdented (front.map dropReturn ++ [last]) := by
      rw [← hsplit, htrimmed, hlines, if_neg hlast]
    rw [outdented, List.map_append, List.map_map] at hparts
    have heach := (List.append_inj hparts (by simp)).1
    refine (List.map_inj_left.mpr fun line hline => ?_).trans (List.map_id front)
    exact dropReturn_eq_self_of_cut (List.map_inj_left.mp ((List.map_id front).trans heach) line hline)
  have hsame : lines text = text.splitOn '\n' := by
    rw [hlines, if_neg hlast, hfront, hsplit]
  rw [hsame] at hwhole htrimmed
  rw [← htrimmed] at hwhole
  obtain ⟨hfirst, hlast⟩ := trimLines_eq_self_iff.mp hwhole
  have hnonblank : ∃ line ∈ text.splitOn '\n', isAllBlank line = false := by
    obtain ⟨line, hhead⟩ := Option.isSome_iff_exists.mp
      (List.isSome_head?.mpr (List.splitOn_ne_nil '\n' text))
    exact ⟨line, List.mem_of_mem_head? hhead, hfirst line hhead⟩
  obtain ⟨hreturn, hflush⟩ := (outdented_eq_self_iff hnonblank).mp htrimmed.symm
  exact ⟨hreturn, hfirst, hlast, hflush⟩

/-- A text of several lines is read from the block that it is written as exactly if it has nothing to
lose. -/
theorem content_body_eq_self_iff (hindent : ∀ c ∈ indent.toList, c = ' ') {text : String}
    (hfeed : '\n' ∈ text.toList) : content (body indent text) = text.toList ↔ Kept text.toList := by
  rw [content_body_eq hindent]
  exact ⟨kept_of_content_eq hfeed, Kept.content_eq⟩

/-! ## Tidy texts -/

/-- A text whose lines are kept when it is written as a block. -/
structure Tidy (text : List Char) : Prop where
  noReturn : '\r' ∉ text
  /-- The first line is not blank. -/
  first : ∀ line ∈ (text.splitOn '\n').head?, isAllBlank line = false
  /-- The last line is not blank. -/
  last : ∀ line ∈ (text.splitOn '\n').getLast?, isAllBlank line = false
  /-- Some line starts with no blank. -/
  flush : ∃ line ∈ text.splitOn '\n', ∃ c ∈ line.head?, isBlank c = false

theorem mem_intercalate (sep : List Char) {ls : List (List Char)} {line : List Char} {c : Char}
    (hline : line ∈ ls) (hc : c ∈ line) : c ∈ sep.intercalate ls := by
  induction ls with
  | nil => exact absurd hline List.not_mem_nil
  | cons first ls ih =>
    cases ls with
    | nil =>
      rw [List.intercalate_singleton, ← List.mem_singleton.mp hline]
      exact hc
    | cons next ls =>
      rw [List.intercalate_cons_cons, List.append_assoc]
      rcases List.mem_cons.mp hline with rfl | hmem
      · exact List.mem_append_left _ hc
      · exact List.mem_append_right _ (List.mem_append_right _ (ih hmem))

theorem Tidy.kept {text : List Char} (h : Tidy text) : Kept text where
  noReturn := by
    intro line hline hreturn
    have htext := mem_intercalate ['\n'] hline (List.mem_of_getLast? hreturn)
    rw [List.intercalate_splitOn] at htext
    exact h.noReturn htext
  first := h.first
  last := h.last
  flush := h.flush

theorem content_body (hindent : ∀ c ∈ indent.toList, c = ' ') {text : String} (h : Tidy text.toList) :
    content (body indent text) = text.toList :=
  (content_body_eq hindent text).trans h.kept.content_eq

end AuditFields.Text.Block
