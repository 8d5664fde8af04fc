import AuditFields.Proofs.Text.Block
import AuditFields.Proofs.Text.Lines

/-!
# What is taken off the lines of a block

Reading a block takes three things off its lines: a carriage return at the end of each, the indentation
that the lines which are not blank have in common, and the blank lines at both ends. Blanks are neither
quotes nor backslashes, so that nothing of this touches an escape: it comes to the same whether it is
taken off the lines as they are written or off the lines themselves.
-/

namespace AuditFields.Text.Block

/-! ## Blanks -/

theorem isAllBlank_cons (c : Char) (line : List Char) :
    isAllBlank (c :: line) = (isBlank c && isAllBlank line) := rfl

theorem isAllBlank_append (cs ds : List Char) :
    isAllBlank (cs ++ ds) = (isAllBlank cs && isAllBlank ds) :=
  List.all_append

theorem isAllBlank_of_spaces {blanks : List Char} (h : ∀ c ∈ blanks, c = ' ') :
    isAllBlank blanks = true := by
  rw [isAllBlank, List.all_eq_true]
  intro c hc
  obtain rfl := h c hc
  decide

theorem isAllBlank_escape (line : List Char) : isAllBlank (escape line) = isAllBlank line := by
  induction line using escape_induction with
  | nil => rfl
  | quotes cs =>
    rw [escape_quotes]
    rfl
  | char c cs hquotes ih => rw [escape_cons hquotes, isAllBlank_cons, isAllBlank_cons, ih]

theorem isAllBlank_dropReturn (line : List Char) : isAllBlank (dropReturn line) = isAllBlank line := by
  unfold dropReturn
  split
  · next h =>
    obtain ⟨front, rfl⟩ := List.getLast?_eq_some_iff.mp h
    have hreturn : isAllBlank ['\r'] = true := by decide
    rw [List.dropLast_concat, isAllBlank_append, hreturn, Bool.and_true]
  · rfl

theorem byteCount_append (cs ds : List Char) : byteCount (cs ++ ds) = byteCount cs + byteCount ds := by
  induction cs with
  | nil => exact (Nat.zero_add _).symm
  | cons c cs ih => rw [List.cons_append, byteCount, byteCount, ih, Nat.add_assoc]

theorem indentation_cons_of_blank {c : Char} (h : isBlank c = true) (line : List Char) :
    indentation (c :: line) = c.utf8Size + indentation line := by
  rw [indentation, List.takeWhile_cons_of_pos h, byteCount, indentation]

theorem indentation_cons_of_not_blank {c : Char} (h : isBlank c = false) (line : List Char) :
    indentation (c :: line) = 0 := by
  rw [indentation, List.takeWhile_cons_of_neg (Bool.eq_false_iff.mp h), byteCount]

theorem indentation_append {indent : List Char} (h : ∀ c ∈ indent, c = ' ') (cs : List Char) :
    indentation (indent ++ cs) = byteCount indent + indentation cs := by
  have hblank : ∀ c ∈ indent, isBlank c = true := by
    intro c hc
    obtain rfl := h c hc
    decide
  rw [indentation, List.takeWhile_append_of_pos hblank, byteCount_append, indentation]

theorem indentation_escape (line : List Char) : indentation (escape line) = indentation line := by
  induction line using escape_induction with
  | nil => rfl
  | quotes cs =>
    rw [escape_quotes, indentation_cons_of_not_blank (by decide), indentation_cons_of_not_blank (by decide)]
  | char c cs hquotes ih =>
    rw [escape_cons hquotes]
    cases hc : isBlank c with
    | false => rw [indentation_cons_of_not_blank hc, indentation_cons_of_not_blank hc]
    | true => rw [indentation_cons_of_blank hc, indentation_cons_of_blank hc, ih]

theorem indentation_dropReturn {line : List Char} (h : isAllBlank line = false) :
    indentation (dropReturn line) = indentation line := by
  induction line with
  | nil => cases h
  | cons c line ih =>
    cases hc : isBlank c with
    | false =>
      cases line with
      | nil =>
        have hreturn : c ≠ '\r' := fun heq => absurd (heq ▸ hc) (by decide)
        rw [dropReturn_eq_self_iff.mpr (by simpa using hreturn)]
      | cons d line =>
        rw [dropReturn_cons_cons, indentation_cons_of_not_blank hc, indentation_cons_of_not_blank hc]
    | true =>
      rw [isAllBlank_cons, hc, Bool.true_and] at h
      cases line with
      | nil => cases h
      | cons d line =>
        rw [dropReturn_cons_cons, indentation_cons_of_blank hc, indentation_cons_of_blank hc, ih h]

theorem dropReturn_escape (line : List Char) : dropReturn (escape line) = escape (dropReturn line) := by
  unfold dropReturn
  rw [getLast?_escape]
  split
  · next h =>
    obtain ⟨front, rfl⟩ := List.getLast?_eq_some_iff.mp h
    rw [escape_concat (by decide), List.dropLast_concat, List.dropLast_concat]
  · rfl

/-! ## Indentation taken off -/

theorem dropBytes_nil (n : Nat) : dropBytes n [] = [] := by
  cases n with
  | zero => rw [dropBytes]
  | succ n => rw [dropBytes]

theorem dropBytes_append {blanks : List Char} (h : ∀ c ∈ blanks, c = ' ') (n : Nat) (cs : List Char) :
    dropBytes (byteCount blanks + n) (blanks ++ cs) = dropBytes n cs := by
  induction blanks with
  | nil => rw [byteCount, List.nil_append, Nat.zero_add]
  | cons c blanks ih =>
    obtain ⟨rfl, hrest⟩ := List.forall_mem_cons.mp h
    have hsize : Char.utf8Size ' ' = 1 := rfl
    have hbytes : 1 + byteCount blanks + n = byteCount blanks + n + 1 := by omega
    rw [byteCount, hsize, hbytes, List.cons_append, dropBytes, hsize, if_pos (by omega),
      Nat.add_sub_cancel]
    exact ih hrest

theorem dropBytes_suffix (n : Nat) (cs : List Char) : dropBytes n cs <:+ cs := by
  fun_induction dropBytes n cs with
  | case1 cs => exact List.suffix_rfl
  | case2 n => exact List.suffix_rfl
  | case3 n c cs hsize ih => exact ih.trans (List.suffix_cons c cs)
  | case4 n c cs hsize => exact List.nil_suffix

theorem length_dropBytes_lt {n : Nat} (hn : n ≠ 0) {cs : List Char} (h : cs ≠ []) :
    (dropBytes n cs).length < cs.length := by
  obtain ⟨m, rfl⟩ := Nat.exists_eq_succ_of_ne_zero hn
  obtain ⟨c, rest, rfl⟩ := List.exists_cons_of_ne_nil h
  rw [dropBytes]
  split
  · exact Nat.lt_succ_of_le (dropBytes_suffix _ rest).length_le
  · exact Nat.succ_pos _

theorem isAllBlank_dropBytes (n : Nat) {line : List Char} (h : isAllBlank line = true) :
    isAllBlank (dropBytes n line) = true := by
  fun_induction dropBytes n line with
  | case1 cs => exact h
  | case2 n => rfl
  | case3 n c cs hsize ih =>
    rw [isAllBlank_cons, Bool.and_eq_true] at h
    exact ih h.2
  | case4 n c cs hsize => rfl

theorem escape_cons_of_blank {c : Char} (h : isBlank c = true) (cs : List Char) :
    escape (c :: cs) = c :: escape cs := by
  refine escape_cons fun rest heq => ?_
  obtain ⟨rfl, -⟩ := List.cons.inj heq
  exact absurd h (by decide)

theorem isBlank_of_cut {n : Nat} {c : Char} {cs : List Char}
    (h : isAllBlank (c :: cs) = true ∨ n + 1 ≤ indentation (c :: cs)) : isBlank c = true := by
  cases hc : isBlank c with
  | true => rfl
  | false => simp [isAllBlank_cons, indentation_cons_of_not_blank hc, hc] at h

/-- No escape is cut, as only blanks are cut off. -/
theorem dropBytes_escape {n : Nat} {line : List Char} (h : isAllBlank line = true ∨ n ≤ indentation line) :
    dropBytes n (escape line) = escape (dropBytes n line) := by
  fun_induction dropBytes n line with
  | case1 cs => rw [dropBytes]
  | case2 n => exact dropBytes_nil _
  | case3 n c cs hsize ih =>
    have hblank := isBlank_of_cut h
    rw [escape_cons_of_blank hblank, dropBytes, if_pos hsize]
    rw [isAllBlank_cons, hblank, Bool.true_and, indentation_cons_of_blank hblank] at h
    exact ih (h.imp_right fun h => by omega)
  | case4 n c cs hsize => rw [escape_cons_of_blank (isBlank_of_cut h), dropBytes, if_neg hsize, escape]

theorem mem_nonblank_iff {ls : List (List Char)} {n : Nat} :
    n ∈ (ls.filter fun line => !isAllBlank line).map indentation ↔
      ∃ line ∈ ls, isAllBlank line = false ∧ indentation line = n := by
  simp [and_assoc]

theorem commonIndentation_eq_iff {ls : List (List Char)} (h : ∃ line ∈ ls, isAllBlank line = false) (n : Nat) :
    commonIndentation ls = n ↔
      (∃ line ∈ ls, isAllBlank line = false ∧ indentation line = n) ∧
        ∀ line ∈ ls, isAllBlank line = false → n ≤ indentation line := by
  obtain ⟨line, hline, hblank⟩ := h
  have hmem := mem_nonblank_iff.mpr ⟨line, hline, hblank, rfl⟩
  unfold commonIndentation
  cases hmin : ((ls.filter fun line => !isAllBlank line).map indentation).min? with
  | none =>
    rw [List.min?_eq_none_iff.mp hmin] at hmem
    exact absurd hmem List.not_mem_nil
  | some m =>
    rw [Option.getD_some]
    have hiff : m = n ↔
        ((ls.filter fun line => !isAllBlank line).map indentation).min? = some n := by
      rw [hmin, Option.some.injEq]
    rw [hiff, List.min?_eq_some_iff, mem_nonblank_iff]
    refine and_congr_right fun _ => ⟨fun hall line hline hblank => ?_, fun hall k hk => ?_⟩
    · exact hall _ (mem_nonblank_iff.mpr ⟨line, hline, hblank, rfl⟩)
    · obtain ⟨line, hline, hblank, rfl⟩ := mem_nonblank_iff.mp hk
      exact hall line hline hblank

theorem commonIndentation_le {ls : List (List Char)} {line : List Char} (hline : line ∈ ls)
    (hblank : isAllBlank line = false) : commonIndentation ls ≤ indentation line :=
  ((commonIndentation_eq_iff ⟨line, hline, hblank⟩ _).mp rfl).2 line hline hblank

/-! ## Blank lines taken off -/

theorem dropWhile_eq_nil {ls : List (List Char)} (h : ∀ line ∈ ls, isAllBlank line = true) :
    ls.dropWhile isAllBlank = [] := by
  have hnone : (ls ++ []).dropWhile isAllBlank = [] := List.dropWhile_append_of_pos h
  rwa [List.append_nil] at hnone

theorem dropWhile_eq_self_iff {ls : List (List Char)} :
    ls.dropWhile isAllBlank = ls ↔ ∀ line ∈ ls.head?, isAllBlank line = false := by
  cases ls with
  | nil => simp
  | cons line ls =>
    cases hline : isAllBlank line with
    | false => simp [hline]
    | true =>
      have hlength := (List.dropWhile_sublist isAllBlank (l := ls)).length_le
      refine iff_of_false (fun heq => ?_) (by simp [hline])
      rw [List.dropWhile_cons_of_pos hline] at heq
      rw [heq] at hlength
      exact absurd hlength (Nat.not_succ_le_self _)

theorem trimLines_sublist_dropWhile (ls : List (List Char)) :
    (trimLines ls).Sublist (ls.dropWhile isAllBlank) := by
  have hback := (List.dropWhile_sublist isAllBlank (l := (ls.dropWhile isAllBlank).reverse)).reverse
  rwa [List.reverse_reverse] at hback

theorem trimLines_sublist (ls : List (List Char)) : (trimLines ls).Sublist ls :=
  (trimLines_sublist_dropWhile ls).trans (List.dropWhile_sublist isAllBlank)

theorem trimLines_eq_self_iff {ls : List (List Char)} :
    trimLines ls = ls ↔ (∀ line ∈ ls.head?, isAllBlank line = false) ∧
      ∀ line ∈ ls.getLast?, isAllBlank line = false := by
  rw [← dropWhile_eq_self_iff, ← List.head?_reverse, ← dropWhile_eq_self_iff]
  constructor
  · intro h
    have hlength := (trimLines_sublist_dropWhile ls).length_le
    rw [h] at hlength
    have hfront := (List.dropWhile_sublist isAllBlank).eq_of_length_le hlength
    rw [trimLines, hfront] at h
    exact ⟨hfront, List.reverse_eq_iff.mp h⟩
  · rintro ⟨hfront, hback⟩
    rw [trimLines, hfront, hback, List.reverse_reverse]

theorem trimLines_map {f : List Char → List Char} (h : ∀ line, isAllBlank (f line) = isAllBlank line)
    (ls : List (List Char)) : trimLines (ls.map f) = (trimLines ls).map f := by
  have hf : isAllBlank ∘ f = isAllBlank := funext h
  unfold trimLines
  rw [List.dropWhile_map, hf, ← List.map_reverse, List.dropWhile_map, hf, ← List.map_reverse]

theorem trimLines_eq_nil {ls : List (List Char)} (h : ∀ line ∈ ls, isAllBlank line = true) :
    trimLines ls = [] := by
  rw [trimLines, dropWhile_eq_nil h]
  rfl

theorem trimLines_append {first : List Char} {back : List (List Char)} (hfirst : isAllBlank first = true)
    (hback : ∀ line ∈ back, isAllBlank line = true) (ls : List (List Char)) :
    trimLines (first :: (ls ++ back)) = trimLines ls := by
  unfold trimLines
  rw [List.dropWhile_cons_of_pos hfirst, List.dropWhile_append]
  split
  · next hnone => rw [dropWhile_eq_nil hback, List.isEmpty_iff.mp hnone]
  · rw [List.reverse_append, List.dropWhile_append_of_pos (by simpa using hback)]

end AuditFields.Text.Block
