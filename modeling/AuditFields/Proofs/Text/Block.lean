import AuditFields.Text.Block

/-!
# Written blocks

The characters that are written between the triple quotes of a block are `Block.body`: each line with its
triple quotes escaped, behind the indentation. No triple quote stands in a written line but behind a
backslash, so that reading undoes the escapes.
-/

namespace AuditFields.Text.Block

/-! ## Triple quotes -/

theorem escape_quotes (cs : List Char) :
    escape ('"' :: '"' :: '"' :: cs) = '\\' :: '"' :: '"' :: '"' :: escape cs := rfl

theorem escape_cons {c : Char} {cs : List Char}
    (h : ∀ rest, c :: cs ≠ '"' :: '"' :: '"' :: rest) : escape (c :: cs) = c :: escape cs := by
  rw [escape]
  rintro rest rfl rfl
  exact h rest rfl

/-- A line is escaped character by character, except that a triple quote is taken at once. -/
theorem escape_induction {motive : List Char → Prop} (nil : motive [])
    (quotes : ∀ cs, motive cs → motive ('"' :: '"' :: '"' :: cs))
    (char : ∀ c cs, (∀ rest, c :: cs ≠ '"' :: '"' :: '"' :: rest) → motive cs → motive (c :: cs))
    (line : List Char) : motive line := by
  fun_induction escape line with
  | case1 cs ih => exact quotes cs ih
  | case2 c cs h ih =>
    refine char c cs ?_ ih
    rintro rest heq
    obtain ⟨rfl, rfl⟩ := List.cons.inj heq
    exact h rest rfl rfl
  | case3 => exact nil

theorem not_mem_escape {line : List Char} (h : '\n' ∉ line) : '\n' ∉ escape line := by
  induction line using escape_induction with
  | nil => exact h
  | quotes cs ih =>
    rw [escape_quotes]
    simp only [List.mem_cons, not_or] at h ⊢
    exact ⟨by decide, h.1, h.2.1, h.2.2.1, ih h.2.2.2⟩
  | char c cs hquotes ih =>
    rw [escape_cons hquotes]
    rw [List.mem_cons, not_or] at h ⊢
    exact ⟨h.1, ih h.2⟩

theorem escape_ne_nil {line : List Char} (h : line ≠ []) : escape line ≠ [] := by
  induction line using escape_induction with
  | nil => exact absurd rfl h
  | quotes cs =>
    rw [escape_quotes]
    exact List.cons_ne_nil _ _
  | char c cs hquotes =>
    rw [escape_cons hquotes]
    exact List.cons_ne_nil _ _

theorem getLast?_escape (line : List Char) : (escape line).getLast? = line.getLast? := by
  induction line using escape_induction with
  | nil => rfl
  | quotes cs ih =>
    rw [escape_quotes]
    simp only [List.getLast?_cons, ih, Option.getD_some]
  | char c cs hquotes ih => rw [escape_cons hquotes, List.getLast?_cons, List.getLast?_cons, ih]

theorem escape_concat {c : Char} (hc : c ≠ '"') (line : List Char) :
    escape (line ++ [c]) = escape line ++ [c] := by
  induction line using escape_induction with
  | nil => exact escape_cons fun rest heq => hc (List.cons.inj heq).1
  | quotes cs ih =>
    rw [List.cons_append, List.cons_append, List.cons_append, escape_quotes, ih, escape_quotes]
    rfl
  | char d cs hquotes ih =>
    have hlonger : ∀ rest, d :: (cs ++ [c]) ≠ '"' :: '"' :: '"' :: rest := by
      intro rest heq
      match cs with
      | [] => exact hc (List.cons.inj (List.cons.inj heq).2).1
      | [e] => exact hc (List.cons.inj (List.cons.inj (List.cons.inj heq).2).2).1
      | e :: f :: cs =>
        simp only [List.cons_append, List.cons.injEq] at heq
        obtain ⟨rfl, rfl, rfl, -⟩ := heq
        exact hquotes cs rfl
    rw [List.cons_append, escape_cons hlonger, ih, escape_cons hquotes, List.cons_append]

theorem eq_quote_cons_of_escape {line rest tail : List Char} (hrest : rest.head? ≠ some '"')
    (h : escape line ++ rest = '"' :: tail) :
    ∃ cs, line = '"' :: cs ∧ (∀ others, line ≠ '"' :: '"' :: '"' :: others) ∧
      escape cs ++ rest = tail := by
  induction line using escape_induction with
  | nil => exact absurd (congrArg List.head? h) hrest
  | quotes cs =>
    rw [escape_quotes] at h
    exact absurd (List.cons.inj h).1 (by decide)
  | char c cs hquotes =>
    rw [escape_cons hquotes, List.cons_append] at h
    obtain ⟨rfl, htail⟩ := List.cons.inj h
    exact ⟨cs, rfl, hquotes, htail⟩

theorem escape_ne_quotes {line rest tail : List Char} (hrest : rest.head? ≠ some '"') :
    escape line ++ rest ≠ '"' :: '"' :: '"' :: tail := by
  intro h
  obtain ⟨cs, rfl, hquotes, h⟩ := eq_quote_cons_of_escape hrest h
  obtain ⟨cs, rfl, -, h⟩ := eq_quote_cons_of_escape hrest h
  obtain ⟨cs, rfl, -, -⟩ := eq_quote_cons_of_escape hrest h
  exact hquotes cs rfl

theorem unescape_cons {c : Char} {cs : List Char}
    (h : c = '\\' → ∀ rest, cs ≠ '"' :: '"' :: '"' :: rest) :
    unescape (c :: cs) = c :: unescape cs := by
  rw [unescape]
  exact fun rest hc hcs => h hc rest hcs

theorem unescape_escape (line : List Char) {rest : List Char} (hrest : rest.head? ≠ some '"') :
    unescape (escape line ++ rest) = line ++ unescape rest := by
  induction line using escape_induction with
  | nil => rfl
  | quotes cs ih =>
    rw [escape_quotes]
    show unescape ('\\' :: '"' :: '"' :: '"' :: (escape cs ++ rest)) = _
    rw [unescape, ih]
    rfl
  | char c cs hquotes ih =>
    rw [escape_cons hquotes, List.cons_append, unescape_cons fun _ _ => escape_ne_quotes hrest, ih,
      List.cons_append]

theorem unescape_intercalate (ls : List (List Char)) :
    unescape (['\n'].intercalate (ls.map escape)) = ['\n'].intercalate ls := by
  induction ls with
  | nil => rfl
  | cons line ls ih =>
    cases ls with
    | nil =>
      have h : unescape (escape line ++ []) = line ++ unescape [] := unescape_escape line (by decide)
      rw [List.append_nil] at h
      simpa only [List.map_cons, List.map_nil, List.intercalate_singleton, unescape,
        List.append_nil] using h
    | cons next ls =>
      rw [List.map_cons] at ih
      rw [List.map_cons, List.map_cons, List.intercalate_cons_cons, List.intercalate_cons_cons,
        List.append_assoc, List.append_assoc, List.singleton_append, List.singleton_append,
        unescape_escape line (by simp), unescape_cons fun h => absurd h (by decide), ih]

/-! ## The characters of a block -/

/-- A line of a block without its end. -/
def lineChars (indent : String) (line : List Char) : List Char :=
  if line.isEmpty then [] else indent.toList ++ escape line

/-- What is written between the triple quotes of a block. -/
def body (indent : String) (text : String) : List Char :=
  ([] :: (lines text.toList).map (lineChars indent)).flatMap (· ++ ['\n']) ++ indent.toList

theorem toList_writeLine (indent : String) (line : List Char) :
    (writeLine indent line).toList = lineChars indent line ++ ['\n'] := by
  unfold writeLine lineChars
  split
  · rfl
  · simp

theorem toList_write (indent text : String) :
    (write indent text).toList =
      indent.toList ++ ('"' :: '"' :: '"' :: (body indent text ++ ['"', '"', '"', '\n'])) := by
  have hlines : (String.join ((lines text.toList).map (writeLine indent))).toList =
      ((lines text.toList).map (lineChars indent)).flatMap (· ++ ['\n']) := by
    rw [String.toList_join, List.flatMap_map, List.flatMap_map]
    simp only [toList_writeLine]
  simp [write, body, hlines]

end AuditFields.Text.Block
