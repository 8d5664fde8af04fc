import AuditFields.Text.Blank

/-!
# Pieces of texts

What texts of several formats are made of: decimal digits, runs of characters of one kind, and parts with a
separator between each two.
-/

namespace AuditFields

/-! ## Digits -/

theorem head?_toDigits_append (n : Nat) (cs : List Char) :
    (Nat.toDigits 10 n ++ cs).head? = (Nat.toDigits 10 n).head? := by
  rw [List.head?_append, List.head?_eq_some_head Nat.toDigits_ne_nil, Option.some_or]

theorem head?_toDigits_ne {n : Nat} (h : n ≠ 0) : (Nat.toDigits 10 n).head? ≠ some '0' := by
  induction n using Nat.strongRecOn with
  | ind n ih =>
    by_cases hn : n < 10
    · rw [Nat.toDigits_of_lt_base hn, List.head?_cons]
      have : ∀ d < 10, d ≠ 0 → some (Nat.digitChar d) ≠ some '0' := by decide
      exact this n hn h
    · rw [Nat.toDigits_of_base_le (by decide) (by omega), head?_toDigits_append]
      exact ih (n / 10) (by omega) (by omega)

theorem ne_of_isDigit {c other : Char} (h : c.isDigit = true) (hother : other.isDigit = false) : c ≠ other := by
  rintro rfl
  cases h.symm.trans hother

theorem isDigit_toDigits (n : Nat) : ∀ c ∈ Nat.toDigits 10 n, c.isDigit = true :=
  fun _ h => Nat.isDigit_of_mem_toDigits (by decide) (by decide) h

/-! ## Runs -/

theorem span_append {p : Char → Bool} {xs cs : List Char} (hxs : ∀ c ∈ xs, p c = true)
    (hcs : ∀ c ∈ cs.head?, p c = false) :
    (xs ++ cs).takeWhile p = xs ∧ (xs ++ cs).dropWhile p = cs := by
  rw [List.takeWhile_append_of_pos hxs, List.dropWhile_append_of_pos hxs]
  cases cs with
  | nil => exact ⟨List.append_nil xs, rfl⟩
  | cons c cs =>
    have hc : ¬p c = true := Bool.eq_false_iff.mp (hcs c rfl)
    rw [List.takeWhile_cons_of_neg hc, List.dropWhile_cons_of_neg hc]
    exact ⟨List.append_nil xs, rfl⟩

/-! ## Parts with a separator -/

theorem intercalate_cons (separator first : List Char) (rest : List (List Char)) :
    separator.intercalate (first :: rest) = first ++ rest.flatMap (separator ++ ·) := by
  induction rest generalizing first with
  | nil => rw [List.intercalate_singleton, List.flatMap_nil, List.append_nil]
  | cons next rest ih =>
    rw [List.intercalate_cons_cons, ih, List.flatMap_cons, List.append_assoc, List.append_assoc]

theorem toList_joinWith_cons {α : Type} (separator : String) (text : α → String) (first : α) (rest : List α) :
    (Text.joinWith separator ((first :: rest).map text)).toList =
      (text first).toList ++ rest.flatMap fun item => separator.toList ++ (text item).toList := by
  rw [Text.joinWith, String.toList_intercalate, List.map_cons, List.map_cons, intercalate_cons,
    List.flatMap_map, List.flatMap_map]

end AuditFields
