import AuditFields.Proofs.Json.Reading
import AuditFields.Proofs.Text.Pieces
import Mathlib.Algebra.Group.Int.Defs

/-!
# Numbers and strings of JSON, written and read

A number ends before any character that it cannot go on with (`Ends`), so what is read of it does not depend
on what follows (`read_append`). The decimal digits of an integer between `-2 ^ 63` and `2 ^ 64 - 1` are
read as this integer, and every number that is read is such an integer or a float. A string is read up to
its closing quote, whatever characters it has.
-/

namespace AuditFields.Json

variable {cs rest : List Char}

/-! ## Numbers and what follows -/

namespace Number

/-- Whether a number may go on with the character. -/
def continues (c : Char) : Bool :=
  c.isDigit || c == '.' || c == 'e' || c == 'E' || c == '+' || c == '-'

/-- The text after a number that ends there. -/
def Ends (text : List Char) : Prop :=
  ∀ c ∈ text.head?, continues c = false

theorem ends_nil : Ends [] :=
  fun _ h => nomatch h

theorem ends_cons {c : Char} (h : continues c = false) : Ends (c :: cs) := by
  rintro _ ⟨⟩
  exact h

theorem Ends.head_ne {c other : Char} {tail : List Char} (h : Ends (c :: tail))
    (hother : continues other = true) : c ≠ other := by
  rintro rfl
  cases (h c rfl).symm.trans hother

theorem Ends.takeWhile_append (h : Ends rest) (cs : List Char) :
    (cs ++ rest).takeWhile Char.isDigit = cs.takeWhile Char.isDigit := by
  induction cs with
  | nil =>
    cases rest with
    | nil => rfl
    | cons c rest =>
      have hdigit : ¬c.isDigit = true := fun hdigit => h.head_ne (by simp [continues, hdigit]) rfl
      rw [List.nil_append, List.takeWhile_cons_of_neg hdigit, List.takeWhile_nil]
  | cons c cs ih => simp only [List.cons_append, List.takeWhile_cons, ih]

theorem Ends.dropWhile_append (h : Ends rest) (cs : List Char) :
    (cs ++ rest).dropWhile Char.isDigit = cs.dropWhile Char.isDigit ++ rest := by
  have hall : cs.takeWhile Char.isDigit ++ (cs ++ rest).dropWhile Char.isDigit =
      cs.takeWhile Char.isDigit ++ (cs.dropWhile Char.isDigit ++ rest) := by
    rw [← h.takeWhile_append, List.takeWhile_append_dropWhile, h.takeWhile_append, ← List.append_assoc,
      List.takeWhile_append_dropWhile]
  exact List.append_cancel_left hall

theorem Ends.exponentPart_eq_none (h : Ends rest) : exponentPart rest = none := by
  cases rest with
  | nil => rfl
  | cons c tail =>
    have hdigit : ¬c.isDigit = true := fun hdigit => h.head_ne (by simp [continues, hdigit]) rfl
    have hminus := h.head_ne (show continues '-' = true from rfl)
    have hplus := h.head_ne (show continues '+' = true from rfl)
    simp [exponentPart, hminus, hplus, hdigit]

theorem exponentPart_append (h : Ends rest) (cs : List Char) :
    exponentPart (cs ++ rest) =
      (exponentPart cs).map fun found => (found.1, found.2.1, found.2.2 ++ rest) := by
  cases cs with
  | nil => exact h.exponentPart_eq_none
  | cons c tail =>
    have hsign : (if c == '-' || c == '+' then tail ++ rest else c :: (tail ++ rest)) =
        (if c == '-' || c == '+' then tail else c :: tail) ++ rest := by
      split
      · rfl
      · rfl
    rw [List.cons_append, exponentPart, exponentPart, hsign, h.takeWhile_append, h.dropWhile_append]
    generalize (if c == '-' || c == '+' then tail else c :: tail) = digits
    cases (digits.takeWhile Char.isDigit).isEmpty with
    | true => rfl
    | false => rfl

theorem withExponent_append (h : Ends rest) (negative : Bool) (significand : Nat) (power : Int)
    (cs : List Char) :
    withExponent negative significand power (cs ++ rest) =
      (withExponent negative significand power cs).map fun found => (found.1, found.2 ++ rest) := by
  cases cs with
  | nil =>
    cases rest with
    | nil => simp
    | cons c tail =>
      have hlower := h.head_ne (show continues 'e' = true from rfl)
      have hupper := h.head_ne (show continues 'E' = true from rfl)
      have hletter : (c == 'e' || c == 'E') = false := by simp [hlower, hupper]
      rw [List.nil_append, withExponent, withExponent, hletter]
      cases scaled significand power with
      | none => rfl
      | some x => rfl
  | cons c tail =>
    rw [List.cons_append, withExponent, withExponent, exponentPart_append h]
    split
    · cases hpart : exponentPart tail with
      | none => rfl
      | some found =>
        obtain ⟨below, exponent, left⟩ := found
        simp only [Option.map_some, Option.bind_eq_bind, Option.bind_some]
        split
        · cases scaled significand _ with
          | none => rfl
          | some x => rfl
        · split
          · rfl
          · rfl
    · cases scaled significand power with
      | none => rfl
      | some x => rfl

/-- What is read after the digits of the integer part: a fraction, an exponent, or nothing. -/
def afterWhole (negative : Bool) (significand : Nat) (excess : List Char) :
    List Char → Option (Json × List Char)
  | c :: tail =>
    if c = '.' then
      let fraction := tail.takeWhile Char.isDigit
      if fraction.isEmpty then none
      else
        let used := fraction.length - (append significand fraction).2.length
        withExponent negative (append significand fraction).1 ((excess.length : Int) - used)
          (tail.dropWhile Char.isDigit)
    else if c == 'e' || c == 'E' || !excess.isEmpty then
      withExponent negative significand excess.length (c :: tail)
    else some (integer negative significand, c :: tail)
  | [] =>
    if excess.isEmpty then some (integer negative significand, [])
    else withExponent negative significand excess.length []

theorem read_eq (negative : Bool) (cs : List Char) :
    read negative cs =
      let whole := cs.takeWhile Char.isDigit
      if whole.isEmpty || (whole.length > 1 && whole.head? == some '0') then none
      else afterWhole negative (append 0 whole).1 (append 0 whole).2 (cs.dropWhile Char.isDigit) := by
  rw [read]
  dsimp only
  split
  · rfl
  · cases cs.dropWhile Char.isDigit with
    | nil => rfl
    | cons c tail =>
      by_cases hpoint : c = '.'
      · subst hpoint
        rfl
      · rw [afterWhole, if_neg hpoint]
        split
        · next heq => exact absurd (List.cons.inj heq).1 hpoint
        · next heq =>
          obtain ⟨rfl, rfl⟩ := List.cons.inj heq
          rfl
        · next heq => cases heq

theorem afterWhole_append (h : Ends rest) (negative : Bool) (significand : Nat) (excess : List Char)
    (cs : List Char) :
    afterWhole negative significand excess (cs ++ rest) =
      (afterWhole negative significand excess cs).map fun found => (found.1, found.2 ++ rest) := by
  cases cs with
  | nil =>
    cases rest with
    | nil => simp
    | cons c tail =>
      have hpoint := h.head_ne (show continues '.' = true from rfl)
      have hlower := beq_false_of_ne (h.head_ne (show continues 'e' = true from rfl))
      have hupper := beq_false_of_ne (h.head_ne (show continues 'E' = true from rfl))
      rw [List.nil_append, afterWhole, afterWhole, if_neg hpoint, hlower, hupper]
      cases excess.isEmpty with
      | true => rfl
      | false => exact withExponent_append h negative significand excess.length []
  | cons c tail =>
    rw [List.cons_append, afterWhole, afterWhole, h.takeWhile_append, h.dropWhile_append]
    dsimp only
    rw [withExponent_append h]
    split
    · split
      · rfl
      · rfl
    · split
      · exact withExponent_append h negative significand excess.length (c :: tail)
      · rfl

/-- What is read of a number does not depend on what follows. -/
theorem read_append (h : Ends rest) (negative : Bool) (cs : List Char) :
    read negative (cs ++ rest) = (read negative cs).map fun found => (found.1, found.2 ++ rest) := by
  rw [read_eq, read_eq, h.takeWhile_append, h.dropWhile_append]
  dsimp only
  split
  · rfl
  · exact afterWhole_append h negative _ _ _

/-! ## Integers -/

theorem ofDigitChars_concat_lt {significand : Nat} {c : Char} {digits : List Char}
    (h : Nat.ofDigitChars 10 (c :: digits) significand < bound) :
    significand * 10 + digitValue c < bound := by
  rw [Nat.ofDigitChars_cons, Nat.ofDigitChars_eq_ofDigitChars_zero] at h
  have hpow : 0 < 10 ^ digits.length := Nat.pow_pos (by decide)
  have hle := Nat.le_mul_of_pos_left (10 * significand + (c.toNat - '0'.toNat)) hpow
  rw [digitValue]
  omega

theorem append_of_lt {significand : Nat} {digits : List Char}
    (h : Nat.ofDigitChars 10 digits significand < bound) :
    append significand digits = (Nat.ofDigitChars 10 digits significand, []) := by
  induction digits generalizing significand with
  | nil => rfl
  | cons c digits ih =>
    have hnext : significand * 10 + digitValue c = 10 * significand + (c.toNat - '0'.toNat) := by
      rw [digitValue, Nat.mul_comm]
    rw [append, if_pos (ofDigitChars_concat_lt h), hnext, Nat.ofDigitChars_cons]
    rw [Nat.ofDigitChars_cons] at h
    exact ih h

theorem append_lt {significand : Nat} (h : significand < bound) (digits : List Char) :
    (append significand digits).1 < bound := by
  induction digits generalizing significand with
  | nil => exact h
  | cons c digits ih =>
    rw [append]
    split
    · next hnext => exact ih hnext
    · exact h

theorem read_toDigits (negative : Bool) {n : Nat} (h : n < bound) :
    read negative (Nat.toDigits 10 n) = some (integer negative n, []) := by
  have hspan := span_append (isDigit_toDigits n) (fun c (h : c ∈ [].head?) => nomatch h)
  rw [List.append_nil] at hspan
  have happend : append 0 (Nat.toDigits 10 n) = (n, []) := by
    rw [append_of_lt (by rw [Nat.ofDigitChars_ten_toDigits]; exact h), Nat.ofDigitChars_ten_toDigits]
  have hplain : ((Nat.toDigits 10 n).isEmpty ||
      ((Nat.toDigits 10 n).length > 1 && (Nat.toDigits 10 n).head? == some '0')) = false := by
    by_cases hn : n = 0
    · subst hn
      rfl
    · simp [Nat.toDigits_ne_nil, beq_false_of_ne (head?_toDigits_ne hn)]
  rw [read_eq]
  dsimp only
  rw [hspan.1, hspan.2, happend, hplain]
  rfl

end Number

/-- The integers that are read as such. -/
def InRange (n : Int) : Prop :=
  -2 ^ 63 ≤ n ∧ n < 2 ^ 64

namespace Number

/-- An integer, or a float where an integer is out of range. -/
def Kept (v : Json) : Prop :=
  (∃ x, v = .float x) ∨ ∃ n, InRange n ∧ v = .int n

theorem kept_signed (negative : Bool) (x : Binary64) : Kept (signed negative x) :=
  Or.inl ⟨_, rfl⟩

theorem kept_integer {significand : Nat} (h : significand < bound) (negative : Bool) :
    Kept (integer negative significand) := by
  have hbound : (bound : Int) = 2 ^ 64 := rfl
  unfold integer
  split
  · exact Or.inr ⟨_, ⟨by omega, by omega⟩, rfl⟩
  · split
    · next hnegative =>
      simp only [Bool.and_eq_true, decide_eq_true_eq] at hnegative
      have hpow : significand ≤ 2 ^ 63 := hnegative.2
      exact Or.inr ⟨_, ⟨by omega, by omega⟩, rfl⟩
    · exact kept_signed _ _

theorem kept_withExponent {negative : Bool} {significand : Nat} {power : Int} {v : Json}
    (h : withExponent negative significand power cs = some (v, rest)) : Kept v := by
  have hscaled : ∀ {left : List Char},
      (scaled significand power).map (signed negative ·, left) = some (v, rest) → Kept v := by
    intro left hmap
    obtain ⟨x, _, hx⟩ := Option.map_eq_some_iff.mp hmap
    obtain ⟨rfl, _⟩ := Prod.mk.inj hx
    exact kept_signed negative x
  cases cs with
  | nil => exact hscaled h
  | cons c tail =>
    rw [withExponent] at h
    split at h
    · obtain ⟨⟨below, exponent, left⟩, _, hrest⟩ := Option.bind_eq_some_iff.mp h
      dsimp only at hrest
      split at hrest
      · obtain ⟨x, _, hx⟩ := Option.bind_eq_some_iff.mp hrest
        cases hx
        exact kept_signed negative x
      · split at hrest
        · cases hrest
          exact kept_signed negative _
        · cases hrest
    · exact hscaled h

theorem kept_afterWhole {negative : Bool} {significand : Nat} {excess : List Char} {v : Json}
    (hbound : significand < bound)
    (h : afterWhole negative significand excess cs = some (v, rest)) : Kept v := by
  cases cs with
  | nil =>
    rw [afterWhole] at h
    split at h
    · cases h
      exact kept_integer hbound negative
    · exact kept_withExponent h
  | cons c tail =>
    rw [afterWhole] at h
    split at h
    · dsimp only at h
      split at h
      · cases h
      · exact kept_withExponent h
    · split at h
      · exact kept_withExponent h
      · cases h
        exact kept_integer hbound negative

theorem kept_read {negative : Bool} {v : Json} (h : read negative cs = some (v, rest)) : Kept v := by
  rw [read_eq] at h
  dsimp only at h
  split at h
  · cases h
  · exact kept_afterWhole (append_lt (show 0 < bound by decide) _) h

end Number

/-! ## Integers -/

theorem toList_compact_int (n : Int) :
    (compact (.int n)).toList =
      if 0 ≤ n then Nat.toDigits 10 n.natAbs else '-' :: Nat.toDigits 10 n.natAbs := by
  rw [compact, Int.toString_eq_repr, Int.repr_eq_if]
  by_cases hn : 0 ≤ n
  · have habs : n.toNat = n.natAbs := by omega
    rw [if_pos hn, if_pos hn, Nat.toList_repr, habs]
  · have habs : (-n).toNat = n.natAbs := by omega
    rw [if_neg hn, if_neg hn, String.toList_append, Nat.toList_repr, habs]
    rfl

theorem reads_scalar_int {n : Int} (h : InRange n) (hrest : Number.Ends rest) :
    Reads Reader.scalar ((compact (.int n)).toList ++ rest) (.int n) rest := by
  obtain ⟨hlow, hhigh⟩ := h
  have hbound : n.natAbs < Number.bound := by
    have : Number.bound = 2 ^ 64 := rfl
    omega
  have hread : ∀ negative, Number.read negative (Nat.toDigits 10 n.natAbs ++ rest) =
      some (Number.integer negative n.natAbs, rest) := by
    intro negative
    rw [Number.read_append hrest, Number.read_toDigits negative hbound]
    rfl
  rw [toList_compact_int]
  by_cases hn : 0 ≤ n
  · have hvalue : Number.integer false n.natAbs = .int n := by
      rw [Number.integer, if_pos (by decide)]
      congr 1
      omega
    rw [if_pos hn]
    exact Reader.reads_scalar_number ((hread false).trans (by rw [hvalue]))
  · have hvalue : Number.integer true n.natAbs = .int n := by
      have hpow : n.natAbs ≤ Nat.pow 2 63 := by
        have : Nat.pow 2 63 = 2 ^ 63 := rfl
        omega
      rw [Number.integer, if_neg (by decide), if_pos (by simp [hpow]; omega)]
      congr 1
      omega
    rw [if_neg hn, List.cons_append]
    exact Reader.reads_scalar_negative ((hread true).trans (by rw [hvalue]))

/-- The text of the number is read as the number. -/
def ReadsBack (x : Binary64) : Prop :=
  Reads Reader.scalar (compact (.float x)).toList (.float x) []

theorem reads_scalar_float {x : Binary64} (h : ReadsBack x) (hrest : Number.Ends rest) :
    Reads Reader.scalar ((compact (.float x)).toList ++ rest) (.float x) rest := by
  have happend : ∀ {negative : Bool} {cs : List Char}, Number.read negative cs = some (.float x, []) →
      Number.read negative (cs ++ rest) = some (.float x, rest) := by
    intro negative cs hread
    rw [Number.read_append hrest, hread]
    rfl
  rcases Reader.reads_scalar_cases h with
    ⟨hv, _⟩ | ⟨hv, _⟩ | ⟨hv, _⟩ | ⟨_, _, _, _, hv⟩ | ⟨tail, htext, hread⟩ | hread
  · cases hv
  · cases hv
  · cases hv
  · cases hv
  · rw [htext]
    exact Reader.reads_scalar_negative (happend hread)
  · exact Reader.reads_scalar_number (happend hread)

/-! ## Strings -/

theorem hexValue?_digitChar {d : Nat} (h : d < 16) : Reader.hexValue? (Nat.digitChar d) = some d := by
  have hall : ∀ d < 16, Reader.hexValue? (Nat.digitChar d) = some d := by decide
  exact hall d h

theorem unicodeEscape?_low {c : Char} (h : c.toNat < 0x20) (cs : List Char) :
    Reader.unicodeEscape? ('0' :: '0' :: Nat.digitChar (c.toNat / 16) :: Nat.digitChar (c.toNat % 16) :: cs) =
      some (c, cs) := by
  have hzero : Reader.hexValue? '0' = some 0 := rfl
  have hhigh := hexValue?_digitChar (d := c.toNat / 16) (by omega)
  have hlow := hexValue?_digitChar (d := c.toNat % 16) (by omega)
  have hunit : Reader.hexUnit?
      ('0' :: '0' :: Nat.digitChar (c.toNat / 16) :: Nat.digitChar (c.toNat % 16) :: cs) =
      some (c.toNat, cs) := by
    simp only [Reader.hexUnit?, hzero, hhigh, hlow, Option.bind_eq_bind, Option.bind_some]
    have hvalue : ((0 * 16 + 0) * 16 + c.toNat / 16) * 16 + c.toNat % 16 = c.toNat := by omega
    rw [hvalue]
    rfl
  have hnotHigh : ¬(0xD800 ≤ c.toNat && c.toNat ≤ 0xDBFF) = true := by
    simp
    omega
  have hnotLow : ¬(0xDC00 ≤ c.toNat && c.toNat ≤ 0xDFFF) = true := by
    simp
    omega
  rw [Reader.unicodeEscape?, hunit]
  simp only [Option.bind_eq_bind, Option.bind_some]
  rw [if_neg hnotHigh, if_neg hnotLow, Char.ofNat_toNat]
  rfl

theorem escape_cases (c : Char) :
    (∃ escaped, escape c = '\\' :: escaped ∧ ∀ cs, Reader.escape? (escaped ++ cs) = some (c, cs)) ∨
      (c ≠ '"' ∧ c ≠ '\\' ∧ ¬c.toNat < 0x20 ∧ escape c = [c]) := by
  unfold escape
  split
  · next heq =>
    subst heq
    exact Or.inl ⟨['"'], rfl, fun _ => rfl⟩
  split
  · next heq =>
    subst heq
    exact Or.inl ⟨['\\'], rfl, fun _ => rfl⟩
  next hquote hbackslash =>
  split
  · next heq => exact Or.inl ⟨['b'], rfl, fun _ => heq ▸ rfl⟩
  split
  · next heq => exact Or.inl ⟨['f'], rfl, fun _ => heq ▸ rfl⟩
  split
  · next heq => exact Or.inl ⟨['n'], rfl, fun _ => heq ▸ rfl⟩
  split
  · next heq => exact Or.inl ⟨['r'], rfl, fun _ => heq ▸ rfl⟩
  split
  · next heq => exact Or.inl ⟨['t'], rfl, fun _ => heq ▸ rfl⟩
  split
  · next hlow => exact Or.inl ⟨_, rfl, fun cs => unicodeEscape?_low hlow cs⟩
  · next hlow => exact Or.inr ⟨hquote, hbackslash, hlow, rfl⟩

theorem stringBody?_escape (b : Char) (bound : List Char) (c : Char) (cs : List Char) :
    Reader.stringBody? (b :: bound) (escape c ++ cs) =
      (Reader.stringBody? bound cs).map fun found => (c :: found.1, found.2) := by
  have hbody : ∀ found : Option (List Char × List Char),
      (found.bind fun found => some (c :: found.1, found.2)) =
        found.map fun found => (c :: found.1, found.2) := by
    intro found
    cases found with
    | none => rfl
    | some found => rfl
  rcases escape_cases c with ⟨escaped, hescape, hmeans⟩ | ⟨hquote, hbackslash, hlow, hescape⟩
  · rw [hescape, List.cons_append, Reader.stringBody?, if_neg (by decide), if_pos rfl, hmeans]
    exact hbody _
  · rw [hescape, List.singleton_append, Reader.stringBody?, if_neg hquote, if_neg hbackslash,
      if_neg hlow]
    exact hbody _

/-- The characters of a string are read up to its closing quote. -/
theorem stringBody?_flatMap {bound text : List Char} (h : text.length < bound.length) :
    Reader.stringBody? bound (text.flatMap escape ++ '"' :: rest) = some (text, rest) := by
  induction text generalizing bound with
  | nil =>
    cases bound with
    | nil => cases h
    | cons b bound => rfl
  | cons c text ih =>
    cases bound with
    | nil => cases h
    | cons b bound =>
      rw [List.flatMap_cons, List.append_assoc, stringBody?_escape, ih (Nat.lt_of_succ_lt_succ h)]
      rfl

theorem toList_quoted (s : String) : (quoted s).toList = '"' :: (s.toList.flatMap escape ++ ['"']) :=
  String.toList_ofList

theorem length_le_flatMap_escape (text : List Char) : text.length ≤ (text.flatMap escape).length := by
  induction text with
  | nil => exact Nat.le_refl 0
  | cons c text ih =>
    have hne : 0 < (escape c).length := by
      rcases escape_cases c with ⟨escaped, hescape, _⟩ | ⟨_, _, _, hescape⟩
      · simp [hescape]
      · simp [hescape]
    rw [List.flatMap_cons, List.length_append, List.length_cons]
    omega

theorem reads_stringRest_escape (s : String) :
    Reads Reader.stringRest (s.toList.flatMap escape ++ '"' :: rest) s rest := by
  have hlength : s.toList.length < (s.toList.flatMap escape ++ '"' :: rest).length := by
    have hle := length_le_flatMap_escape s.toList
    rw [List.length_append, List.length_cons]
    omega
  exact Reader.reads_stringRest.mpr ⟨s.toList, stringBody?_flatMap hlength, String.ofList_toList.symm⟩

end AuditFields.Json
