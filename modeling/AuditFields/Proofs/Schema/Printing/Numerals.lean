import AuditFields.Proofs.Schema.Printing.Lexing

/-!
# Numerals

A numeral as it is written is a `Numeral`: the digits before the point, those after it, and the exponent
with its sign. A well-formed one is read as one token, an integer if it has neither a fraction nor an
exponent (`number_append`). Integers are written as such numerals, and so are finite binary numbers: the
shortest decimal of a number has no zero in front, however its digits are laid out. An infinity and what
is no number are written as names, but for the negative infinity, at whose sign nothing can be read.
-/

namespace AuditFields

namespace Schema

/-- A numeral without its minus sign. An empty fraction or power is not written. -/
structure Numeral where
  whole : List Char
  fraction : List Char := []
  /-- The sign of the power of ten. -/
  sign : List Char := []
  power : List Char := []

namespace Numeral

/-- The fraction behind its point. -/
def fractionText (n : Numeral) : List Char :=
  if n.fraction = [] then [] else '.' :: n.fraction

/-- The exponent behind its letter. -/
def powerText (n : Numeral) : List Char :=
  if n.power = [] then [] else 'e' :: (n.sign ++ n.power)

def text (n : Numeral) : List Char :=
  n.whole ++ (n.fractionText ++ n.powerText)

/-- All digits are digits, and the first of several is no zero. -/
structure WellFormed (n : Numeral) : Prop where
  whole : ∀ c ∈ n.whole, c.isDigit = true
  whole_ne_nil : n.whole ≠ []
  leading : 1 < n.whole.length → n.whole.head? ≠ some '0'
  fraction : ∀ c ∈ n.fraction, c.isDigit = true
  sign : n.sign = [] ∨ n.sign = ['-'] ∨ n.sign = ['+']
  power : ∀ c ∈ n.power, c.isDigit = true

def integer (negative : Bool) (n : Numeral) : Int :=
  let value : Int := Nat.ofDigitChars 10 n.whole 0
  if negative then -value else value

/-- The power of ten that the exponent names. -/
def exponent (n : Numeral) : Int :=
  let value : Int := Nat.ofDigitChars 10 n.power 0
  if n.power = [] then 0 else if n.sign = ['-'] then -value else value

def float (negative : Bool) (n : Numeral) : Binary64 :=
  Binary64.ofDecimal negative (Nat.ofDigitChars 10 (n.whole ++ n.fraction) 0)
    (n.exponent - n.fraction.length)

/-! ## Reading -/

theorem continues_of_isDigit {c : Char} (h : c.isDigit = true) : continues c = true :=
  continues_of_isNameChar (Text.isNameChar_of_isDigit h)

variable {n : Numeral} {cs : List Char}

theorem isDigit_head_powerText (hends : Ends cs) :
    ∀ c ∈ (n.powerText ++ cs).head?, c.isDigit = false := by
  unfold powerText
  split
  · exact hends.head_eq_false fun _ => continues_of_isDigit
  · intro c hc
    obtain rfl := Option.some.inj hc
    rfl

theorem fraction?_append (hn : n.WellFormed) (hends : Ends cs) :
    Token.fraction? (n.fractionText ++ (n.powerText ++ cs)) =
      if n.fraction = [] then none else some (n.fraction, n.powerText ++ cs) := by
  unfold fractionText
  by_cases hnone : n.fraction = []
  · rw [if_pos hnone, if_pos hnone, List.nil_append]
    unfold Token.fraction?
    split
    · next rest heq =>
      -- A point can stand neither at the start of an exponent nor right after a numeral.
      unfold powerText at heq
      split at heq
      · rw [List.nil_append] at heq
        subst heq
        exact absurd (hends '.' rfl) (by decide)
      · cases heq
    · rfl
  · obtain ⟨htake, hdrop⟩ := span_append hn.fraction (isDigit_head_powerText (n := n) hends)
    rw [if_neg hnone, if_neg hnone]
    show Token.fraction? ('.' :: (n.fraction ++ (n.powerText ++ cs))) = _
    rw [Token.fraction?, htake, hdrop, if_neg (by simpa using hnone)]

theorem sign_append (hn : n.WellFormed) (hpower : n.power ≠ []) :
    Token.sign (n.sign ++ (n.power ++ cs)) = (n.sign == ['-'], n.power ++ cs) := by
  obtain ⟨digit, rest, hdigits⟩ := List.exists_cons_of_ne_nil hpower
  have hdigit : digit.isDigit = true := hn.power digit (hdigits ▸ List.mem_cons_self)
  rcases hn.sign with h | h | h
  · rw [h, hdigits]
    unfold Token.sign
    split
    · next heq =>
      obtain ⟨rfl, _⟩ := List.cons.inj heq
      exact absurd hdigit (by decide)
    · next heq =>
      obtain ⟨rfl, _⟩ := List.cons.inj heq
      exact absurd hdigit (by decide)
    · rfl
  · rw [h]
    rfl
  · rw [h]
    rfl

theorem exponent?_append (hn : n.WellFormed) (hends : Ends cs) :
    Token.exponent? (n.powerText ++ cs) =
      if n.power = [] then none else some (n.exponent, cs) := by
  unfold powerText
  by_cases hnone : n.power = []
  · rw [if_pos hnone, if_pos hnone, List.nil_append]
    cases cs with
    | nil => rfl
    | cons c cs =>
      have hletter : ¬(c == 'e' || c == 'E') = true := by
        intro h
        rw [Bool.or_eq_true, beq_iff_eq, beq_iff_eq] at h
        rcases h with rfl | rfl <;> exact absurd (hends _ rfl) (by decide)
      rw [Token.exponent?, if_neg hletter]
  · have hdigits : ∀ c ∈ cs.head?, c.isDigit = false :=
      hends.head_eq_false fun _ => continues_of_isDigit
    obtain ⟨htake, hdrop⟩ := span_append hn.power hdigits
    rw [if_neg hnone, if_neg hnone]
    show Token.exponent? ('e' :: ((n.sign ++ n.power) ++ cs)) = _
    rw [Token.exponent?, if_pos (by rfl), List.append_assoc, sign_append hn hnone]
    dsimp only
    rw [htake, hdrop, if_neg (by simpa using hnone), exponent, if_neg hnone]
    simp only [beq_iff_eq]

theorem numberUnlessExtended_of_ends (token : Token) (hends : Ends cs) :
    Token.numberUnlessExtended token cs = (token, cs) := by
  cases cs with
  | nil => rfl
  | cons c cs =>
    have hcontinues : ¬Token.extendsNumber c = true := by
      intro h
      have hc := hends c rfl
      rw [Token.extendsNumber, Bool.or_eq_true, beq_iff_eq] at h
      rcases h with rfl | h
      · exact absurd hc (by decide)
      · rw [continues_of_isNameChar (Text.isNameChar_of_isNameStart h)] at hc
        cases hc
    rw [Token.numberUnlessExtended, if_neg hcontinues]

/-- The token of the numeral. -/
def token (negative : Bool) (n : Numeral) : Token :=
  if n.fraction = [] ∧ n.power = [] then .int (n.integer negative) else .float (n.float negative)

theorem number_append (negative : Bool) (hn : n.WellFormed) (hends : Ends cs) :
    Token.number negative (n.text ++ cs) = (n.token negative, cs) := by
  have hrest : ∀ c ∈ (n.fractionText ++ (n.powerText ++ cs)).head?, c.isDigit = false := by
    unfold fractionText
    split
    · exact isDigit_head_powerText hends
    · intro c hc
      obtain rfl := Option.some.inj hc
      rfl
  obtain ⟨htake, hdrop⟩ := span_append hn.whole hrest
  have hleading : ¬(1 < n.whole.length && n.whole.head? == some '0') = true := by
    rw [Bool.and_eq_true, decide_eq_true_eq, beq_iff_eq]
    exact fun h => hn.leading h.1 h.2
  unfold Token.number text
  rw [List.append_assoc, List.append_assoc, htake, hdrop]
  have hpowerText : n.power = [] → n.powerText = [] := fun h => if_pos h
  have hexponent : n.power = [] → n.exponent = 0 := fun h => if_pos h
  dsimp only
  rw [if_neg hleading, fraction?_append hn hends]
  have hfloat : ¬(n.fraction = [] ∧ n.power = []) → n.token negative = .float (n.float negative) :=
    fun h => if_neg h
  by_cases hfraction : n.fraction = []
  · have htext : n.fractionText = [] := if_pos hfraction
    rw [if_pos hfraction, htext, List.nil_append, Option.elim_none, exponent?_append hn hends]
    by_cases hpower : n.power = []
    · have htoken : n.token negative = .int (n.integer negative) := if_pos ⟨hfraction, hpower⟩
      rw [if_pos hpower, hpowerText hpower, List.nil_append, htoken]
      exact numberUnlessExtended_of_ends _ hends
    · rw [if_neg hpower, hfloat fun h => hpower h.2, float, hfraction, List.append_nil]
      dsimp only [Option.elim_none, Option.elim_some]
      rw [List.append_nil]
      exact numberUnlessExtended_of_ends _ hends
  · rw [if_neg hfraction, Option.elim_some, exponent?_append hn hends, hfloat fun h => hfraction h.1]
    by_cases hpower : n.power = []
    · rw [if_pos hpower, float, hexponent hpower, hpowerText hpower]
      exact numberUnlessExtended_of_ends _ hends
    · rw [if_neg hpower]
      exact numberUnlessExtended_of_ends _ hends

/-- The numeral behind its minus sign, if it has one. -/
def signedText (negative : Bool) (n : Numeral) : List Char :=
  if negative then '-' :: n.text else n.text

theorem exists_text (hn : n.WellFormed) : ∃ c rest, n.text = c :: rest ∧ c.isDigit = true := by
  obtain ⟨c, rest, hwhole⟩ := List.exists_cons_of_ne_nil hn.whole_ne_nil
  refine ⟨c, rest ++ (n.fractionText ++ n.powerText), ?_, hn.whole c (hwhole ▸ List.mem_cons_self)⟩
  rw [text, hwhole, List.cons_append]

theorem spells {ts : List Token} (h : Spells cs ts) (hends : Ends cs) (negative : Bool)
    (hn : n.WellFormed) : Spells (n.signedText negative ++ cs) (n.token negative :: ts) := by
  obtain ⟨c, rest, htext, hdigit⟩ := exists_text hn
  have hnumber := number_append negative hn hends
  rw [htext, List.cons_append] at hnumber
  unfold signedText
  rw [htext]
  cases negative with
  | true =>
    refine Spells.token (by decide) (by decide) ?_ fun _ => h
    exact (Token.afterMinus_of_isDigit hdigit (rest ++ cs)).trans hnumber
  | false =>
    refine Spells.token (Token.isIgnored_eq_false_of_isNameChar (Text.isNameChar_of_isDigit hdigit)) ?_ ?_
      fun _ => h
    · rintro rfl
      exact absurd hdigit (by decide)
    · exact (Token.first_of_isDigit hdigit (rest ++ cs)).trans hnumber

end Numeral

/-! ## Integers -/

/-- The numeral of a natural number. -/
def natNumeral (n : Nat) : Numeral where
  whole := Nat.toDigits 10 n

theorem natNumeral_wellFormed (n : Nat) : (natNumeral n).WellFormed where
  whole := isDigit_toDigits n
  whole_ne_nil := Nat.toDigits_ne_nil
  leading := by
    intro hlength
    have hn : n ≠ 0 := by
      rintro rfl
      exact absurd hlength (by decide)
    exact head?_toDigits_ne hn
  fraction := fun _ h => absurd h List.not_mem_nil
  sign := Or.inl rfl
  power := fun _ h => absurd h List.not_mem_nil

theorem Spells.int {cs : List Char} {ts : List Token} (h : Spells cs ts) (hends : Ends cs) (i : Int) :
    Spells ((toString i).toList ++ cs) (.int i :: ts) := by
  have htext : (toString i).toList = (natNumeral i.natAbs).signedText (decide (i < 0)) := by
    have hdigits : (natNumeral i.natAbs).text = Nat.toDigits 10 i.natAbs := List.append_nil _
    rw [Int.toString_eq_repr, Int.repr_eq_if, Numeral.signedText, hdigits]
    by_cases hi : 0 ≤ i
    · have habs : i.toNat = i.natAbs := by omega
      rw [if_pos hi, if_neg (by simpa using hi), Nat.toList_repr, habs]
    · have habs : (-i).toNat = i.natAbs := by omega
      rw [if_neg hi, if_pos (by simpa using hi), String.toList_append, Nat.toList_repr, habs]
      rfl
  have htoken : (natNumeral i.natAbs).token (decide (i < 0)) = .int i := by
    have hvalue : Nat.ofDigitChars 10 (natNumeral i.natAbs).whole 0 = i.natAbs :=
      Nat.ofDigitChars_ten_toDigits
    rw [Numeral.token, if_pos ⟨rfl, rfl⟩, Numeral.integer, hvalue]
    congr 1
    by_cases hi : i < 0
    · rw [if_pos (by simpa using hi)]
      omega
    · rw [if_neg (by simpa using hi)]
      omega
  have hspells := Numeral.spells h hends (decide (i < 0)) (natNumeral_wellFormed i.natAbs)
  rwa [← htext, htoken] at hspells

end Schema

/-! ## Decimals -/

namespace Decimal

open Schema

theorem strip_digits_pos {digits : Nat} (h : 0 < digits) (exponent : Int) :
    0 < (strip digits exponent).digits := by
  induction digits using Nat.strongRecOn generalizing exponent with
  | ind digits ih =>
    rw [strip]
    split
    · next hzero => exact ih (digits / 10) (by omega) (by omega) _
    · exact h

theorem Interval.nearestMultiple?_pos {tie : Tie} {i : Interval} {exponent : Int} {n : Nat}
    (h : i.nearestMultiple? tie exponent = some n) : 0 < n := by
  unfold nearestMultiple? at h
  dsimp only at h
  split at h
  · next hlow _ =>
    rw [Bool.and_eq_true, decide_eq_true_eq] at hlow
    obtain rfl := Option.some.inj h
    split
    · exact Nat.succ_pos _
    · exact hlow.2
  · next hlow _ =>
    rw [Bool.and_eq_true, decide_eq_true_eq] at hlow
    obtain rfl := Option.some.inj h
    exact hlow.2
  · obtain rfl := Option.some.inj h
    exact Nat.succ_pos _
  · cases h

theorem exponent_shortest_of_digits_eq_zero {tie : Tie} {significand power : Nat}
    (h : (shortest tie significand power).digits = 0) : (shortest tie significand power).exponent = 0 := by
  unfold shortest at h ⊢
  dsimp only at h ⊢
  generalize hhit : List.findSome? _ (List.range 17) = hit at h ⊢
  cases hit with
  | none => rfl
  | some d =>
    obtain ⟨count, _, hcount⟩ := List.exists_of_findSome?_eq_some hhit
    obtain ⟨n, hn, rfl⟩ := Option.map_eq_some_iff.mp hcount
    have hpos := strip_digits_pos (Interval.nearestMultiple?_pos hn)
    rw [Option.getD_some] at h
    exact absurd h (Nat.ne_of_gt (hpos _))

/-- The digits of a decimal that are written before and after the point, with the zeros in front. -/
def paddedDigits (d : Decimal) : List Char :=
  let digits := Nat.toDigits 10 d.digits
  List.replicate ((-d.exponent).toNat + 1 - digits.length) '0' ++ digits

def wholeLength (d : Decimal) : Nat :=
  d.paddedDigits.length - (-d.exponent).toNat

/-- The numeral of a decimal that is written out. -/
def positionalNumeral (d : Decimal) : Numeral :=
  if 0 ≤ d.exponent then
    { whole := Nat.toDigits 10 d.digits ++ List.replicate d.exponent.toNat '0', fraction := ['0'] }
  else
    { whole := d.paddedDigits.take d.wholeLength, fraction := d.paddedDigits.drop d.wholeLength }

/-- The numeral of a decimal with its exponent behind the digits. -/
def exponentNumeral (plusSign : Bool) (d : Decimal) : Numeral where
  whole := (Nat.toDigits 10 d.digits).take 1
  fraction := (Nat.toDigits 10 d.digits).drop 1
  sign := if d.leadingPower < 0 then ['-'] else if plusSign then ['+'] else []
  power := Nat.toDigits 10 d.leadingPower.natAbs

def numeral (format : Format) (d : Decimal) : Numeral :=
  if d.digits = 0 || format.positional d.leadingPower then d.positionalNumeral
  else d.exponentNumeral format.plusSign

variable {d : Decimal}

theorem length_paddedDigits (d : Decimal) :
    d.paddedDigits.length = max (Nat.toDigits 10 d.digits).length ((-d.exponent).toNat + 1) := by
  simp only [paddedDigits, List.length_append, List.length_replicate]
  omega

theorem isDigit_paddedDigits (d : Decimal) : ∀ c ∈ d.paddedDigits, c.isDigit = true := by
  intro c hc
  rcases List.mem_append.mp hc with hzero | hdigit
  · obtain rfl := (List.mem_replicate.mp hzero).2
    rfl
  · exact isDigit_toDigits _ c hdigit

theorem drop_wholeLength_ne_nil (h : ¬0 ≤ d.exponent) : d.paddedDigits.drop d.wholeLength ≠ [] := by
  have hlength := length_paddedDigits d
  rw [Ne, List.drop_eq_nil_iff, wholeLength]
  omega

theorem toList_positionalText (d : Decimal) : d.positionalText.toList = d.positionalNumeral.text := by
  unfold positionalText positionalNumeral
  dsimp only
  split
  · simp [Numeral.text, Numeral.fractionText, Numeral.powerText]
  · next hexponent =>
    have hdrop := drop_wholeLength_ne_nil hexponent
    have hfold : List.replicate ((-d.exponent).toNat + 1 - (Nat.toDigits 10 d.digits).length) '0' ++
        Nat.toDigits 10 d.digits = d.paddedDigits := rfl
    have hwhole : d.paddedDigits.length - (-d.exponent).toNat = d.wholeLength := rfl
    rw [hfold, hwhole]
    simp [Numeral.text, Numeral.fractionText, Numeral.powerText, hdrop]

theorem toList_exponentText (plusSign : Bool) (d : Decimal) :
    (d.exponentText plusSign).toList = (d.exponentNumeral plusSign).text := by
  have hpower : Nat.toDigits 10 d.leadingPower.natAbs ≠ [] := Nat.toDigits_ne_nil
  have hfraction : (if (Nat.toDigits 10 d.digits).length ≤ 1 then ""
      else "." ++ String.ofList ((Nat.toDigits 10 d.digits).drop 1)).toList =
      (d.exponentNumeral plusSign).fractionText := by
    simp only [Numeral.fractionText, exponentNumeral, List.drop_eq_nil_iff]
    split
    · rfl
    · simp
  have hsign : (if d.leadingPower < 0 then "-" else if plusSign then "+" else "").toList =
      (d.exponentNumeral plusSign).sign := by
    simp only [exponentNumeral]
    split
    · rfl
    · split <;> rfl
  unfold exponentText
  simp only [String.toList_append, hfraction, hsign, String.toList_ofList, Nat.toString_eq_repr,
    Nat.toList_repr, Numeral.text, Numeral.powerText]
  simp [exponentNumeral, hpower]

theorem toList_text (format : Format) (d : Decimal) :
    (d.text format).toList = (d.numeral format).text := by
  unfold text numeral
  split
  · exact toList_positionalText d
  · exact toList_exponentText format.plusSign d

/-- Zeros are put in front only of a single digit before the point. -/
theorem head?_take_paddedDigits_ne (h : d.digits ≠ 0)
    (htake : 1 < (d.paddedDigits.take d.wholeLength).length) :
    (d.paddedDigits.take d.wholeLength).head? ≠ some '0' := by
  have hlength := length_paddedDigits d
  rw [List.length_take, wholeLength] at htake
  have hpad : (-d.exponent).toNat + 1 - (Nat.toDigits 10 d.digits).length = 0 := by omega
  rw [List.head?_take, if_neg (by rw [wholeLength]; omega), paddedDigits, hpad]
  exact head?_toDigits_ne h

theorem positionalNumeral_wellFormed (h : d.digits = 0 → d.exponent = 0) :
    d.positionalNumeral.WellFormed := by
  have hdigits := isDigit_toDigits d.digits
  have hnone : ∀ c ∈ ([] : List Char), c.isDigit = true := fun _ hc => absurd hc List.not_mem_nil
  unfold positionalNumeral
  split
  · refine ⟨?_, by simp, ?_, List.forall_mem_singleton.mpr rfl, Or.inl rfl, hnone⟩
    · intro c hc
      rcases List.mem_append.mp hc with hdigit | hzero
      · exact hdigits c hdigit
      · obtain rfl := (List.mem_replicate.mp hzero).2
        rfl
    · intro hlength
      have hne : d.digits ≠ 0 := by
        intro hzero
        rw [hzero, h hzero] at hlength
        exact absurd hlength (by decide)
      exact head?_toDigits_append d.digits _ ▸ head?_toDigits_ne hne
  · next hexponent =>
    have hpadded := isDigit_paddedDigits d
    have hlength := length_paddedDigits d
    have hne : d.digits ≠ 0 := fun hzero => hexponent (Int.le_of_eq (h hzero).symm)
    refine ⟨fun c hc => hpadded c (List.mem_of_mem_take hc), ?_, head?_take_paddedDigits_ne hne,
      fun c hc => hpadded c (List.mem_of_mem_drop hc), Or.inl rfl, hnone⟩
    rw [Ne, List.take_eq_nil_iff, wholeLength, ← List.length_eq_zero_iff]
    omega

theorem exponentNumeral_wellFormed (plusSign : Bool) (d : Decimal) :
    (d.exponentNumeral plusSign).WellFormed where
  whole := fun c hc => isDigit_toDigits _ c (List.mem_of_mem_take hc)
  whole_ne_nil := by simp [exponentNumeral]
  leading := by
    intro hlength
    rw [exponentNumeral, List.length_take] at hlength
    omega
  fraction := fun c hc => isDigit_toDigits _ c (List.mem_of_mem_drop hc)
  sign := by
    unfold exponentNumeral
    dsimp only
    split
    · exact Or.inr (Or.inl rfl)
    · split
      · exact Or.inr (Or.inr rfl)
      · exact Or.inl rfl
  power := isDigit_toDigits _

theorem numeral_wellFormed (format : Format) (h : d.digits = 0 → d.exponent = 0) :
    (d.numeral format).WellFormed := by
  unfold numeral
  split
  · exact positionalNumeral_wellFormed h
  · exact exponentNumeral_wellFormed format.plusSign d

theorem token_numeral (format : Format) (negative : Bool) (d : Decimal) :
    (d.numeral format).token negative = .float ((d.numeral format).float negative) := by
  refine if_neg ?_
  rintro ⟨hfraction, hpower⟩
  unfold numeral at hfraction hpower
  split at hfraction
  · unfold positionalNumeral at hfraction
    split at hfraction
    · cases hfraction
    · next hexponent => exact drop_wholeLength_ne_nil hexponent hfraction
  · next hformat =>
    rw [if_neg hformat] at hpower
    exact Nat.toDigits_ne_nil hpower

end Decimal

namespace Schema

/-! ## Floating point numbers -/

/-- The shortest decimal of the magnitude of a finite number. -/
def magnitude (significand power : Nat) : Decimal :=
  if significand = 0 then ⟨0, 0⟩ else Decimal.shortest Value.numberFormat.tie significand power

/-- The token that the text of a number is read as. -/
def floatToken : Binary64 → Token
  | .finite negative significand power =>
    .float (((magnitude significand power).numeral Value.numberFormat).float negative)
  | .infinite true => .unreadable "-"
  | .infinite false => .name "inf"
  | .nan => .name "NaN"

theorem exponent_magnitude_of_digits_eq_zero {significand power : Nat}
    (h : (magnitude significand power).digits = 0) : (magnitude significand power).exponent = 0 := by
  unfold magnitude at h ⊢
  split at h
  · next hzero =>
    rw [if_pos hzero]
  · next hzero =>
    rw [if_neg hzero]
    exact Decimal.exponent_shortest_of_digits_eq_zero h

theorem Spells.float {cs : List Char} {ts : List Token} (h : Spells cs ts) (hends : Ends cs)
    (x : Binary64) :
    Spells ((x.text Value.numberFormat).toList ++ cs) (floatToken x :: ts) := by
  cases x with
  | finite negative significand power =>
    have htext : ((Binary64.finite negative significand power).text Value.numberFormat).toList =
        ((magnitude significand power).numeral Value.numberFormat).signedText negative := by
      show (_ ++ (magnitude significand power).text Value.numberFormat).toList = _
      rw [String.toList_append, Decimal.toList_text]
      cases negative <;> rfl
    have hnumeral : ((magnitude significand power).numeral Value.numberFormat).WellFormed :=
      Decimal.numeral_wellFormed _ exponent_magnitude_of_digits_eq_zero
    have hspells := Numeral.spells h hends negative hnumeral
    rw [Decimal.token_numeral] at hspells
    rw [htext]
    exact hspells
  | infinite negative =>
    cases negative with
    | true =>
      have hfirst : Token.first '-' ("inf".toList ++ cs) = (.unreadable "-", []) := rfl
      refine Spells.token (by decide) (by decide) hfirst fun hread => ?_
      cases hread
    | false => exact h.name hends (n := "inf") (by decide)
  | nan => exact h.name hends (n := "NaN") (by decide)

end Schema

end AuditFields
