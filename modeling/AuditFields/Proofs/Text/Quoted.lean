import AuditFields.Proofs.Text.Characters
import AuditFields.Schema.Token
import AuditFields.Text.Quoted

/-!
# Quoted literals read back

A literal goes from its opening quote up to the first quote that is no part of an escape: a backslash takes
the character after it along, and behind a `u` the four digits after that, never more. The reader here knows
only the escapes that a literal is written with, and takes no control character as it is.

A character is written as a short escape, by its number, or as it is (`escape_cases`), and each time the
reader takes off exactly what was written for it (`decodeBody?_escape`). So a literal says where it ends and
what it holds, whatever the text looks like and whatever follows.
-/

namespace AuditFields

/-! ## Hexadecimal digits -/

namespace Schema.Token

theorem hexValue?_hexDigit {d : Nat} (h : d < 16) : hexValue? (Text.Quoted.hexDigit d) = some d := by
  have hall : ∀ d < 16, hexValue? (Text.Quoted.hexDigit d) = some d := by decide
  exact hall d h

theorem hexNumber?_hexDigits {n : Nat} (h : n < 0x10000) :
    hexNumber? (Text.Quoted.hexDigits n) = some n := by
  have hdigit : ∀ m, hexValue? (Text.Quoted.hexDigit (m % 16)) = some (m % 16) :=
    fun m => hexValue?_hexDigit (Nat.mod_lt m (by decide))
  simp only [hexNumber?, Text.Quoted.hexDigits, List.foldlM_cons, List.foldlM_nil, hdigit,
    Option.map_some, Option.bind_eq_bind, Option.bind_some, Option.pure_def, Option.some.injEq]
  omega

end Schema.Token

namespace Text.Quoted

/-! ## The reader -/

/-- The character of a short escape. -/
def shortEscape? : Char → Option Char
  | '"' => some '"'
  | '\\' => some '\\'
  | 'n' => some '\n'
  | 'r' => some '\r'
  | 't' => some '\t'
  | _ => none

/-- The character with the number that the digits show, if a character has it. -/
def numbered? (digits : List Char) : Option Char :=
  (Schema.Token.hexNumber? digits).bind fun n => if n.isValidChar then some (Char.ofNat n) else none

/-- What is read, with one more character in front. -/
def push (c : Char) (found : Option (List Char × List Char)) : Option (List Char × List Char) :=
  found.map fun found => (c :: found.1, found.2)

/-- The text up to the closing quote, and what follows the quote. -/
def decodeBody? : List Char → Option (List Char × List Char)
  | [] => none
  | '"' :: rest => some ([], rest)
  | '\\' :: 'u' :: a :: b :: c :: d :: cs =>
    (numbered? [a, b, c, d]).bind fun meant => push meant (decodeBody? cs)
  | '\\' :: letter :: cs => (shortEscape? letter).bind fun meant => push meant (decodeBody? cs)
  -- A backslash that ends the text comes here too, and no quote follows it.
  | c :: cs => if isControl c then none else push c (decodeBody? cs)

/-- The text of the literal at the front, and what follows the literal. -/
def decode? : List Char → Option (List Char × List Char)
  | '"' :: cs => decodeBody? cs
  | _ => none

theorem isControl_of_shortEscape? {letter c : Char} (h : shortEscape? letter = some c) :
    isControl letter = false := by
  unfold shortEscape? at h
  split at h
  all_goals first
    | rfl
    | cases h

theorem ne_of_shortEscape? {letter c : Char} (h : shortEscape? letter = some c) : letter ≠ 'u' := by
  rintro rfl
  cases h

theorem numbered?_hexDigits {c : Char} (h : c.toNat < 0x10000) : numbered? (hexDigits c.toNat) = some c := by
  have hvalid : c.toNat.isValidChar := c.valid
  rw [numbered?, Schema.Token.hexNumber?_hexDigits h, Option.bind_some, if_pos hvalid, Char.ofNat_toNat]

theorem decodeBody?_short {letter c : Char} (h : shortEscape? letter = some c) (cs : List Char) :
    decodeBody? ('\\' :: letter :: cs) = push c (decodeBody? cs) := by
  rw [decodeBody?.eq_4 letter cs fun _ _ _ _ _ hu _ => ne_of_shortEscape? h hu, h, Option.bind_some]

theorem decodeBody?_plain {c : Char} (hquote : c ≠ '"') (hbackslash : c ≠ '\\')
    (hcontrol : isControl c = false) (cs : List Char) :
    decodeBody? (c :: cs) = push c (decodeBody? cs) := by
  rw [decodeBody?.eq_5 c cs hquote (fun _ _ _ _ _ h _ => hbackslash h) (fun _ _ h _ => hbackslash h),
    hcontrol, if_neg Bool.false_ne_true]

theorem decodeBody?_numbered {c : Char} (h : c.toNat < 0x10000) (cs : List Char) :
    decodeBody? ('\\' :: 'u' :: (hexDigits c.toNat ++ cs)) = push c (decodeBody? cs) := by
  have hmeant := numbered?_hexDigits h
  rw [hexDigits] at hmeant ⊢
  show decodeBody? ('\\' :: 'u' :: _ :: _ :: _ :: _ :: cs) = _
  rw [decodeBody?, hmeant, Option.bind_some]

/-! ## How a character is written -/

theorem escape_cases (c : Char) :
    (∃ letter, escape c = ['\\', letter] ∧ shortEscape? letter = some c) ∨
    (isControl c = true ∧ escape c = '\\' :: 'u' :: hexDigits c.toNat) ∨
    (c ≠ '"' ∧ c ≠ '\\' ∧ isControl c = false ∧ escape c = [c]) := by
  by_cases hquote : c = '"'
  · subst hquote
    exact .inl ⟨'"', rfl, rfl⟩
  by_cases hbackslash : c = '\\'
  · subst hbackslash
    exact .inl ⟨'\\', rfl, rfl⟩
  by_cases hfeed : c = '\n'
  · subst hfeed
    exact .inl ⟨'n', rfl, rfl⟩
  by_cases hreturn : c = '\r'
  · subst hreturn
    exact .inl ⟨'r', rfl, rfl⟩
  by_cases htab : c = '\t'
  · subst htab
    exact .inl ⟨'t', rfl, rfl⟩
  unfold escape
  rw [if_neg hquote, if_neg hbackslash, if_neg hfeed, if_neg hreturn, if_neg htab]
  cases hcontrol : isControl c with
  | true => exact .inr (.inl ⟨rfl, rfl⟩)
  | false => exact .inr (.inr ⟨hquote, hbackslash, rfl, rfl⟩)

theorem escape_ne_quote (c : Char) (after rest : List Char) : escape c ++ after ≠ '"' :: rest := by
  rcases escape_cases c with ⟨_, hescape, _⟩ | ⟨_, hescape⟩ | ⟨hquote, _, _, hescape⟩
  · simp [hescape]
  · simp [hescape]
  · simp [hescape, hquote]

theorem decodeBody?_escape (c : Char) (cs : List Char) :
    decodeBody? (escape c ++ cs) = push c (decodeBody? cs) := by
  rcases escape_cases c with ⟨letter, hescape, hmeant⟩ | ⟨hcontrol, hescape⟩ |
      ⟨hquote, hbackslash, hcontrol, hescape⟩
  · rw [hescape]
    exact decodeBody?_short hmeant cs
  · have hlow := toNat_of_isControl hcontrol
    rw [hescape]
    exact decodeBody?_numbered (by omega) cs
  · rw [hescape]
    exact decodeBody?_plain hquote hbackslash hcontrol cs

theorem mem_hexDigits {n : Nat} {digit : Char} (h : digit ∈ hexDigits n) :
    ∃ d < 16, digit = hexDigit d := by
  simp only [hexDigits, List.mem_cons, List.not_mem_nil, or_false] at h
  rcases h with rfl | rfl | rfl | rfl
  all_goals exact ⟨_, Nat.mod_lt _ (by decide), rfl⟩

theorem isControl_hexDigit {d : Nat} (h : d < 16) : isControl (hexDigit d) = false := by
  have hall : ∀ d < 16, isControl (hexDigit d) = false := by decide
  exact hall d h

theorem isControl_of_mem_escape {c written : Char} (h : written ∈ escape c) : isControl written = false := by
  rcases escape_cases c with ⟨letter, hescape, hmeant⟩ | ⟨_, hescape⟩ | ⟨_, _, hcontrol, hescape⟩
  · rw [hescape, List.mem_cons, List.mem_singleton] at h
    rcases h with rfl | rfl
    · rfl
    · exact isControl_of_shortEscape? hmeant
  · rw [hescape, List.mem_cons, List.mem_cons] at h
    rcases h with rfl | rfl | hdigit
    · rfl
    · rfl
    · obtain ⟨d, hd, rfl⟩ := mem_hexDigits hdigit
      exact isControl_hexDigit hd
  · rw [hescape, List.mem_singleton] at h
    rw [h, hcontrol]

/-! ## Literals -/

/-- No character of the text closes its literal, and nothing after the closing quote is looked at. -/
theorem decodeBody?_flatMap (text after : List Char) :
    decodeBody? (text.flatMap escape ++ '"' :: after) = some (text, after) := by
  induction text with
  | nil => rw [List.flatMap_nil, List.nil_append, decodeBody?]
  | cons c text ih =>
    rw [List.flatMap_cons, List.append_assoc, decodeBody?_escape, ih]
    rfl

theorem decode?_encode_append (text after : List Char) :
    decode? (encode text ++ after) = some (text, after) := by
  rw [encode, List.cons_append, List.append_assoc, List.singleton_append, decode?]
  exact decodeBody?_flatMap text after

theorem isControl_of_mem_encode {text : List Char} {c : Char} (h : c ∈ encode text) :
    isControl c = false := by
  rw [encode, List.mem_cons, List.mem_append, List.mem_flatMap, List.mem_singleton] at h
  rcases h with rfl | ⟨_, _, hmem⟩ | rfl
  · rfl
  · exact isControl_of_mem_escape hmem
  · rfl

end Text.Quoted

/-- A quoted literal is read as its text and ends where it was closed, whatever follows it, and it has no
control character in it. -/
theorem Text.decode?_quoted_append (text after : String) :
    Quoted.decode? (quoted text ++ after).toList = some (text.toList, after.toList) ∧
      ∀ c ∈ (quoted text).toList, isControl c = false := by
  rw [String.toList_append, toList_quoted]
  constructor
  · exact Quoted.decode?_encode_append text.toList after.toList
  · intro c hmem
    exact Quoted.isControl_of_mem_encode hmem

/-- The fifth digit is text, and a quote behind two backslashes closes. -/
example : Text.Quoted.decode? "\"\\u00012\\\\\"\"".toList = some (['\x01', '2', '\\'], ['"']) := by
  decide

end AuditFields
