import AuditFields.Proofs.Schema.Printing.Lexing
import AuditFields.Proofs.Text.Block
import AuditFields.Proofs.Text.Quoted

/-!
# Texts in documents

A quoted literal is read as the text that it was written for, unless the text has a character beyond
U+FFFF: such a one is written as it is, and no literal may hold it. A block is always read as a block,
since a triple quote can stand in it only behind a backslash; what the block says is another matter.
-/

namespace AuditFields.Schema

/-! ## Quoted literals -/

/-- Whether a literal may hold the character. -/
def isQuotable (c : Char) : Bool :=
  c.toNat ≤ 0xFFFF

/-- The token that a quoted literal is read as. -/
def quotedToken (text : String) : Token :=
  if text.toList.all isQuotable then .string text else .unreadable "\""

theorem quotedToken_of_quotable {text : String} (h : text.toList.all isQuotable = true) :
    quotedToken text = .string text :=
  if_pos h

theorem quotedToken_of_readable {text : String} (h : (quotedToken text).isReadable = true) :
    quotedToken text = .string text := by
  unfold quotedToken at h ⊢
  split at h
  · next hall => rw [if_pos hall]
  · cases h

namespace Token

theorem scanString_plain {c : Char} (hquote : c ≠ '"') (hbackslash : c ≠ '\\') (rest : List Char) :
    scanString (c :: rest) = if isLineEnd c then .broken []
      else if isStringChar c then (scanString rest).push [c] c else .stuck := by
  rw [scanString.eq_def]
  split
  · next heq => cases heq
  · next heq => exact absurd (List.cons.inj heq).1 hquote
  · next heq => exact absurd (List.cons.inj heq).1 hbackslash
  · next heq => exact absurd (List.cons.inj heq).1 hbackslash
  · next heq =>
    obtain ⟨rfl, rfl⟩ := List.cons.inj heq
    rfl

theorem scanString_short {c meant : Char} (hu : c ≠ 'u') (h : shortEscape? c = some meant)
    (rest : List Char) :
    scanString ('\\' :: c :: rest) = (scanString rest).push ['\\', c] meant := by
  rw [scanString.eq_def]
  split
  · next heq => cases heq
  · next heq => exact absurd (List.cons.inj heq).1 (by decide)
  · next heq => exact absurd (List.cons.inj (List.cons.inj heq).2).1 hu
  · next heq =>
    obtain ⟨rfl, rfl⟩ := List.cons.inj (List.cons.inj heq).2
    rw [h]
  · next hother heq =>
    obtain ⟨rfl, rfl⟩ := List.cons.inj heq
    exact absurd rfl (hother c rest rfl)

theorem shortEscape?_of_written {letter c : Char} (h : Text.Quoted.shortEscape? letter = some c) :
    shortEscape? letter = some c := by
  unfold Text.Quoted.shortEscape? at h
  split at h
  all_goals first
    | exact h
    | cases h

theorem scanString_escape (c : Char) (rest : List Char) :
    scanString (Text.Quoted.escape c ++ rest) =
      if isQuotable c then (scanString rest).push (Text.Quoted.escape c) c else .stuck := by
  have hquotable : c.toNat ≤ 0xFFFF ↔ isQuotable c = true := by simp [isQuotable]
  rcases Text.Quoted.escape_cases c with ⟨short, hescape, hwritten⟩ | ⟨hcontrol, hescape⟩ |
      ⟨hquote, hbackslash, hcontrol, hescape⟩
  · have hmeant := shortEscape?_of_written hwritten
    have hc : isQuotable c = true := by
      unfold shortEscape? at hmeant
      split at hmeant
      all_goals first
        | (obtain rfl := Option.some.inj hmeant; rfl)
        | cases hmeant
    rw [if_pos hc, hescape]
    exact scanString_short (Text.Quoted.ne_of_shortEscape? hwritten) hmeant rest
  · have hnumber := Text.toNat_of_isControl hcontrol
    have hhex := hexNumber?_hexDigits (n := c.toNat) (by omega)
    rw [if_pos (hquotable.mp (by omega)), hescape]
    unfold Text.Quoted.hexDigits at hhex ⊢
    simp only [List.cons_append, List.nil_append]
    rw [scanString, hhex]
    dsimp only
    rw [if_neg (by simp; omega), Char.ofNat_toNat]
  · have hlow := Text.toNat_of_not_isControl hcontrol
    have hne : ∀ other : Char, other.toNat < 0x20 → c ≠ other := by
      rintro other hother rfl
      omega
    have hend : isLineEnd c = false := by simp [isLineEnd, hne]
    have hchar : isStringChar c = isQuotable c := by
      have htab : (c == '\t') = false := beq_eq_false_iff_ne.mpr (hne '\t' (by decide))
      have hneither : (c != '"') = true ∧ (c != '\\') = true := ⟨by simpa using hquote, by simpa using hbackslash⟩
      simp [isStringChar, isQuotable, htab, hneither, hlow]
    rw [hescape, List.singleton_append, scanString_plain hquote hbackslash, hend, hchar]
    rfl

theorem scanString_flatMap (text rest : List Char) :
    scanString (text.flatMap Text.Quoted.escape ++ '"' :: rest) =
      if text.all isQuotable then .closed text none rest else .stuck := by
  induction text with
  | nil => rw [List.flatMap_nil, List.nil_append, scanString]; rfl
  | cons c text ih =>
    rw [List.flatMap_cons, List.append_assoc, scanString_escape, ih, List.all_cons]
    cases isQuotable c with
    | false => rfl
    | true =>
      rw [Bool.true_and, if_pos rfl]
      split
      · rfl
      · rfl

theorem text_of_flatMap (text : List Char) {rest : List Char} (hends : Ends rest) :
    Token.text (text.flatMap Text.Quoted.escape ++ '"' :: rest) =
      if text.all isQuotable then (.string (String.ofList text), rest) else (.unreadable "\"", []) := by
  have hscan := scanString_flatMap text rest
  unfold Token.text
  split
  · next cs heq =>
    -- Two quotes in a row close an empty literal, and no third one follows.
    cases text with
    | nil =>
      obtain ⟨_, hrest⟩ := List.cons.inj heq
      rw [hrest] at hends
      exact absurd (hends '"' rfl) (by decide)
    | cons c text =>
      rw [List.flatMap_cons, List.append_assoc] at heq
      exact absurd heq (Text.Quoted.escape_ne_quote c _ _)
  · rw [hscan]
    cases text.all isQuotable with
    | true => rfl
    | false => rfl

/-! ## Blocks -/

theorem scanBlock_cons {c : Char} {cs : List Char}
    (hescaped : ∀ tail, c = '\\' → cs ≠ '"' :: '"' :: '"' :: tail)
    (hclosed : ∀ tail, c = '"' → cs ≠ '"' :: '"' :: tail) :
    scanBlock (c :: cs) = (scanBlock cs).map fun scan => (c :: scan.1, scan.2) :=
  scanBlock.eq_3 _ _ (fun tail hc hcs => hescaped tail hc hcs) fun tail hc hcs => hclosed tail hc hcs

theorem scanBlock_blank {c : Char} (hc : c = ' ' ∨ c = '\n') (cs : List Char) :
    scanBlock (c :: cs) = (scanBlock cs).map fun scan => (c :: scan.1, scan.2) := by
  rcases hc with rfl | rfl
  · exact scanBlock_cons (fun _ h => absurd h (by decide)) fun _ h => absurd h (by decide)
  · exact scanBlock_cons (fun _ h => absurd h (by decide)) fun _ h => absurd h (by decide)

/-- A block is not closed within a written line. -/
theorem scanBlock_escape (line : List Char) {rest : List Char} (hrest : rest.head? ≠ some '"')
    {body after : List Char} (h : scanBlock rest = some (body, after)) :
    scanBlock (Text.Block.escape line ++ rest) = some (Text.Block.escape line ++ body, after) := by
  induction line using Text.Block.escape_induction with
  | nil => exact h
  | quotes cs ih =>
    rw [Text.Block.escape_quotes]
    show scanBlock ('\\' :: '"' :: '"' :: '"' :: (Text.Block.escape cs ++ rest)) = _
    rw [scanBlock, ih]
    rfl
  | char c cs hquotes ih =>
    rw [Text.Block.escape_cons hquotes, List.cons_append,
      scanBlock_cons (fun _ _ => Text.Block.escape_ne_quotes hrest) ?_, ih]
    · rfl
    -- Two quotes after this character would make three of them.
    · rintro tail rfl htail
      obtain ⟨cs, rfl, -, htail⟩ := Text.Block.eq_quote_cons_of_escape hrest htail
      obtain ⟨cs, rfl, -, -⟩ := Text.Block.eq_quote_cons_of_escape hrest htail
      exact hquotes cs rfl

theorem scanBlock_blanks {blanks : List Char} (hblanks : ∀ c ∈ blanks, c = ' ' ∨ c = '\n')
    {rest body after : List Char} (h : scanBlock rest = some (body, after)) :
    scanBlock (blanks ++ rest) = some (blanks ++ body, after) := by
  induction blanks with
  | nil => exact h
  | cons c blanks ih =>
    obtain ⟨hc, hrest⟩ := List.forall_mem_cons.mp hblanks
    rw [List.cons_append, scanBlock_blank hc, ih hrest]
    rfl

theorem scanBlock_lines {indent : String} (hindent : ∀ c ∈ indent.toList, c = ' ')
    (ls : List (List Char)) {rest body after : List Char} (h : scanBlock rest = some (body, after)) :
    scanBlock ((ls.map (Text.Block.lineChars indent)).flatMap (· ++ ['\n']) ++ rest) =
      some ((ls.map (Text.Block.lineChars indent)).flatMap (· ++ ['\n']) ++ body, after) := by
  induction ls with
  | nil => exact h
  | cons line ls ih =>
    have hfeed := scanBlock_blanks (List.forall_mem_singleton.mpr (Or.inr rfl)) ih
    rw [List.map_cons, List.flatMap_cons, List.append_assoc, List.append_assoc, List.append_assoc,
      List.append_assoc]
    unfold Text.Block.lineChars at hfeed ⊢
    split
    · exact hfeed
    · rw [List.append_assoc, List.append_assoc]
      exact scanBlock_blanks (fun c hc => Or.inl (hindent c hc)) (scanBlock_escape line (by simp) hfeed)

theorem scanBlock_body {indent : String} (hindent : ∀ c ∈ indent.toList, c = ' ') (text : String)
    (rest : List Char) :
    scanBlock (Text.Block.body indent text ++ '"' :: '"' :: '"' :: rest) =
      some (Text.Block.body indent text, rest) := by
  have hclose : scanBlock (indent.toList ++ '"' :: '"' :: '"' :: rest) = some (indent.toList ++ [], rest) :=
    scanBlock_blanks (fun c hc => Or.inl (hindent c hc)) (by rw [scanBlock])
  rw [List.append_nil] at hclose
  have hlines := scanBlock_blanks (List.forall_mem_singleton.mpr (Or.inr rfl))
    (scanBlock_lines hindent (Text.lines text.toList) hclose)
  unfold Text.Block.body
  simpa only [List.flatMap_cons, List.nil_append, List.append_assoc, List.cons_append] using hlines

end Token

/-- The token that the block of a text is read as. -/
def blockToken (indent text : String) : Token :=
  .block (String.ofList (Text.Block.content (Text.Block.body indent text)))

theorem first_quote (rest : List Char) : Token.first '"' rest = Token.text rest := by
  unfold Token.first
  rfl

theorem text_of_body {indent : String} (hindent : ∀ c ∈ indent.toList, c = ' ') (text : String)
    (rest : List Char) :
    Token.text ('"' :: '"' :: (Text.Block.body indent text ++ '"' :: '"' :: '"' :: rest)) =
      (blockToken indent text, rest) := by
  rw [Token.text, Token.scanBlock_body hindent]
  rfl

namespace Spells

variable {cs : List Char} {ts : List Token}

theorem quoted (h : Spells cs ts) (hends : Ends cs) (text : String) :
    Spells ((Text.quoted text).toList ++ cs) (quotedToken text :: ts) := by
  have htext := Token.text_of_flatMap text.toList hends
  rw [String.ofList_toList, ← first_quote] at htext
  rw [Text.toList_quoted, Text.Quoted.encode, List.cons_append, List.append_assoc,
    List.singleton_append]
  unfold quotedToken
  cases hall : text.toList.all isQuotable with
  | true =>
    rw [hall] at htext
    exact token (by decide) (by decide) htext fun _ => h
  | false =>
    rw [hall] at htext
    refine token (by decide) (by decide) htext fun hread => ?_
    cases hread

theorem block (h : Spells cs ts) {indent : String} (hindent : ∀ c ∈ indent.toList, c = ' ')
    (text : String) :
    Spells ('"' :: '"' :: '"' :: (Text.Block.body indent text ++ '"' :: '"' :: '"' :: cs))
      (blockToken indent text :: ts) :=
  token (by decide) (by decide) ((first_quote _).trans (text_of_body hindent text cs)) fun _ => h

end Spells

end AuditFields.Schema
