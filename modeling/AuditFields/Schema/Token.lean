import AuditFields.Number.Binary64
import AuditFields.Text.Block

/-!
# Tokens of schema documents

A document is read as a list of tokens: punctuators, names, numbers and texts. Blanks, commas and
comments between tokens are ignored, and the longest token at a place counts. Where no token can
start, the list ends with an `unreadable` one, so that a reader of the list meets the problem at its
place.
-/

namespace AuditFields.Schema

/-- The punctuation of a document. -/
inductive Punctuator where
  | ampersand
  | at
  | closeBrace
  | closeBracket
  | closeParen
  | colon
  | dollar
  | equals
  | bang
  | openBrace
  | openBracket
  | openParen
  | period
  | doublePeriod
  | pipe
  | spread
  deriving DecidableEq, Repr

/-- A token. Texts are held as what they denote, not as written. -/
inductive Token where
  | punctuator (p : Punctuator)
  | name (text : String)
  | int (value : Int)
  | float (value : Binary64)
  /-- A numeral of no number: a zero too many or too few, or a letter or point right after it. -/
  | badNumber
  | string (text : String)
  /-- A string with an escape that denotes no character, given by its four digits. -/
  | badString (digits : String)
  | block (text : String)
  /-- A place where no token can start, with the text that messages show. -/
  | unreadable (text : String)
  deriving DecidableEq, Repr

namespace Token

/-! ## Ignored characters -/

/-- Whether a character ends a line, and with it a comment. -/
def isLineEnd (c : Char) : Bool :=
  c == '\n' || c == '\r'

def isIgnored (c : Char) : Bool :=
  c == ' ' || c == '\t' || c == '\r' || c == '\n' || c == '\x0c' || c == ',' || c == '\uFEFF'

def afterComment (cs : List Char) : List Char :=
  cs.dropWhile fun c => !isLineEnd c

/-! ## Numbers -/

/-- Whether there is a minus sign at the front, and the text after a sign if there is one. -/
def sign : List Char → Bool × List Char
  | '-' :: cs => (true, cs)
  | '+' :: cs => (false, cs)
  | cs => (false, cs)

/-- The exponent at the front of a text: its value, and the rest. -/
def exponent? : List Char → Option (Int × List Char)
  | c :: cs =>
    if c == 'e' || c == 'E' then
      let digits := (sign cs).2.takeWhile Char.isDigit
      if digits.isEmpty then none
      else
        let value : Int := Nat.ofDigitChars 10 digits 0
        some (if (sign cs).1 then -value else value, (sign cs).2.dropWhile Char.isDigit)
    else none
  | [] => none

/-- The fraction at the front of a text: its digits, and the rest. -/
def fraction? : List Char → Option (List Char × List Char)
  | '.' :: cs =>
    let digits := cs.takeWhile Char.isDigit
    if digits.isEmpty then none else some (digits, cs.dropWhile Char.isDigit)
  | _ => none

def extendsNumber (c : Char) : Bool :=
  c == '.' || Text.isNameStart c

/-- The token of a number, unless the text after it shows that it is none. -/
def numberUnlessExtended (number : Token) : List Char → Token × List Char
  | c :: cs => if extendsNumber c then (.badNumber, cs) else (number, c :: cs)
  | [] => (number, [])

def number (negative : Bool) (cs : List Char) : Token × List Char :=
  let whole := cs.takeWhile Char.isDigit
  let rest := cs.dropWhile Char.isDigit
  if 1 < whole.length && whole.head? == some '0' then (.badNumber, rest)
  else
    match fraction? rest, exponent? ((fraction? rest).elim rest (·.2)) with
    | none, none =>
      let value : Int := Nat.ofDigitChars 10 whole 0
      numberUnlessExtended (.int (if negative then -value else value)) rest
    | fraction, exponent =>
      let digits := fraction.elim [] (·.1)
      let power := exponent.elim 0 (·.1) - (digits.length : Int)
      let value := Binary64.ofDecimal negative (Nat.ofDigitChars 10 (whole ++ digits) 0) power
      let rest := (fraction.elim rest (·.2))
      numberUnlessExtended (.float value) (exponent.elim rest (·.2))

/-! ## Strings -/

/-- What the characters after an opening quote are. -/
inductive StringScan where
  /-- A string: what it denotes, the first escape that denotes no character, and the rest. -/
  | closed (content : List Char) (bad : Option String) (rest : List Char)
  /-- A string broken by a line end, with what is written before it. -/
  | broken (written : List Char)
  /-- No string: it does not end, or has a character or an escape that no string has. -/
  | stuck

/-- The scan with one more character in front, given as written. -/
def StringScan.push (written : List Char) (c : Char) : StringScan → StringScan
  | .closed content bad rest => .closed (c :: content) bad rest
  | .broken later => .broken (written ++ later)
  | .stuck => .stuck

/-- The scan with one more escape in front that denotes no character. -/
def StringScan.pushBad (written digits : List Char) : StringScan → StringScan
  | .closed content _ rest => .closed content (some (String.ofList digits)) rest
  | .broken later => .broken (written ++ later)
  | .stuck => .stuck

def StringScan.rest : StringScan → List Char
  | .closed _ _ rest => rest
  | _ => []

/-- The characters that stand for themselves in a string: the tab, and what is neither a control
character below U+0020 nor beyond U+FFFF, but for the quote and the backslash. -/
def isStringChar (c : Char) : Bool :=
  c == '\t' || (0x20 ≤ c.toNat && c.toNat ≤ 0xFFFF && c != '"' && c != '\\')

/-- The character of a short escape. The escape for U+0010 is a `b`. -/
def shortEscape? : Char → Option Char
  | '"' => some '"'
  | '\\' => some '\\'
  | '/' => some '/'
  | 'b' => some '\x10'
  | 'f' => some '\x0c'
  | 'n' => some '\n'
  | 'r' => some '\r'
  | 't' => some '\t'
  | _ => none

def hexValue? (c : Char) : Option Nat :=
  if c.isDigit then some (c.toNat - '0'.toNat)
  else if 'a' ≤ c && c ≤ 'f' then some (c.toNat - 'a'.toNat + 10)
  else if 'A' ≤ c && c ≤ 'F' then some (c.toNat - 'A'.toNat + 10)
  else none

/-- The number of hexadecimal digits, if all are ones. -/
def hexNumber? (digits : List Char) : Option Nat :=
  digits.foldlM (fun n c => (hexValue? c).map (n * 16 + ·)) 0

def scanString : List Char → StringScan
  | [] => .stuck
  | '"' :: cs => .closed [] none cs
  | '\\' :: 'u' :: a :: b :: c :: d :: cs =>
    match hexNumber? [a, b, c, d] with
    | none => .stuck
    | some n =>
      if 0xD800 ≤ n && n ≤ 0xDFFF then
        (scanString cs).pushBad ['\\', 'u', a, b, c, d] [a, b, c, d]
      else (scanString cs).push ['\\', 'u', a, b, c, d] (Char.ofNat n)
  | '\\' :: c :: cs =>
    match shortEscape? c with
    | none => .stuck
    | some meant => (scanString cs).push ['\\', c] meant
  | c :: cs =>
    if isLineEnd c then .broken []
    else if isStringChar c then (scanString cs).push [c] c
    else .stuck

/-- What is written between the triple quotes of a block, after the first, and the rest. -/
def scanBlock : List Char → Option (List Char × List Char)
  | '\\' :: '"' :: '"' :: '"' :: cs =>
    (scanBlock cs).map fun scan => ('\\' :: '"' :: '"' :: '"' :: scan.1, scan.2)
  | '"' :: '"' :: '"' :: cs => some ([], cs)
  | c :: cs => (scanBlock cs).map fun scan => (c :: scan.1, scan.2)
  | [] => none

/-- The text at the front, after its first quote. -/
def text (cs : List Char) : Token × List Char :=
  match cs with
  | '"' :: '"' :: cs =>
    match scanBlock cs with
    | some (body, rest) => (.block (String.ofList (Text.Block.content body)), rest)
    | none => (.unreadable "\"\"\"", [])
  | _ =>
    match scanString cs with
    | .closed content none rest => (.string (String.ofList content), rest)
    | .closed _ (some digits) rest => (.badString digits, rest)
    | .broken written => (.unreadable (String.ofList ('"' :: written)), [])
    | .stuck => (.unreadable "\"", [])

/-! ## Tokens -/

def punctuator? : Char → Option Punctuator
  | '&' => some .ampersand
  | '@' => some .at
  | '}' => some .closeBrace
  | ']' => some .closeBracket
  | ')' => some .closeParen
  | ':' => some .colon
  | '$' => some .dollar
  | '=' => some .equals
  | '!' => some .bang
  | '{' => some .openBrace
  | '[' => some .openBracket
  | '(' => some .openParen
  | '|' => some .pipe
  | _ => none

/-- The token after a period: more periods, or a numeral without a zero in front. -/
def afterPeriod : List Char → Token × List Char
  | '.' :: '.' :: cs => (.punctuator .spread, cs)
  | '.' :: cs => (.punctuator .doublePeriod, cs)
  | c :: cs => if c.isDigit then (.badNumber, cs) else (.punctuator .period, c :: cs)
  | [] => (.punctuator .period, [])

def afterMinus (cs : List Char) : Token × List Char :=
  match cs with
  | '.' :: c :: rest => if c.isDigit then (.badNumber, rest) else (.unreadable "-", [])
  | c :: _ => if c.isDigit then number true cs else (.unreadable "-", [])
  | [] => (.unreadable "-", [])

/-- The token that starts with a character that is not ignored, and the rest of the text. -/
def first (c : Char) (cs : List Char) : Token × List Char :=
  match punctuator? c with
  | some p => (.punctuator p, cs)
  | none =>
    if Text.isNameStart c then
      (.name (String.ofList (c :: cs.takeWhile Text.isNameChar)), cs.dropWhile Text.isNameChar)
    else if c.isDigit then number false (c :: cs)
    else if c = '-' then afterMinus cs
    else if c = '.' then afterPeriod cs
    else if c = '"' then text cs
    else (.unreadable (String.ofList [c]), [])

/-! ## Every token takes a character -/

theorem length_dropWhile_le (p : Char → Bool) (cs : List Char) :
    (cs.dropWhile p).length ≤ cs.length :=
  (List.dropWhile_sublist p).length_le

theorem length_sign (cs : List Char) : (sign cs).2.length ≤ cs.length := by
  unfold sign
  split <;> simp

theorem length_exponent? {cs : List Char} {e : Int × List Char} (h : exponent? cs = some e) :
    e.2.length ≤ cs.length := by
  unfold exponent? at h
  split at h
  · split at h
    · dsimp only at h
      split at h
      · simp at h
      · rw [Option.some.injEq] at h
        subst h
        refine Nat.le_trans (length_dropWhile_le _ _) (Nat.le_trans (length_sign _) ?_)
        simp
    · simp at h
  · simp at h

theorem length_fraction? {cs : List Char} {f : List Char × List Char}
    (h : fraction? cs = some f) : f.2.length ≤ cs.length := by
  unfold fraction? at h
  split at h
  · rename_i cs
    dsimp only at h
    split at h
    · simp at h
    · simp only [Option.some.injEq] at h
      subst h
      have := length_dropWhile_le Char.isDigit cs
      simp only [List.length_cons]
      omega
  · simp at h

theorem length_elim_le {α : Type} {o : Option (α × List Char)} {cs : List Char}
    (h : ∀ x, o = some x → x.2.length ≤ cs.length) : (o.elim cs (·.2)).length ≤ cs.length := by
  cases o with
  | none => exact Nat.le_refl _
  | some x => exact h x rfl

theorem length_numberUnlessExtended (t : Token) (cs : List Char) :
    (numberUnlessExtended t cs).2.length ≤ cs.length := by
  unfold numberUnlessExtended
  split
  · split <;> simp
  · simp

theorem length_number (negative : Bool) (c : Char) (cs : List Char) (h : c.isDigit = true) :
    (number negative (c :: cs)).2.length ≤ cs.length := by
  have hrest : ((c :: cs).dropWhile Char.isDigit).length ≤ cs.length := by
    rw [List.dropWhile_cons_of_pos h]
    exact length_dropWhile_le _ _
  have hfraction := @length_elim_le _ (fraction? ((c :: cs).dropWhile Char.isDigit))
    ((c :: cs).dropWhile Char.isDigit) fun _ => length_fraction?
  simp only [number]
  split
  · exact hrest
  · split
    · exact Nat.le_trans (length_numberUnlessExtended _ _) hrest
    · refine Nat.le_trans (length_numberUnlessExtended _ _) ?_
      exact Nat.le_trans (length_elim_le fun _ => length_exponent?)
        (Nat.le_trans hfraction hrest)

theorem length_scanString (cs : List Char) : (scanString cs).rest.length ≤ cs.length := by
  fun_induction scanString cs with
  | case1 => simp [StringScan.rest]
  | case2 cs => simp [StringScan.rest]
  | case3 => simp [StringScan.rest]
  | case4 a b c d cs n _ _ ih =>
    cases h : scanString cs <;> simp_all [StringScan.pushBad, StringScan.rest]
    omega
  | case5 a b c d cs n _ _ ih =>
    cases h : scanString cs <;> simp_all [StringScan.push, StringScan.rest]
    omega
  | case6 => simp [StringScan.rest]
  | case7 c cs _ meant _ ih =>
    cases h : scanString cs <;> simp_all [StringScan.push, StringScan.rest]
    omega
  | case8 => simp [StringScan.rest]
  | case9 c cs _ _ _ _ _ ih =>
    cases h : scanString cs <;> simp_all [StringScan.push, StringScan.rest]
    omega
  | case10 => simp [StringScan.rest]

theorem length_scanBlock {cs : List Char} {scan : List Char × List Char}
    (h : scanBlock cs = some scan) : scan.2.length ≤ cs.length := by
  fun_induction scanBlock cs generalizing scan with
  | case1 cs ih =>
    obtain ⟨inner, hinner, rfl⟩ := Option.map_eq_some_iff.1 h
    have := ih hinner
    simp only [List.length_cons]
    omega
  | case2 cs =>
    simp only [Option.some.injEq] at h
    subst h
    simp only [List.length_cons]
    omega
  | case3 c cs _ _ ih =>
    obtain ⟨inner, hinner, rfl⟩ := Option.map_eq_some_iff.1 h
    have := ih hinner
    simp only [List.length_cons]
    omega
  | case4 => simp at h

theorem length_text (cs : List Char) : (text cs).2.length ≤ cs.length := by
  unfold text
  split
  · split
    · rename_i h
      have := length_scanBlock h
      simp only [List.length_cons] at *
      omega
    · simp
  · have := length_scanString cs
    split <;> simp_all [StringScan.rest]

theorem length_first (c : Char) (cs : List Char) : (first c cs).2.length ≤ cs.length := by
  unfold first
  split
  · exact Nat.le_refl _
  · split
    · exact length_dropWhile_le _ _
    · split
      · exact length_number _ _ _ (by assumption)
      · split
        · unfold afterMinus
          split
          · split
            · simp only [List.length_cons]
              omega
            · simp
          · split
            · refine Nat.le_trans (length_number _ _ _ (by assumption)) ?_
              simp
            · simp
          · simp
        · split
          · unfold afterPeriod
            split
            · simp only [List.length_cons]
              omega
            · simp
            · split <;> simp
            · simp
          · split
            · exact length_text cs
            · simp

/-! ## Token lists -/

/-- The tokens of a text, up to the first place where none can start. -/
def list (cs : List Char) : List Token :=
  match cs with
  | [] => []
  | c :: cs =>
    if isIgnored c then list cs
    else if c = '#' then list (afterComment cs)
    else
      match (first c cs).1 with
      | .unreadable shown => [.unreadable shown]
      | token => token :: list (first c cs).2
termination_by cs.length
decreasing_by
  · simp
  · exact Nat.lt_succ_of_le (length_dropWhile_le _ _)
  · exact Nat.lt_succ_of_le (length_first _ _)

end Token

end AuditFields.Schema
