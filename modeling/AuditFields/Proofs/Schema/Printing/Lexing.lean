import AuditFields.Proofs.Text.Characters
import AuditFields.Proofs.Text.Pieces
import AuditFields.Schema.Printer
import AuditFields.Schema.Token

/-!
# Texts and the tokens they are read as

`Spells text tokens` says that a text is read as a list of tokens. A text is taken apart from the front:
if what comes after the first piece spells some tokens, then the whole spells them with the token of the
piece in front, and with nothing in front if the piece is a blank. A name or a numeral goes on as long as
characters do that belong to one, so the text after it has to start with another one (`Ends`).

Nothing is read after an unreadable token, so a text with one spells all lists that agree up to it. A
printer can hence say which tokens its text is made of, readable or not.
-/

namespace AuditFields.Schema

namespace Token

def isReadable : Token → Bool
  | .unreadable _ => false
  | _ => true

/-- The tokens up to the first unreadable one. -/
def untilUnreadable : List Token → List Token
  | [] => []
  | token :: rest => token :: if token.isReadable then untilUnreadable rest else []

theorem untilUnreadable_of_readable {tokens : List Token}
    (h : ∀ token ∈ tokens, token.isReadable = true) : untilUnreadable tokens = tokens := by
  induction tokens with
  | nil => rfl
  | cons token rest ih =>
    obtain ⟨hfirst, hrest⟩ := List.forall_mem_cons.mp h
    rw [untilUnreadable, if_pos hfirst, ih hrest]

theorem readable_of_untilUnreadable {tokens : List Token}
    (h : ∀ token ∈ untilUnreadable tokens, token.isReadable = true) :
    ∀ token ∈ tokens, token.isReadable = true := by
  induction tokens with
  | nil => exact fun token hmem => absurd hmem List.not_mem_nil
  | cons first rest ih =>
    rw [untilUnreadable] at h
    obtain ⟨hfirst, hrest⟩ := List.forall_mem_cons.mp h
    rw [if_pos hfirst] at hrest
    exact List.forall_mem_cons.mpr ⟨hfirst, ih hrest⟩

/-! ## The first character of a token -/

theorem isIgnored_eq_false_of_isNameChar {c : Char} (h : Text.isNameChar c = true) :
    isIgnored c = false := by
  refine Bool.eq_false_iff.mpr fun hignored => ?_
  simp only [isIgnored, Bool.or_eq_true, beq_iff_eq] at hignored
  rcases hignored with (((((rfl | rfl) | rfl) | rfl) | rfl) | rfl) | rfl <;> exact absurd h (by decide)

theorem punctuator?_of_isNameChar {c : Char} (h : Text.isNameChar c = true) :
    punctuator? c = none := by
  unfold punctuator?
  split
  all_goals first
    | rfl
    | exact absurd h (by decide)

theorem first_of_isDigit {c : Char} (h : c.isDigit = true) (cs : List Char) :
    first c cs = number false (c :: cs) := by
  unfold first
  rw [punctuator?_of_isNameChar (Text.isNameChar_of_isDigit h)]
  dsimp only
  rw [Text.isNameStart_eq_false_of_isDigit h, if_neg Bool.false_ne_true, if_pos h]

theorem afterMinus_of_isDigit {c : Char} (h : c.isDigit = true) (cs : List Char) :
    afterMinus (c :: cs) = number true (c :: cs) := by
  unfold afterMinus
  split
  · next heq =>
    obtain ⟨rfl, _⟩ := List.cons.inj heq
    exact absurd h (by decide)
  · next heq =>
    obtain ⟨rfl, _⟩ := List.cons.inj heq
    exact if_pos h
  · next heq => cases heq

theorem isIgnored_eq_false_of_punctuator? {c : Char} {p : Punctuator} (h : punctuator? c = some p) :
    isIgnored c = false ∧ c ≠ '#' := by
  unfold punctuator? at h
  split at h
  all_goals first
    | exact ⟨by decide, by decide⟩
    | cases h

end Token

/-- The text is read as the tokens, up to an unreadable one. -/
def Spells (text : List Char) (tokens : List Token) : Prop :=
  Token.list text = Token.untilUnreadable tokens

/-- Whether a name, a numeral or a text may go on with the character. -/
def continues (c : Char) : Bool :=
  Text.isNameChar c || c == '.' || c == '"'

/-- The text after a name, a numeral or a text that ends there. -/
def Ends (text : List Char) : Prop :=
  ∀ c ∈ text.head?, continues c = false

theorem ends_nil : Ends [] :=
  fun _ h => nomatch h

theorem ends_cons {c : Char} {cs : List Char} (h : continues c = false) : Ends (c :: cs) := by
  intro other hother
  obtain rfl := Option.some.inj hother
  exact h

theorem Ends.head_eq_false {p : Char → Bool} (hp : ∀ c, p c = true → continues c = true)
    {cs : List Char} (hends : Ends cs) : ∀ c ∈ cs.head?, p c = false := by
  intro c hc
  refine Bool.eq_false_iff.mpr fun hpc => ?_
  have hcontinues := hends c hc
  rw [hp c hpc] at hcontinues
  cases hcontinues

theorem continues_of_isNameChar {c : Char} (h : Text.isNameChar c = true) : continues c = true := by
  simp [continues, h]

namespace Spells

variable {cs : List Char} {ts : List Token}

theorem nil : Spells [] [] := by
  unfold Spells
  rw [Token.list]
  rfl

theorem ignored (h : Spells cs ts) (c : Char) (hc : Token.isIgnored c = true) :
    Spells (c :: cs) ts := by
  unfold Spells
  rw [Token.list, if_pos hc]
  exact h

theorem ignoredAll (h : Spells cs ts) {blanks : List Char}
    (hblanks : ∀ c ∈ blanks, Token.isIgnored c = true) : Spells (blanks ++ cs) ts := by
  induction blanks with
  | nil => exact h
  | cons c blanks ih =>
    obtain ⟨hc, hrest⟩ := List.forall_mem_cons.mp hblanks
    exact (ih hrest).ignored c hc

theorem token {c : Char} {rest : List Char} {token : Token} (hignored : Token.isIgnored c = false)
    (hcomment : c ≠ '#') (hfirst : Token.first c rest = (token, cs))
    (h : token.isReadable = true → Spells cs ts) : Spells (c :: rest) (token :: ts) := by
  unfold Spells
  rw [Token.list, if_neg (by rw [hignored]; exact Bool.false_ne_true), if_neg hcomment, hfirst]
  cases token with
  | unreadable shown => rfl
  | _ => exact congrArg (List.cons _) (h rfl)

theorem punctuator (h : Spells cs ts) (c : Char) {p : Punctuator}
    (hc : Token.punctuator? c = some p) : Spells (c :: cs) (.punctuator p :: ts) := by
  obtain ⟨hignored, hcomment⟩ := Token.isIgnored_eq_false_of_punctuator? hc
  refine token hignored hcomment ?_ fun _ => h
  unfold Token.first
  rw [hc]

theorem name (h : Spells cs ts) (hends : Ends cs) {n : String} (hn : Text.isName n.toList = true) :
    Spells (n.toList ++ cs) (.name n :: ts) := by
  cases hchars : n.toList with
  | nil =>
    rw [hchars] at hn
    cases hn
  | cons c rest =>
    rw [hchars, Text.isName, Bool.and_eq_true, List.all_eq_true] at hn
    obtain ⟨hstart, hrest⟩ := hn
    have hchar := Text.isNameChar_of_isNameStart hstart
    obtain ⟨htake, hdrop⟩ :=
      span_append hrest (hends.head_eq_false fun _ => continues_of_isNameChar)
    refine token (Token.isIgnored_eq_false_of_isNameChar hchar) ?_ ?_ fun _ => h
    · rintro rfl
      exact absurd hchar (by decide)
    · show Token.first c (rest ++ cs) = _
      unfold Token.first
      rw [Token.punctuator?_of_isNameChar hchar]
      dsimp only
      rw [if_pos hstart, htake, hdrop, ← hchars, String.ofList_toList]

end Spells

end AuditFields.Schema
