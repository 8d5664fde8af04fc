import AuditFields.Proofs.Schema.Printing.Numerals
import AuditFields.Proofs.Schema.Printing.Texts
import AuditFields.Proofs.Schema.WellFormed

/-!
# The tokens of printed values

For values, types and directives the tokens that their texts are made of (`tokens`), and that the text of
a well-formed one is read as these (`Prints`): no two of its tokens run into each other, whatever stands
in the optional parts between them.
-/

namespace AuditFields.Schema

/-- The text is read as the tokens wherever no name, numeral or text goes on after it. -/
def Prints (text : String) (tokens : List Token) : Prop :=
  ∀ ⦃cs : List Char⦄ ⦃ts : List Token⦄, Spells cs ts → Ends cs → Spells (text.toList ++ cs) (tokens ++ ts)

/-- The text is read as the tokens whatever stands after it. -/
def PrintsLines (text : String) (tokens : List Token) : Prop :=
  ∀ ⦃cs : List Char⦄ ⦃ts : List Token⦄, Spells cs ts → Spells (text.toList ++ cs) (tokens ++ ts)

theorem PrintsLines.prints {text : String} {tokens : List Token} (h : PrintsLines text tokens) :
    Prints text tokens :=
  fun _ _ hspells _ => h hspells

/-! ## Parts with a separator -/

section Joined

variable {α : Type} {text : α → String} {tokens : α → List Token}

theorem prints_joinWith {separator : String} {mark : List Token}
    (hseparator : PrintsLines separator mark) (hends : ∀ cs, Ends (separator.toList ++ cs))
    {first : α} {rest : List α} (hitems : ∀ item ∈ first :: rest, Prints (text item) (tokens item)) :
    Prints (Text.joinWith separator ((first :: rest).map text))
      (tokens first ++ rest.flatMap fun item => mark ++ tokens item) := by
  intro cs ts h hcs
  obtain ⟨hfirst, hrest⟩ := List.forall_mem_cons.mp hitems
  have hothers : Spells (rest.flatMap (fun item => separator.toList ++ (text item).toList) ++ cs)
      (rest.flatMap (fun item => mark ++ tokens item) ++ ts) ∧
      Ends (rest.flatMap (fun item => separator.toList ++ (text item).toList) ++ cs) := by
    clear hfirst hitems
    induction rest with
    | nil => exact ⟨h, hcs⟩
    | cons item rest ih =>
      obtain ⟨hitem, hrest⟩ := List.forall_mem_cons.mp hrest
      obtain ⟨hspells, hends'⟩ := ih hrest
      simp only [List.flatMap_cons, List.append_assoc]
      exact ⟨hseparator (hitem hspells hends'), hends _⟩
  rw [toList_joinWith_cons, List.append_assoc, List.append_assoc]
  exact hfirst hothers.1 hothers.2

theorem prints_commas {items : List α} (hitems : ∀ item ∈ items, Prints (text item) (tokens item)) :
    Prints (Text.joinWith ", " (items.map text)) (items.flatMap tokens) := by
  cases items with
  | nil => exact fun _ _ h _ => h
  | cons first rest =>
    have hcomma : PrintsLines ", " [] := fun _ _ h => (h.ignored ' ' rfl).ignored ',' rfl
    have hjoined := prints_joinWith hcomma (fun cs => ends_cons (c := ',') rfl) hitems
    simpa only [List.nil_append, List.flatMap_cons] using hjoined

theorem prints_marks {separator : String} {c : Char} {p : Punctuator} (hseparator : separator.toList = [' ', c, ' '])
    (hc : Token.punctuator? c = some p)
    {first : α} {rest : List α} (hitems : ∀ item ∈ first :: rest, Prints (text item) (tokens item)) :
    Prints (Text.joinWith separator ((first :: rest).map text))
      (tokens first ++ rest.flatMap fun item => .punctuator p :: tokens item) := by
  have hmark : PrintsLines separator [.punctuator p] := by
    intro cs ts h
    rw [hseparator]
    exact ((h.ignored ' ' rfl).punctuator c hc).ignored ' ' rfl
  exact prints_joinWith hmark (fun cs => hseparator ▸ ends_cons rfl) hitems

end Joined

/-! ## Values -/

mutual

def Value.tokens : Value → List Token
  | .null => [.name "null"]
  | .int value => [.int value]
  | .float value => [floatToken value]
  | .string value => [quotedToken value]
  | .boolean true => [.name "true"]
  | .boolean false => [.name "false"]
  | .enum name => [.name name]
  | .list items => .punctuator .openBracket :: (Value.itemsTokens items ++ [Token.punctuator .closeBracket])
  | .object members => .punctuator .openBrace :: (Value.membersTokens members ++ [Token.punctuator .closeBrace])

def Value.itemsTokens : List Value → List Token
  | [] => []
  | item :: items => item.tokens ++ Value.itemsTokens items

def Value.membersTokens : List (String × Value) → List Token
  | [] => []
  | (name, value) :: members =>
    .name name :: .punctuator .colon :: (value.tokens ++ Value.membersTokens members)

end

theorem Value.renderItems_eq (items : List Value) : Value.renderItems items = items.map Value.render := by
  induction items with
  | nil => rfl
  | cons item items ih => rw [Value.renderItems, ih, List.map_cons]

def Value.renderMember (member : String × Value) : String :=
  member.1 ++ ": " ++ member.2.render

def Value.memberTokens (member : String × Value) : List Token :=
  .name member.1 :: .punctuator .colon :: member.2.tokens

theorem Value.renderMembers_eq (members : List (String × Value)) :
    Value.renderMembers members = members.map Value.renderMember := by
  induction members with
  | nil => rfl
  | cons member members ih => rw [Value.renderMembers, ih, List.map_cons]; rfl

theorem Value.itemsTokens_eq (items : List Value) : Value.itemsTokens items = items.flatMap Value.tokens := by
  induction items with
  | nil => rfl
  | cons item items ih => rw [Value.itemsTokens, ih, List.flatMap_cons]

theorem Value.membersTokens_eq (members : List (String × Value)) :
    Value.membersTokens members = members.flatMap Value.memberTokens := by
  induction members with
  | nil => rfl
  | cons member members ih => rw [Value.membersTokens, ih, List.flatMap_cons]; rfl

theorem prints_name {name : String} (h : IsName name) : Prints name [.name name] :=
  fun _ _ hspells hends => hspells.name hends h

mutual

theorem Value.prints : ∀ {value : Value}, value.WellFormed → Prints value.render value.tokens
  | .null, _ => prints_name (by decide)
  | .int value, _ => fun _ _ h hends => h.int hends value
  | .float value, _ => fun _ _ h hends => h.float hends value
  | .string value, _ => fun _ _ h hends => h.quoted hends value
  | .boolean true, _ => prints_name (by decide)
  | .boolean false, _ => prints_name (by decide)
  | .enum name, h => prints_name h.1
  | .list items, h => by
    have hitems := prints_commas (Value.prints_items items h)
    intro cs ts hspells _
    rw [Value.render, Value.renderItems_eq, Value.tokens, Value.itemsTokens_eq]
    simp only [String.toList_append, List.append_assoc, List.cons_append]
    exact (hitems (hspells.punctuator ']' rfl) (ends_cons rfl)).punctuator '[' rfl
  | .object members, h => by
    have hmembers := prints_commas (Value.prints_members members h)
    intro cs ts hspells _
    rw [Value.render, Value.renderMembers_eq, Value.tokens, Value.membersTokens_eq]
    simp only [String.toList_append, List.append_assoc, List.cons_append]
    exact (hmembers (hspells.punctuator '}' rfl) (ends_cons rfl)).punctuator '{' rfl

theorem Value.prints_items :
    ∀ (items : List Value), Value.ItemsWellFormed items → ∀ item ∈ items, Prints item.render item.tokens
  | [], _ => fun _ hmem => absurd hmem List.not_mem_nil
  | _ :: items, h => List.forall_mem_cons.mpr ⟨Value.prints h.1, Value.prints_items items h.2⟩

theorem Value.prints_members :
    ∀ (members : List (String × Value)), Value.MembersWellFormed members →
      ∀ member ∈ members, Prints (Value.renderMember member) (Value.memberTokens member)
  | [], _ => fun _ hmem => absurd hmem List.not_mem_nil
  | (name, value) :: members, h => by
    refine List.forall_mem_cons.mpr ⟨?_, Value.prints_members members h.2⟩
    intro cs ts hspells hends
    have hvalue := Value.prints h.1.2 hspells hends
    simp only [Value.renderMember, Value.memberTokens, String.toList_append, List.append_assoc,
      List.cons_append]
    exact Spells.name ((hvalue.ignored ' ' rfl).punctuator ':' rfl) (ends_cons rfl) h.1.1

end

/-! ## Types and directives -/

def TypeRef.tokens : TypeRef → List Token
  | .named name => [.name name]
  | .list item => .punctuator .openBracket :: (item.tokens ++ [Token.punctuator .closeBracket])
  | .nonNull nullable => nullable.tokens ++ [Token.punctuator .bang]

theorem TypeRef.prints {type : TypeRef} (h : type.WellFormed) : Prints type.render type.tokens := by
  induction type with
  | named name => exact prints_name h
  | list item ih =>
    intro cs ts hspells _
    simp only [TypeRef.render, TypeRef.tokens, String.toList_append, List.append_assoc,
      List.cons_append]
    exact (ih h (hspells.punctuator ']' rfl) (ends_cons rfl)).punctuator '[' rfl
  | nonNull nullable ih =>
    intro cs ts hspells _
    simp only [TypeRef.render, TypeRef.tokens, String.toList_append, List.append_assoc]
    exact ih h.2 (hspells.punctuator '!' rfl) (ends_cons rfl)

/-- The tokens of the arguments of a directive. -/
def argumentTokens : List (String × Value) → List Token
  | [] => []
  | arguments => .punctuator .openParen :: (Value.membersTokens arguments ++ [Token.punctuator .closeParen])

def Directive.tokens (directive : Directive) : List Token :=
  .punctuator .at :: .name directive.name :: argumentTokens directive.arguments

theorem Directive.prints {directive : Directive} (h : directive.WellFormed) :
    Prints directive.render directive.tokens := by
  intro cs ts hspells hends
  unfold Directive.render Directive.tokens
  have harguments := Value.prints_members directive.arguments h.arguments
  generalize directive.arguments = arguments at harguments
  cases arguments with
  | nil =>
    simp only [argumentTokens, String.toList_append, List.append_assoc, List.cons_append]
    exact (hspells.name hends h.name).punctuator '@' rfl
  | cons first rest =>
    have hmembers := prints_commas harguments (hspells.punctuator ')' rfl) (ends_cons rfl)
    simp only [argumentTokens, Value.renderMembers_eq, Value.membersTokens_eq, String.toList_append,
      List.append_assoc, List.cons_append]
    exact ((hmembers.punctuator '(' rfl).name (ends_cons rfl) h.name).punctuator '@' rfl

theorem toList_renderDirectives (directives : List Directive) :
    (renderDirectives directives).toList = directives.flatMap fun directive => ' ' :: directive.render.toList := by
  rw [renderDirectives, String.toList_join, List.flatMap_map]
  simp only [String.toList_append]
  rfl

theorem ends_directives (directives : List Directive) {cs : List Char} (h : Ends cs) :
    Ends ((renderDirectives directives).toList ++ cs) := by
  rw [toList_renderDirectives]
  cases directives with
  | nil => exact h
  | cons directive directives => exact ends_cons rfl

theorem prints_directives {directives : List Directive}
    (h : ∀ directive ∈ directives, directive.WellFormed) :
    Prints (renderDirectives directives) (directives.flatMap Directive.tokens) := by
  intro cs ts hspells hends
  induction directives with
  | nil => exact hspells
  | cons directive directives ih =>
    obtain ⟨hdirective, hrest⟩ := List.forall_mem_cons.mp h
    have hfirst := Directive.prints hdirective (ih hrest) (ends_directives directives hends)
    rw [toList_renderDirectives] at hfirst ⊢
    rw [List.flatMap_cons, List.flatMap_cons, List.append_assoc, List.append_assoc]
    exact hfirst.ignored ' ' rfl

end AuditFields.Schema
