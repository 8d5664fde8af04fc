import AuditFields.Proofs.Schema.Printing.Values
import AuditFields.Proofs.Schema.Reading.Runs

/-!
# Reading printed values

What is read back from the tokens of a part (`reread`): the part, but with the numbers and descriptions
that their texts denote. The tokens have to be readable, and the part well-formed.
-/

namespace AuditFields.Schema

/-! ## Readable tokens -/

/-- None of the tokens is unreadable. -/
def Legible (tokens : List Token) : Prop :=
  ∀ token ∈ tokens, token.isReadable = true

theorem Legible.head {token : Token} {tokens : List Token} (h : Legible (token :: tokens)) :
    token.isReadable = true :=
  h token List.mem_cons_self

theorem Legible.tail {token : Token} {tokens : List Token} (h : Legible (token :: tokens)) :
    Legible tokens :=
  fun other hmem => h other (List.mem_cons_of_mem _ hmem)

theorem Legible.left {xs ys : List Token} (h : Legible (xs ++ ys)) : Legible xs :=
  fun token hmem => h token (List.mem_append_left _ hmem)

theorem Legible.right {xs ys : List Token} (h : Legible (xs ++ ys)) : Legible ys :=
  fun token hmem => h token (List.mem_append_right _ hmem)

theorem Legible.of_flatMap {α : Type} {tokens : α → List Token} {items : List α}
    (h : Legible (items.flatMap tokens)) : ∀ item ∈ items, Legible (tokens item) :=
  fun item hitem token hmem => h token (List.mem_flatMap.mpr ⟨item, hitem, hmem⟩)

/-! ## Values -/

/-- The value that is read from the text of a number. -/
def rereadFloat (value : Binary64) : Value :=
  match floatToken value with
  | .float other => .float other
  | .name text => .enum text
  | _ => .null

mutual

def Value.reread : Value → Value
  | .float value => rereadFloat value
  | .list items => .list (Value.rereadItems items)
  | .object members => .object (Value.rereadMembers members)
  | value => value

def Value.rereadItems : List Value → List Value
  | [] => []
  | item :: items => item.reread :: Value.rereadItems items

def Value.rereadMembers : List (String × Value) → List (String × Value)
  | [] => []
  | (name, value) :: members => (name, value.reread) :: Value.rereadMembers members

end

theorem Value.rereadItems_eq (items : List Value) : Value.rereadItems items = items.map Value.reread := by
  induction items with
  | nil => rfl
  | cons item items ih => rw [Value.rereadItems, ih, List.map_cons]

def Value.rereadMember (member : String × Value) : String × Value :=
  (member.1, member.2.reread)

theorem Value.rereadMembers_eq (members : List (String × Value)) :
    Value.rereadMembers members = members.map Value.rereadMember := by
  induction members with
  | nil => rfl
  | cons member members ih => rw [Value.rereadMembers, ih, List.map_cons]; rfl

theorem Value.exists_tokens (value : Value) :
    ∃ token rest, value.tokens = token :: rest ∧ token ≠ .punctuator .closeBracket := by
  cases value with
  | boolean value => cases value <;> exact ⟨_, _, rfl, by simp⟩
  | float value => 
    refine ⟨_, _, rfl, ?_⟩
    cases value with
    | infinite negative => cases negative <;> simp [floatToken]
    | _ => simp [floatToken]
  | string value =>
    refine ⟨_, _, rfl, ?_⟩
    unfold quotedToken
    split <;> simp
  | _ => exact ⟨_, _, rfl, by simp⟩

namespace Reader

theorem run_named {α : Type} {part : Reader α} {after rest : List Token} {x : α} (text : String)
    (h : part.run after = .ok (x, rest)) :
    (named part).run (.name text :: .punctuator .colon :: after) = .ok ((text, x), rest) := by
  rw [named, run_bind_of_ok (run_name text _), run_bind_of_ok (run_expect .colon _), run_bind_of_ok h]
  rfl

variable {bound : List Token} (next : Token)

theorem run_valueUpTo_enum {text : String} (h : text ∉ valueWords) (rest : List Token) :
    (valueUpTo (next :: bound)).run (.name text :: rest) = .ok (.enum text, rest) := by
  obtain ⟨htrue, hfalse, hnull⟩ : text ≠ "true" ∧ text ≠ "false" ∧ text ≠ "null" := by
    simpa [valueWords] using h
  rw [valueUpTo, run_bind_of_ok (run_take rfl rest)]
  split
  all_goals first
    | (next heq => cases heq; rfl)
    | simp_all

theorem run_valueUpTo_float {value : Binary64} (h : (floatToken value).isReadable = true)
    (rest : List Token) :
    (valueUpTo (next :: bound)).run (floatToken value :: rest) = .ok (rereadFloat value, rest) := by
  unfold rereadFloat
  cases value with
  | finite negative significand power =>
    rw [valueUpTo, floatToken, run_bind_of_ok (run_take rfl rest)]
    rfl
  | infinite negative =>
    cases negative with
    | true => cases h
    | false => exact run_valueUpTo_enum next (by decide) rest
  | nan => exact run_valueUpTo_enum next (by decide) rest

theorem run_valueUpTo_list {items : List Value}
    (h : ∀ item ∈ items, ∀ after, (valueUpTo bound).run (item.tokens ++ after) = .ok (item.reread, after))
    (rest : List Token) :
    (valueUpTo (next :: bound)).run ((Value.list items).tokens ++ rest) =
      .ok ((Value.list items).reread, rest) := by
  have hrepeats : Repeats (· != .punctuator .closeBracket) (valueUpTo bound) (fun _ => True)
      Value.tokens Value.reread items := by
    refine ⟨fun item _ => ?_, fun _ _ _ => trivial, fun item hmem after _ => h item hmem after⟩
    obtain ⟨token, others, htokens, hne⟩ := item.exists_tokens
    exact ⟨token, others, htokens, bne_iff_ne.mpr hne⟩
  have hitems := run_manyUntil hrepeats (fun _ => trivial) rest
  rw [Value.tokens, Value.itemsTokens_eq, Value.reread, Value.rereadItems_eq, List.cons_append,
    List.append_assoc, valueUpTo, run_bind_of_ok (run_take rfl _)]
  dsimp only
  rw [List.singleton_append, run_bind_of_ok hitems]
  rfl

theorem run_members {part : Reader Value} {members : List (String × Value)}
    (h : ∀ member ∈ members, ∀ after, part.run (member.2.tokens ++ after) = .ok (member.2.reread, after))
    (closing : Punctuator) (rest : List Token) :
    (many isName (named part)).run (Value.membersTokens members ++ Token.punctuator closing :: rest) =
      .ok (Value.rereadMembers members, .punctuator closing :: rest) := by
  have hrepeats : Repeats isName (named part) (fun _ => True) Value.memberTokens Value.rereadMember
      members :=
    ⟨fun _ _ => ⟨_, _, rfl, rfl⟩, fun _ _ _ => trivial,
      fun member hmem after _ => run_named member.1 (h member hmem after)⟩
  rw [Value.membersTokens_eq, Value.rereadMembers_eq]
  refine run_many hrepeats trivial fun token htoken => ?_
  obtain rfl := Option.some.inj htoken
  rfl

theorem run_valueUpTo_object {members : List (String × Value)}
    (h : ∀ member ∈ members, ∀ after,
      (valueUpTo bound).run (member.2.tokens ++ after) = .ok (member.2.reread, after))
    (rest : List Token) :
    (valueUpTo (next :: bound)).run ((Value.object members).tokens ++ rest) =
      .ok ((Value.object members).reread, rest) := by
  rw [Value.tokens, Value.reread, List.cons_append, List.append_assoc, valueUpTo,
    run_bind_of_ok (run_take rfl _)]
  dsimp only
  rw [List.singleton_append, run_bind_of_ok (run_members h .closeBrace rest),
    run_bind_of_ok (run_expect .closeBrace rest)]
  rfl

end Reader

theorem quotedToken_of_legible {text : String} {tokens : List Token}
    (h : Legible (quotedToken text :: tokens)) : quotedToken text = .string text :=
  quotedToken_of_readable h.head

open Reader in
mutual

/-- A value is read back from its tokens, if the bound allows for as many levels as there are tokens. -/
theorem Value.run_reread : ∀ {value : Value} {bound : List Token}, value.WellFormed →
    Legible value.tokens → value.tokens.length ≤ bound.length → ∀ rest,
    (valueUpTo bound).run (value.tokens ++ rest) = .ok (value.reread, rest)
  | value, [], _, _, hbound, _ => by
    obtain ⟨token, others, htokens, _⟩ := value.exists_tokens
    rw [htokens] at hbound
    exact absurd hbound (Nat.not_succ_le_zero _)
  | .null, _ :: _, _, _, _, _ => rfl
  | .int _, _ :: _, _, _, _, _ => rfl
  | .boolean true, _ :: _, _, _, _, _ => rfl
  | .boolean false, _ :: _, _, _, _, _ => rfl
  | .float _, next :: _, _, hlegible, _, rest => run_valueUpTo_float next hlegible.head rest
  | .string text, _ :: _, _, hlegible, _, _ => by
    rw [Value.tokens, quotedToken_of_legible hlegible]
    rfl
  | .enum _, next :: _, hvalue, _, _, rest => run_valueUpTo_enum next hvalue.2 rest
  | .list items, next :: bound, hvalue, hlegible, hbound, rest =>
    run_valueUpTo_list next (Value.run_rereadItems hvalue hlegible.tail.left (by
      rw [Value.tokens, List.length_cons, List.length_append] at hbound
      simp only [List.length_cons] at hbound
      omega)) rest
  | .object members, next :: bound, hvalue, hlegible, hbound, rest =>
    run_valueUpTo_object next (Value.run_rereadMembers hvalue hlegible.tail.left (by
      rw [Value.tokens, List.length_cons, List.length_append] at hbound
      simp only [List.length_cons] at hbound
      omega)) rest

theorem Value.run_rereadItems : ∀ {items : List Value} {bound : List Token},
    Value.ItemsWellFormed items → Legible (Value.itemsTokens items) →
    (Value.itemsTokens items).length ≤ bound.length → ∀ item ∈ items, ∀ rest,
    (valueUpTo bound).run (item.tokens ++ rest) = .ok (item.reread, rest)
  | [], _, _, _, _ => fun _ hmem => absurd hmem List.not_mem_nil
  | item :: items, bound, hitems, hlegible, hbound => by
    rw [Value.itemsTokens, List.length_append] at hbound
    exact List.forall_mem_cons.mpr ⟨Value.run_reread hitems.1 hlegible.left (by omega),
      Value.run_rereadItems hitems.2 hlegible.right (by omega)⟩

theorem Value.run_rereadMembers : ∀ {members : List (String × Value)} {bound : List Token},
    Value.MembersWellFormed members → Legible (Value.membersTokens members) →
    (Value.membersTokens members).length ≤ bound.length → ∀ member ∈ members, ∀ rest,
    (valueUpTo bound).run (member.2.tokens ++ rest) = .ok (member.2.reread, rest)
  | [], _, _, _, _ => fun _ hmem => absurd hmem List.not_mem_nil
  | (name, value) :: members, bound, hmembers, hlegible, hbound => by
    simp only [Value.membersTokens, List.length_cons, List.length_append] at hbound
    have hvalue : value.tokens.length ≤ bound.length := by omega
    exact List.forall_mem_cons.mpr ⟨Value.run_reread hmembers.1.2 hlegible.tail.tail.left hvalue,
      Value.run_rereadMembers hmembers.2 hlegible.tail.tail.right (by omega)⟩

end

namespace Reader

variable {rest : List Token}

theorem run_value {value : Value} (h : value.WellFormed) (hlegible : Legible value.tokens)
    (rest : List Token) : Reader.value.run (value.tokens ++ rest) = .ok (value.reread, rest) := by
  have hget : (get : Reader (List Token)).run (value.tokens ++ rest) =
    .ok (value.tokens ++ rest, value.tokens ++ rest) := rfl
  rw [Reader.value, run_bind_of_ok hget]
  exact Value.run_reread h hlegible (by rw [List.length_append]; omega) rest

/-! ## Directives and types -/

theorem run_value_of_members : ∀ {members : List (String × Value)}, Value.MembersWellFormed members →
    Legible (Value.membersTokens members) → ∀ member ∈ members, ∀ after,
    Reader.value.run (member.2.tokens ++ after) = .ok (member.2.reread, after)
  | [], _, _ => fun _ hmem => absurd hmem List.not_mem_nil
  | (_, _) :: _, hmembers, hlegible =>
    List.forall_mem_cons.mpr ⟨run_value hmembers.1.2 hlegible.tail.tail.left,
      run_value_of_members hmembers.2 hlegible.tail.tail.right⟩

theorem run_arguments {members : List (String × Value)} (h : Value.MembersWellFormed members)
    (hlegible : Legible (argumentTokens members)) (hrest : Avoids [.openParen] rest) :
    arguments.run (argumentTokens members ++ rest) = .ok (Value.rereadMembers members, rest) := by
  cases members with
  | nil =>
    rw [argumentTokens, List.nil_append, arguments, run_bind_of_ok (run_nextIs_of_avoids hrest)]
    rfl
  | cons first others =>
    have hmembers := run_members (run_value_of_members h hlegible.tail.left) .closeParen rest
    show arguments.run (.punctuator .openParen :: ((Value.membersTokens (first :: others) ++ _) ++ _)) = _
    rw [List.append_assoc, List.singleton_append, arguments,
      run_bind_of_ok (run_nextIs_self .openParen _), if_pos rfl,
      run_bind_of_ok (run_discard_take rfl _), run_bind_of_ok hmembers,
      run_bind_of_ok (run_expect .closeParen rest)]
    rfl

end Reader

def Directive.reread (directive : Directive) : Directive where
  name := directive.name
  arguments := Value.rereadMembers directive.arguments

namespace Reader

variable {rest : List Token}

theorem run_directive {directive : Directive} (h : directive.WellFormed)
    (hlegible : Legible directive.tokens) (hrest : Avoids [.openParen] rest) :
    Reader.directive.run (directive.tokens ++ rest) = .ok (directive.reread, rest) := by
  rw [Directive.tokens, List.cons_append, List.cons_append, Reader.directive,
    run_bind_of_ok (run_expect .at _), run_bind_of_ok (run_name _ _),
    run_bind_of_ok (run_arguments h.arguments hlegible.tail.tail hrest)]
  rfl

theorem run_directives {ds : List Directive} (h : ∀ directive ∈ ds, directive.WellFormed)
    (hlegible : Legible (ds.flatMap Directive.tokens)) (hrest : Avoids [.at, .openParen] rest) :
    directives.run (ds.flatMap Directive.tokens ++ rest) = .ok (ds.map Directive.reread, rest) := by
  have hrepeats : Repeats (· == .punctuator .at) Reader.directive (Avoids [.openParen])
      Directive.tokens Directive.reread ds := by
    refine ⟨fun directive _ => ⟨_, _, rfl, beq_self_eq_true _⟩, fun directive _ after => ?_, ?_⟩
    · exact avoids_cons _ (by simp)
    · exact fun directive hmem after hafter =>
        run_directive (h directive hmem) (hlegible.of_flatMap directive hmem) hafter
  refine run_many hrepeats (hrest.subset (by simp)) fun token htoken => ?_
  refine beq_eq_false_iff_ne.mpr fun heq => ?_
  exact hrest .at List.mem_cons_self (heq ▸ htoken)

end Reader

/-! ## Types -/

namespace TypeRef

/-- The opening brackets in front of the name. -/
def opens : TypeRef → List Token
  | .named _ => []
  | .list item => .punctuator .openBracket :: item.opens
  | .nonNull nullable => nullable.opens

/-- The closing brackets and exclamation marks after the name. -/
def marks : TypeRef → List Token
  | .named _ => []
  | .list item => item.marks ++ [Token.punctuator .closeBracket]
  | .nonNull nullable => nullable.marks ++ [Token.punctuator .bang]

theorem tokens_eq (type : TypeRef) : type.tokens = type.opens ++ Token.name type.baseName :: type.marks := by
  induction type with
  | named name => rfl
  | list item ih => simp only [tokens, opens, marks, baseName, ih, List.append_assoc, List.cons_append]
  | nonNull nullable ih =>
    simp only [tokens, opens, marks, baseName, ih, List.append_assoc, List.cons_append]

theorem mem_opens {type : TypeRef} : ∀ token ∈ type.opens, token = .punctuator .openBracket := by
  induction type with
  | named name => exact fun _ h => absurd h List.not_mem_nil
  | list item ih => exact List.forall_mem_cons.mpr ⟨rfl, ih⟩
  | nonNull nullable ih => exact ih

theorem mem_marks {type : TypeRef} :
    ∀ token ∈ type.marks, token = .punctuator .bang ∨ token = .punctuator .closeBracket := by
  induction type with
  | named name => exact fun _ h => absurd h List.not_mem_nil
  | list item ih =>
    exact List.forall_mem_append.mpr ⟨ih, fun token h => Or.inr (List.mem_singleton.mp h)⟩
  | nonNull nullable ih =>
    exact List.forall_mem_append.mpr ⟨ih, fun token h => Or.inl (List.mem_singleton.mp h)⟩

/-- The type so far with the wrapper of a mark. -/
def wrap (type : TypeRef) (mark : Token) : TypeRef :=
  if mark = .punctuator .bang then type.asNonNull else .list type

theorem foldl_marks {type : TypeRef} (h : type.WellFormed) :
    type.marks.foldl wrap (.named type.baseName) = type := by
  induction type with
  | named name => rfl
  | list item ih =>
    rw [marks, List.foldl_append, baseName, ih h]
    rfl
  | nonNull nullable ih =>
    rw [marks, List.foldl_append, baseName, ih h.2, List.foldl_cons, List.foldl_nil, wrap, if_pos rfl,
      asNonNull, if_neg (Bool.eq_false_iff.mp h.1)]

end TypeRef

namespace Reader

variable {rest : List Token}

theorem run_many_take {starts : Token → Bool} {tokens : List Token}
    (h : ∀ token ∈ tokens, starts token = true ∧ token.isReadable = true)
    (hstop : ∀ token ∈ rest.head?, starts token = false) :
    (many starts take).run (tokens ++ rest) = .ok (tokens, rest) := by
  have hrepeats : Repeats starts take (fun _ => True) (fun token => [token]) id tokens :=
    ⟨fun token hmem => ⟨token, [], rfl, (h token hmem).1⟩, fun _ _ _ => trivial,
      fun token hmem after _ => run_take (h token hmem).2 after⟩
  have hmany := run_many hrepeats trivial hstop
  rwa [List.map_id, List.flatMap_singleton'] at hmany

theorem run_type {type : TypeRef} (h : type.WellFormed) (hrest : Avoids [.bang, .closeBracket] rest) :
    Reader.type.run (type.tokens ++ rest) = .ok (type, rest) := by
  have hopens : (many (· == .punctuator .openBracket) take).run
      (type.opens ++ Token.name type.baseName :: (type.marks ++ rest)) =
      .ok (type.opens, .name type.baseName :: (type.marks ++ rest)) := by
    refine run_many_take (fun token hmem => ?_) fun token htoken => ?_
    · rw [TypeRef.mem_opens token hmem]
      exact ⟨rfl, rfl⟩
    · obtain rfl := Option.some.inj htoken
      rfl
  have hmarks : (many (fun t => t == .punctuator .bang || t == .punctuator .closeBracket) take).run
      (type.marks ++ rest) = .ok (type.marks, rest) := by
    refine run_many_take (fun token hmem => ?_) fun token htoken => ?_
    · rcases TypeRef.mem_marks token hmem with rfl | rfl
      · exact ⟨rfl, rfl⟩
      · exact ⟨rfl, rfl⟩
    · rw [Bool.or_eq_false_iff, beq_eq_false_iff_ne, beq_eq_false_iff_ne]
      exact ⟨fun heq => hrest .bang (by simp) (heq ▸ htoken),
        fun heq => hrest .closeBracket (by simp) (heq ▸ htoken)⟩
  rw [TypeRef.tokens_eq, List.append_assoc, List.cons_append, Reader.type, run_bind_of_ok (run_discard_of_ok hopens),
    run_bind_of_ok (run_name _ _), run_bind_of_ok hmarks]
  show Except.ok (type.marks.foldl TypeRef.wrap (.named type.baseName), rest) = _
  rw [TypeRef.foldl_marks h]

end Reader

end AuditFields.Schema
