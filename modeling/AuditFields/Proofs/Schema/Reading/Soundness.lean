import AuditFields.Proofs.Result
import AuditFields.Proofs.Schema.Reading.Values

/-!
# What readers give

Whatever a reader takes off the tokens of a text is well-formed, and none of the tokens it takes is
unreadable (`Yields`). A document is read up to its end, so a text that is read as one has no unreadable
token at all.
-/

namespace AuditFields.Schema

/-! ## Names among tokens -/

/-- Whatever stands as a name among the tokens is one. -/
def Named (tokens : List Token) : Prop :=
  ∀ text, Token.name text ∈ tokens → IsName text

theorem Named.right {xs ys : List Token} (h : Named (xs ++ ys)) : Named ys :=
  fun text hmem => h text (List.mem_append_right _ hmem)

namespace Token

theorem ne_name_numberUnlessExtended {number : Token} (hnumber : ∀ text, number ≠ .name text)
    (cs : List Char) (text : String) : (numberUnlessExtended number cs).1 ≠ .name text := by
  unfold numberUnlessExtended
  split
  · split
    · simp
    · exact hnumber text
  · exact hnumber text

theorem ne_name_number (negative : Bool) (cs : List Char) (text : String) :
    (number negative cs).1 ≠ .name text := by
  simp only [number]
  split
  · simp
  · split
    · exact ne_name_numberUnlessExtended (by simp) _ text
    · exact ne_name_numberUnlessExtended (by simp) _ text

theorem ne_name_afterMinus (cs : List Char) (text : String) : (afterMinus cs).1 ≠ .name text := by
  unfold afterMinus
  split
  · split <;> simp
  · split
    · exact ne_name_number true _ text
    · simp
  · simp

theorem ne_name_afterPeriod (cs : List Char) (text : String) : (afterPeriod cs).1 ≠ .name text := by
  unfold afterPeriod
  split
  · simp
  · simp
  · split <;> simp
  · simp

theorem ne_name_text (cs : List Char) (name : String) : (text cs).1 ≠ .name name := by
  unfold text
  split
  · split <;> simp
  · split <;> simp

theorem isName_first {c : Char} {cs : List Char} {text : String}
    (h : (first c cs).1 = .name text) : IsName text := by
  unfold first at h
  split at h
  · cases h
  · split at h
    · next hstart =>
      obtain rfl := Token.name.inj h
      rw [IsName, String.toList_ofList, Text.isName, hstart, Bool.true_and]
      exact List.all_takeWhile
    · split at h
      · exact absurd h (ne_name_number false _ text)
      · split at h
        · exact absurd h (ne_name_afterMinus cs text)
        · split at h
          · exact absurd h (ne_name_afterPeriod cs text)
          · split at h
            · exact absurd h (ne_name_text cs text)
            · cases h

end Token

theorem named_list (cs : List Char) : Named (Token.list cs) := by
  fun_induction Token.list cs with
  | case1 => exact fun _ hmem => absurd hmem List.not_mem_nil
  | case2 c cs _ ih => exact ih
  | case3 cs _ ih => exact ih
  | case4 c cs _ _ shown _ =>
    intro text hmem
    cases List.mem_singleton.mp hmem
  | case5 c cs _ _ _ ih =>
    intro text hmem
    rcases List.mem_cons.mp hmem with heq | hmem
    · exact Token.isName_first heq.symm
    · exact ih text hmem

namespace Reader

variable {α β : Type}

/-- What the reader gives has the property, and the tokens it takes off the front are readable. -/
def Yields (part : Reader α) (property : α → Prop) : Prop :=
  ∀ (before after : List Token) (x : α), Named before → part.run before = .ok (x, after) →
    ∃ taken, before = taken ++ after ∧ Legible taken ∧ property x

/-- The reader also takes a token at least. -/
def YieldsSome (part : Reader α) (property : α → Prop) : Prop :=
  ∀ (before after : List Token) (x : α), Named before → part.run before = .ok (x, after) →
    ∃ taken, taken ≠ [] ∧ before = taken ++ after ∧ Legible taken ∧ property x

section Chains

variable {part : Reader α} {next : α → Reader β} {property : α → Prop} {result : β → Prop}

theorem run_bind_eq_ok {before after : List Token} {y : β}
    (h : (part >>= next).run before = .ok (y, after)) :
    ∃ x between, part.run before = .ok (x, between) ∧ (next x).run between = .ok (y, after) := by
  have hbind : (part.run before >>= fun p => (next p.1).run p.2) = .ok (y, after) := h
  obtain ⟨⟨x, between⟩, hpart, hnext⟩ := Except.bind_eq_ok_iff.mp hbind
  exact ⟨x, between, hpart, hnext⟩

theorem Yields.bind (hpart : Yields part property) (hnext : ∀ x, property x → Yields (next x) result) :
    Yields (part >>= next) result := by
  intro before after y hnamed h
  obtain ⟨x, between, hx, hy⟩ := run_bind_eq_ok h
  obtain ⟨first, rfl, hfirst, hproperty⟩ := hpart before between x hnamed hx
  obtain ⟨second, rfl, hsecond, hresult⟩ := hnext x hproperty between after y hnamed.right hy
  exact ⟨first ++ second, (List.append_assoc ..).symm, List.forall_mem_append.mpr ⟨hfirst, hsecond⟩, hresult⟩

theorem YieldsSome.yields (h : YieldsSome part property) : Yields part property := by
  intro before after x hnamed hrun
  obtain ⟨taken, _, htaken⟩ := h before after x hnamed hrun
  exact ⟨taken, htaken⟩

theorem YieldsSome.bind (hpart : YieldsSome part property)
    (hnext : ∀ x, property x → Yields (next x) result) : YieldsSome (part >>= next) result := by
  intro before after y hnamed h
  obtain ⟨x, between, hx, hy⟩ := run_bind_eq_ok h
  obtain ⟨first, hne, rfl, hfirst, hproperty⟩ := hpart before between x hnamed hx
  obtain ⟨second, rfl, hsecond, hresult⟩ := hnext x hproperty between after y hnamed.right hy
  exact ⟨first ++ second, List.append_ne_nil_of_left_ne_nil hne second, (List.append_assoc ..).symm,
    List.forall_mem_append.mpr ⟨hfirst, hsecond⟩, hresult⟩

theorem Yields.bindSome (hpart : Yields part property)
    (hnext : ∀ x, property x → YieldsSome (next x) result) : YieldsSome (part >>= next) result := by
  intro before after y hnamed h
  obtain ⟨x, between, hx, hy⟩ := run_bind_eq_ok h
  obtain ⟨first, rfl, hfirst, hproperty⟩ := hpart before between x hnamed hx
  obtain ⟨second, hne, rfl, hsecond, hresult⟩ := hnext x hproperty between after y hnamed.right hy
  exact ⟨first ++ second, List.append_ne_nil_of_right_ne_nil first hne, (List.append_assoc ..).symm,
    List.forall_mem_append.mpr ⟨hfirst, hsecond⟩, hresult⟩

theorem Yields.mono {weaker : α → Prop} (hpart : Yields part property)
    (h : ∀ x, property x → weaker x) : Yields part weaker := by
  intro before after x hnamed hrun
  obtain ⟨taken, hbefore, htaken, hproperty⟩ := hpart before after x hnamed hrun
  exact ⟨taken, hbefore, htaken, h x hproperty⟩

theorem yields_pure {x : α} (h : property x) : Yields (pure x) property := by
  intro before after y _ hrun
  cases hrun
  exact ⟨[], rfl, fun _ hmem => absurd hmem List.not_mem_nil, h⟩

theorem yields_throw (fault : Fault) : Yields (throw fault) property := by
  intro before after x _ hrun
  cases hrun

theorem Yields.ite {c : Prop} [Decidable c] {first second : Reader α} (hfirst : Yields first property)
    (hsecond : Yields second property) : Yields (if c then first else second) property := by
  split
  · exact hfirst
  · exact hsecond

end Chains

section Tokens

variable {part : Reader α} {property : α → Prop}

/-! ## Tokens -/

theorem yields_get : Yields get (fun _ => True) := by
  intro before after tokens _ h
  cases h
  exact ⟨[], rfl, fun _ hmem => absurd hmem List.not_mem_nil, trivial⟩

theorem yields_peek : Yields peek (fun _ => True) :=
  yields_get.bind fun _ _ => yields_pure trivial

theorem yields_nextIs (p : Punctuator) : Yields (nextIs p) (fun _ => True) :=
  yields_peek.bind fun _ _ => yields_pure trivial

theorem yields_nextIsKeyword (keyword : String) : Yields (nextIsKeyword keyword) (fun _ => True) :=
  yields_peek.bind fun _ _ => yields_pure trivial

theorem yields_refuse (token : Token) : Yields (refuse token) property :=
  yields_throw _

theorem yields_report (fault : Fault) : Yields (report fault) property := by
  refine yields_peek.bind fun next _ => ?_
  split
  · exact yields_throw _
  · exact yields_throw _

theorem yieldsSome_take :
    YieldsSome take (fun token => ∀ text, token = .name text → IsName text) := by
  intro before after token hnamed h
  cases before with
  | nil => cases h
  | cons first rest =>
    cases hreadable : first.isReadable with
    | true =>
      rw [run_take hreadable] at h
      cases h
      refine ⟨[token], List.cons_ne_nil token [], rfl, fun other hmem => ?_, fun text heq => ?_⟩
      · rwa [List.mem_singleton.mp hmem]
      · exact hnamed text (heq ▸ List.mem_cons_self)
    | false =>
      cases first with
      | unreadable shown => cases h
      | _ => cases hreadable

theorem yields_take : Yields take (fun token => ∀ text, token = .name text → IsName text) :=
  yieldsSome_take.yields

theorem Yields.discard (h : Yields part property) : Yields (discard part) (fun _ => True) := by
  intro before after y hnamed hrun
  have hbind : (part.run before >>= fun p => Except.ok (PUnit.unit, p.2)) = .ok (y, after) := hrun
  obtain ⟨⟨x, between⟩, hx, hy⟩ := Except.bind_eq_ok_iff.mp hbind
  obtain ⟨taken, hbefore, htaken, _⟩ := h before between x hnamed hx
  cases hy
  exact ⟨taken, hbefore, htaken, trivial⟩

theorem yields_expect (p : Punctuator) : Yields (expect p) (fun _ => True) :=
  yields_take.bind fun token _ => .ite (yields_pure trivial) (yields_refuse token)

theorem yields_skip (p : Punctuator) : Yields (skip p) (fun _ => True) :=
  (yields_nextIs p).bind fun _ _ => .ite yields_take.discard (yields_pure trivial)

theorem yields_name : Yields name IsName := by
  refine yields_take.bind fun token htoken => ?_
  split
  · next text => exact yields_pure (htoken text rfl)
  · exact yields_refuse _

theorem yields_expectKeyword (keyword : String) : Yields (expectKeyword keyword) (fun _ => True) :=
  yields_take.bind fun token _ => .ite (yields_pure trivial) (yields_refuse token)

end Tokens

/-! ## Repetition -/

section Repetition

variable {part : Reader α} {property : α → Prop}

theorem forall_mem_nil : ∀ x ∈ ([] : List α), property x :=
  fun _ hmem => absurd hmem List.not_mem_nil

theorem yields_manyUpTo (h : Yields part property) (starts : Token → Bool) (bound : List Token) :
    Yields (manyUpTo starts part bound) (fun xs => ∀ x ∈ xs, property x) := by
  induction bound with
  | nil => exact yields_pure forall_mem_nil
  | cons _ bound ih =>
    refine yields_peek.bind fun next _ => ?_
    cases next with
    | none => exact yields_pure forall_mem_nil
    | some token =>
      refine .ite (h.bind fun x hx => ih.bind fun xs hxs => ?_) (yields_pure forall_mem_nil)
      exact yields_pure (List.forall_mem_cons.mpr ⟨hx, hxs⟩)

theorem Yields.many (h : Yields part property) (starts : Token → Bool) :
    Yields (many starts part) (fun xs => ∀ x ∈ xs, property x) :=
  yields_get.bind fun bound _ => yields_manyUpTo h starts bound

theorem Yields.manyUntil (h : Yields part property) (closing : Punctuator) :
    Yields (manyUntil closing part) (fun xs => ∀ x ∈ xs, property x) :=
  (h.many _).bind fun _ hxs => (yields_expect closing).bind fun _ _ => yields_pure hxs

theorem Yields.enclosed (h : Yields part property) (opening closing : Punctuator) :
    Yields (enclosed opening closing part) (fun xs => ∀ x ∈ xs, property x) :=
  (yields_expect opening).bind fun _ _ => h.bind fun _ hx => (h.manyUntil closing).bind fun _ hxs =>
    yields_pure (List.forall_mem_cons.mpr ⟨hx, hxs⟩)

theorem Yields.enclosedIfAny (h : Yields part property) (opening closing : Punctuator) :
    Yields (enclosedIfAny opening closing part) (fun xs => ∀ x ∈ xs, property x) :=
  (yields_nextIs opening).bind fun _ _ => .ite (h.enclosed opening closing) (yields_pure forall_mem_nil)

theorem Yields.separated (h : Yields part property) (separator : Punctuator) :
    Yields (separated separator part) (fun xs => xs ≠ [] ∧ ∀ x ∈ xs, property x) := by
  have hnext : Yields (do expect separator; part) property :=
    (yields_expect separator).bind fun _ _ => h
  refine (yields_skip separator).bind fun _ _ => h.bind fun x hx => (hnext.many _).bind fun xs hxs => ?_
  exact yields_pure ⟨List.cons_ne_nil x xs, List.forall_mem_cons.mpr ⟨hx, hxs⟩⟩

theorem Yields.named (h : Yields part property) :
    Yields (named part) (fun member => IsName member.1 ∧ property member.2) :=
  yields_name.bind fun _ hkey => (yields_expect .colon).bind fun _ _ => h.bind fun _ hx =>
    yields_pure ⟨hkey, hx⟩

end Repetition

end Reader

/-! ## Values -/

theorem Value.itemsWellFormed_iff {items : List Value} :
    Value.ItemsWellFormed items ↔ ∀ item ∈ items, item.WellFormed := by
  induction items with
  | nil => exact ⟨fun _ _ hmem => absurd hmem List.not_mem_nil, fun _ => trivial⟩
  | cons item items ih => rw [Value.ItemsWellFormed, ih, List.forall_mem_cons]

theorem Value.membersWellFormed_iff {members : List (String × Value)} :
    Value.MembersWellFormed members ↔ ∀ member ∈ members, IsName member.1 ∧ member.2.WellFormed := by
  induction members with
  | nil => exact ⟨fun _ _ hmem => absurd hmem List.not_mem_nil, fun _ => trivial⟩
  | cons member members ih => rw [Value.MembersWellFormed, ih, List.forall_mem_cons]

namespace Reader

theorem yields_valueUpTo (bound : List Token) : Yields (valueUpTo bound) Value.WellFormed := by
  induction bound with
  | nil => exact yields_throw _
  | cons _ bound ih =>
    refine yields_take.bind fun token htoken => ?_
    split
    · exact yields_pure trivial
    · exact yields_pure trivial
    · exact yields_pure trivial
    · exact yields_pure trivial
    · exact yields_report _
    · exact yields_pure trivial
    · exact yields_pure trivial
    · exact yields_pure trivial
    · next text htrue hfalse hnull =>
      refine yields_pure ⟨htoken text rfl, ?_⟩
      rintro (_ | ⟨_, _ | ⟨_, _ | ⟨_, hmem⟩⟩⟩)
      · exact htrue rfl
      · exact hfalse rfl
      · exact hnull rfl
      · cases hmem
    · exact (ih.manyUntil .closeBracket).bind fun items hitems =>
        yields_pure (Value.itemsWellFormed_iff.mpr hitems)
    · exact (ih.named.many _).bind fun members hmembers => (yields_expect .closeBrace).bind fun _ _ =>
        yields_pure (Value.membersWellFormed_iff.mpr hmembers)
    · exact yields_name.bind fun _ _ => yields_report _
    · exact yields_refuse _

theorem yields_value : Yields value Value.WellFormed :=
  yields_get.bind fun bound _ => yields_valueUpTo bound

/-! ## Parts of definitions -/

theorem yields_description : Yields description (fun _ => True) := by
  refine yields_peek.bind fun next _ => ?_
  split
  · exact yields_take.discard.bind fun _ _ => yields_pure trivial
  · exact yields_take.discard.bind fun _ _ => yields_pure trivial
  · exact yields_take.discard.bind fun _ _ => yields_report _
  · exact yields_pure trivial

theorem yields_arguments : Yields arguments Value.MembersWellFormed :=
  (yields_nextIs .openParen).bind fun _ _ =>
    .ite (yields_take.discard.bind fun _ _ => (yields_value.named.many _).bind fun _ hmembers =>
      (yields_expect .closeParen).bind fun _ _ => yields_pure (Value.membersWellFormed_iff.mpr hmembers))
      (yields_pure trivial)

theorem yields_directive : Yields directive Directive.WellFormed :=
  (yields_expect .at).bind fun _ _ => yields_name.bind fun _ hname => yields_arguments.bind fun _ harguments =>
    yields_pure ⟨hname, harguments⟩

theorem yields_directives : Yields directives (fun ds => ∀ d ∈ ds, d.WellFormed) :=
  yields_directive.many _

end Reader

theorem TypeRef.wellFormed_asNonNull {type : TypeRef} (h : type.WellFormed) : type.asNonNull.WellFormed := by
  unfold TypeRef.asNonNull
  split
  · exact h
  · next hnot => exact ⟨Bool.eq_false_iff.mpr hnot, h⟩

theorem TypeRef.wellFormed_wrap {type : TypeRef} (h : type.WellFormed) (mark : Token) :
    (type.wrap mark).WellFormed := by
  unfold TypeRef.wrap
  split
  · exact wellFormed_asNonNull h
  · exact h

theorem TypeRef.wellFormed_foldl_wrap {type : TypeRef} (h : type.WellFormed) (marks : List Token) :
    (marks.foldl TypeRef.wrap type).WellFormed := by
  induction marks generalizing type with
  | nil => exact h
  | cons mark marks ih => exact ih (wellFormed_wrap h mark)

namespace Reader

theorem yields_type : Yields type TypeRef.WellFormed :=
  (yields_take.many _).discard.bind fun _ _ => yields_name.bind fun _ hname =>
    (yields_take.many _).bind fun marks _ =>
      yields_pure (TypeRef.wellFormed_foldl_wrap (show (TypeRef.named _).WellFormed from hname) marks)

theorem yields_default : Yields default (fun value => ∀ v ∈ value, v.WellFormed) := by
  refine (yields_nextIs .equals).bind fun _ _ => .ite ?_ (yields_pure fun _ h => nomatch h)
  refine yields_take.discard.bind fun _ _ => yields_value.bind fun value hvalue => yields_pure ?_
  intro v hv
  obtain rfl := Option.some.inj hv
  exact hvalue

theorem yields_inputField : Yields inputField InputField.WellFormed :=
  yields_description.bind fun _ _ => yields_name.bind fun _ hname => (yields_expect .colon).bind fun _ _ =>
    yields_type.bind fun _ htype => yields_default.bind fun _ hdefault =>
      yields_directives.bind fun _ hdirectives => yields_pure ⟨hname, htype, hdefault, hdirectives⟩

theorem yields_field : Yields field Field.WellFormed :=
  yields_description.bind fun _ _ => yields_name.bind fun _ hname =>
    (yields_inputField.enclosedIfAny _ _).bind fun _ harguments => (yields_expect .colon).bind fun _ _ =>
      yields_type.bind fun _ htype => yields_directives.bind fun _ hdirectives =>
        yields_pure ⟨hname, harguments, htype, hdirectives⟩

theorem yields_enumValue : Yields enumValue EnumValue.WellFormed := by
  refine yields_description.bind fun _ _ => yields_name.bind fun name hname => ?_
  dsimp only
  split
  · have hrefuse : Yields (refuse (.name name) : Reader PUnit) (fun _ => False) := yields_refuse _
    exact hrefuse.bind fun _ h => h.elim
  · next hword =>
    have hnot : name ∉ valueWords := fun hmem => hword (List.contains_iff_mem.mpr hmem)
    exact yields_directives.bind fun _ hdirectives => yields_pure ⟨hname, hnot, hdirectives⟩

theorem yields_names (separator : Punctuator) :
    Yields (separated separator name) (fun names => ∀ name ∈ names, IsName name) :=
  (yields_name.separated separator).mono fun _ h => h.2

theorem yields_interfaces : Yields interfaces (fun names => ∀ name ∈ names, IsName name) :=
  (yields_nextIsKeyword _).bind fun _ _ =>
    .ite (yields_take.discard.bind fun _ _ => yields_names .ampersand) (yields_pure forall_mem_nil)

theorem yields_location : Yields location (fun _ => True) := by
  refine yields_name.bind fun _ _ => ?_
  split
  · exact yields_pure trivial
  · exact yields_report _

theorem yields_rootOperation : Yields rootOperation (fun root => IsName root.2) := by
  refine yields_take.bind fun token _ => ?_
  have hname : ∀ operation : Operation,
      Yields (do expect .colon; return (operation, ← name)) (fun root => IsName root.2) := fun _ =>
    (yields_expect .colon).bind fun _ _ => yields_name.bind fun _ hname => yields_pure hname
  split
  · exact hname .query
  · exact hname .mutation
  · exact hname .subscription
  · exact yields_refuse token

/-! ## Definitions -/

theorem wellFormed_rootsOf {ds : List Directive} {operations : List (Operation × String)}
    (hds : ∀ d ∈ ds, d.WellFormed) (hoperations : ∀ root ∈ operations, IsName root.2) :
    (rootsOf ds operations).WellFormed := by
  have hlookup : ∀ operation, ∀ name ∈ operations.lookup operation, IsName name := by
    intro operation name hname
    obtain ⟨before, after, hsplit, _⟩ := List.lookup_eq_some_iff.mp hname
    exact hoperations (operation, name) (hsplit ▸ List.mem_append_right _ List.mem_cons_self)
  exact ⟨hds, hlookup .query, hlookup .mutation, hlookup .subscription⟩

theorem yields_rootOperations :
    Yields rootOperations (fun operations => ∀ root ∈ operations, IsName root.2) :=
  (yields_expect .openBrace).bind fun _ _ => yields_rootOperation.manyUntil .closeBrace

theorem yields_roots : Yields roots Roots.WellFormed :=
  yields_directives.bind fun _ hds => yields_rootOperations.bind fun _ hoperations =>
    yields_pure (wellFormed_rootsOf hds hoperations)

theorem yields_rootsExtension : Yields rootsExtension Roots.WellFormed :=
  yields_directives.bind fun _ hds => (yields_nextIs .openBrace).bind fun _ _ =>
    .ite (yields_rootOperations.bind fun _ hoperations => yields_pure (wellFormed_rootsOf hds hoperations))
      (yields_pure (wellFormed_rootsOf hds forall_mem_nil))

theorem yields_directiveDefinition : Yields directiveDefinition DirectiveDefinition.WellFormed := by
  refine (yields_expect .at).bind fun _ _ => yields_name.bind fun _ hname =>
    (yields_inputField.enclosedIfAny _ _).bind fun _ harguments =>
      (yields_nextIsKeyword _).bind fun _ _ => ?_
  have hlocations : ∀ found : List Location → DirectiveDefinition,
      (∀ locations ≠ [], (found locations).WellFormed) →
      Yields (do expectKeyword "on"; return found (← separated .pipe location))
        DirectiveDefinition.WellFormed := fun found hfound =>
    (yields_expectKeyword _).bind fun _ _ => (yields_location.separated .pipe).bind fun locations h =>
      yields_pure (hfound locations h.1)
  refine .ite (yields_take.discard.bind fun _ _ => ?_) ?_
  · exact hlocations _ fun _ hne => ⟨hname, harguments, hne⟩
  · exact hlocations _ fun _ hne => ⟨hname, harguments, hne⟩

section Types

variable (description : Option String)

theorem yields_scalarType : Yields (scalarType description) ScalarType.WellFormed :=
  yields_name.bind fun _ hname => yields_directives.bind fun _ hds => yields_pure ⟨hname, hds⟩

theorem yields_objectType : Yields (objectType description) ObjectType.WellFormed :=
  yields_name.bind fun _ hname => yields_interfaces.bind fun _ hinterfaces =>
    yields_directives.bind fun _ hds => (yields_field.enclosedIfAny _ _).bind fun _ hfields =>
      yields_pure ⟨hname, hinterfaces, hds, hfields⟩

theorem yields_unionType : Yields (unionType description) UnionType.WellFormed :=
  yields_name.bind fun _ hname => yields_directives.bind fun _ hds => (yields_nextIs .equals).bind fun _ _ =>
    .ite (yields_take.discard.bind fun _ _ => (yields_names .pipe).bind fun _ hmembers =>
        yields_pure ⟨hname, hds, hmembers⟩)
      (yields_pure ⟨hname, hds, forall_mem_nil⟩)

theorem yields_enumType : Yields (enumType description) EnumType.WellFormed :=
  yields_name.bind fun _ hname => yields_directives.bind fun _ hds =>
    (yields_enumValue.enclosedIfAny _ _).bind fun _ hvalues => yields_pure ⟨hname, hds, hvalues⟩

theorem yields_inputType : Yields (inputType description) InputType.WellFormed :=
  yields_name.bind fun _ hname => yields_directives.bind fun _ hds =>
    (yields_inputField.enclosedIfAny _ _).bind fun _ hfields => yields_pure ⟨hname, hds, hfields⟩

theorem yields_typeDefinition (keyword : Token) :
    Yields (typeDefinition description keyword) TypeDefinition.WellFormed := by
  unfold typeDefinition
  split
  · exact (yields_scalarType description).bind fun _ h => yields_pure h
  · exact (yields_objectType description).bind fun _ h => yields_pure h
  · exact (yields_objectType description).bind fun _ h => yields_pure h
  · exact (yields_unionType description).bind fun _ h => yields_pure h
  · exact (yields_enumType description).bind fun _ h => yields_pure h
  · exact (yields_inputType description).bind fun _ h => yields_pure h
  · exact yields_refuse _

end Types

/-! ## Documents -/

theorem yieldsSome_definition : YieldsSome definition Definition.WellFormed := by
  refine yields_description.bindSome fun description _ => yieldsSome_take.bind fun token _ => ?_
  split
  · exact yields_roots.bind fun _ h => yields_pure h
  · exact yields_directiveDefinition.bind fun _ h => yields_pure h
  · refine yields_take.bind fun token _ => ?_
    split
    · exact yields_rootsExtension.bind fun _ h => yields_pure h
    · exact (yields_typeDefinition description _).bind fun _ h => yields_pure h
  · exact (yields_typeDefinition description _).bind fun _ h => yields_pure h

/-- Parts that each take a token are read up to the end. -/
theorem after_manyUpTo_eq_nil {part : Reader α} {property : α → Prop} (h : YieldsSome part property)
    {bound before after : List Token} {xs : List α} (hnamed : Named before)
    (hbound : before.length ≤ bound.length)
    (hrun : (manyUpTo (fun _ => true) part bound).run before = .ok (xs, after)) : after = [] := by
  induction bound generalizing before xs with
  | nil =>
    cases hrun
    exact List.eq_nil_of_length_eq_zero (Nat.le_zero.mp hbound)
  | cons _ bound ih =>
    cases before with
    | nil =>
      cases hrun
      rfl
    | cons token rest =>
      have hsome : (do return (← part) :: (← manyUpTo (fun _ => true) part bound)).run
          (token :: rest) = .ok (xs, after) := hrun
      obtain ⟨x, between, hx, hothers⟩ := run_bind_eq_ok hsome
      obtain ⟨ys, last, hys, hpure⟩ := run_bind_eq_ok hothers
      obtain ⟨taken, hne, hsplit, _⟩ := h (token :: rest) between x hnamed hx
      cases hpure
      have hpositive := List.length_pos_iff.mpr hne
      have hlength : (token :: rest).length = taken.length + between.length := by
        rw [hsplit, List.length_append]
      have hrest : between.length ≤ bound.length := by
        have htotal : (token :: rest).length ≤ bound.length + 1 := hbound
        omega
      exact ih (hsplit ▸ hnamed).right hrest hys

theorem yields_document :
    Yields document (fun definitions => definitions ≠ [] ∧ ∀ d ∈ definitions, d.WellFormed) :=
  yieldsSome_definition.yields.bind fun _ hfirst =>
    (yieldsSome_definition.yields.many _).bind fun _ hothers =>
      yields_pure ⟨List.cons_ne_nil _ _, List.forall_mem_cons.mpr ⟨hfirst, hothers⟩⟩

/-- What a document is read as, whose tokens are read up to the last. -/
theorem document_sound {tokens after : List Token} {definitions : List Definition} (hnamed : Named tokens)
    (h : document.run tokens = .ok (definitions, after)) :
    Legible tokens ∧ definitions ≠ [] ∧ ∀ d ∈ definitions, d.WellFormed := by
  obtain ⟨taken, hsplit, hlegible, hdefinitions⟩ := yields_document tokens after definitions hnamed h
  obtain ⟨first, between, hfirst, hothers⟩ := run_bind_eq_ok h
  obtain ⟨others, last, hmany, hpure⟩ := run_bind_eq_ok hothers
  obtain ⟨_, hbefore, _, _⟩ := yieldsSome_definition.yields tokens between first hnamed hfirst
  cases hpure
  have hend : after = [] :=
    after_manyUpTo_eq_nil yieldsSome_definition (hbefore ▸ hnamed).right (Nat.le_refl _) hmany
  rw [hsplit, hend, List.append_nil]
  exact ⟨hlegible, hdefinitions⟩

end Reader

end AuditFields.Schema
