import AuditFields.Proofs.Schema.Printing.Lexing
import AuditFields.Proofs.Schema.WellFormed

/-!
# The grammar of type references

A type reference is a name or a reference in brackets, either of them with or without an exclamation
mark. `Reference` is this grammar; a derivation has wrappers, outermost first, around a name. The reader
takes the wrappers off from the outside, a mark before a pair of brackets, and the grammar puts them on in
the other order. They meet in three equations, one for each kind of text: a text with a mark, a text in
brackets, and a name (`ofChars?_mark`, `ofChars?_brackets`, `ofChars?_name`).

A derivable text has no blank in it, so that nothing of a printed reference is trimmed.
-/

namespace AuditFields.Schema.TypeRef

/-! ## The grammar -/

mutual

/-- A name, or a reference in brackets. -/
inductive Nullable : List Char → List Wrapper → String → Prop
  | name {first : Char} {rest : List Char} (hfirst : first.isAlpha = true ∨ first = '_')
      (hrest : ∀ c ∈ rest, c.isAlphanum = true ∨ c = '_') :
      Nullable (first :: rest) [] (String.ofList (first :: rest))
  | list {text : List Char} {wrappers : List Wrapper} {name : String}
      (item : Reference text wrappers name) :
      Nullable ('[' :: (text ++ [']'])) (.list :: wrappers) name

/-- A nullable reference, with or without an exclamation mark. -/
inductive Reference : List Char → List Wrapper → String → Prop
  | nullable {text : List Char} {wrappers : List Wrapper} {name : String}
      (h : Nullable text wrappers name) : Reference text wrappers name
  | nonNull {text : List Char} {wrappers : List Wrapper} {name : String}
      (h : Nullable text wrappers name) : Reference (text ++ ['!']) (.nonNull :: wrappers) name

end

theorem isName_cons_iff {first : Char} {rest : List Char} :
    Text.isName (first :: rest) = true ↔
      (first.isAlpha = true ∨ first = '_') ∧ ∀ c ∈ rest, c.isAlphanum = true ∨ c = '_' := by
  simp [Text.isName, Text.isNameStart, Text.isNameChar]

theorem nullable_name {cs : List Char} (h : Text.isName cs = true) :
    Nullable cs [] (String.ofList cs) := by
  cases cs with
  | nil => cases h
  | cons first rest =>
    obtain ⟨hfirst, hrest⟩ := isName_cons_iff.mp h
    exact .name hfirst hrest

/-! ## Wrappers and names -/

/-- The reference with the wrappers, outermost first, around the name. -/
def wrapped (name : String) : List Wrapper → TypeRef
  | [] => .named name
  | .list :: wrappers => .list (wrapped name wrappers)
  | .nonNull :: wrappers => .nonNull (wrapped name wrappers)

theorem wrapped_wrappers (type : TypeRef) : wrapped type.baseName type.wrappers = type := by
  induction type with
  | named name => rfl
  | list item ih => exact congrArg TypeRef.list ih
  | nonNull nullable ih => exact congrArg TypeRef.nonNull ih

theorem wrappers_wrapped (name : String) (wrappers : List Wrapper) :
    (wrapped name wrappers).wrappers = wrappers := by
  induction wrappers with
  | nil => rfl
  | cons wrapper rest ih =>
    cases wrapper with
    | nonNull => exact congrArg (List.cons _) ih
    | list => exact congrArg (List.cons _) ih

theorem baseName_wrapped (name : String) (wrappers : List Wrapper) :
    (wrapped name wrappers).baseName = name := by
  induction wrappers with
  | nil => rfl
  | cons wrapper rest ih =>
    cases wrapper with
    | nonNull => exact ih
    | list => exact ih

theorem isNonNull_wrapped_of_nullable {text : List Char} {wrappers : List Wrapper} {name : String}
    (h : Nullable text wrappers name) : (wrapped name wrappers).isNonNull = false := by
  cases h with
  | name _ _ => rfl
  | list _ => rfl

/-! ## What the reader makes of a text -/

theorem ofChars?_mark (cs : List Char) :
    ofChars? (cs ++ ['!']) =
      (ofChars? cs).bind fun type => if type.isNonNull then none else some (.nonNull type) := by
  have hlast : (cs ++ ['!']).getLast? = some '!' := List.getLast?_concat
  have hdrop : (cs ++ ['!']).dropLast = cs := List.dropLast_concat
  cases hcs : cs ++ ['!'] with
  | nil => simp at hcs
  | cons c rest =>
    rw [hcs] at hlast hdrop
    rw [ofChars?, if_pos hlast, hdrop]
    cases ofChars? cs with
    | none => rfl
    | some type => rfl

theorem ofChars?_brackets (cs : List Char) :
    ofChars? ('[' :: (cs ++ [']'])) = (ofChars? cs).map .list := by
  have hlast : (cs ++ [']']).getLast? = some ']' := List.getLast?_concat
  have hmark : ('[' :: (cs ++ [']'])).getLast? ≠ some '!' := by
    have hwhole : ('[' :: cs ++ [']']).getLast? = some ']' := List.getLast?_concat
    intro h
    cases hwhole.symm.trans h
  rw [ofChars?, if_neg hmark, if_pos ⟨rfl, hlast⟩, List.dropLast_concat]

theorem ofChars?_name {cs : List Char} (h : Text.isName cs = true) :
    ofChars? cs = some (.named (String.ofList cs)) := by
  cases cs with
  | nil => cases h
  | cons first rest =>
    have hchars := Text.isNameChar_of_isName h
    have hmark : (first :: rest).getLast? ≠ some '!' := by
      intro hlast
      have hchar := hchars _ (List.mem_of_getLast? hlast)
      exact absurd hchar (by decide)
    have hbracket : ¬(first = '[' ∧ rest.getLast? = some ']') := by
      rintro ⟨rfl, -⟩
      exact absurd (hchars _ List.mem_cons_self) (by decide)
    rw [ofChars?, if_neg hmark, if_neg hbracket, if_pos h]

mutual

theorem Nullable.ofChars?_eq {text : List Char} {wrappers : List Wrapper} {name : String} :
    Nullable text wrappers name → ofChars? text = some (wrapped name wrappers)
  | .name hfirst hrest => ofChars?_name (isName_cons_iff.mpr ⟨hfirst, hrest⟩)
  | .list item => by
    rw [ofChars?_brackets, item.ofChars?_eq]
    rfl

theorem Reference.ofChars?_eq {text : List Char} {wrappers : List Wrapper} {name : String} :
    Reference text wrappers name → ofChars? text = some (wrapped name wrappers)
  | .nullable h => h.ofChars?_eq
  | .nonNull h => by
    rw [ofChars?_mark, h.ofChars?_eq, Option.bind_some, isNonNull_wrapped_of_nullable h]
    rfl

end

theorem Reference.nullable_of_isNonNull {text : List Char} {type : TypeRef}
    (h : Reference text type.wrappers type.baseName) (hmark : type.isNonNull = false) :
    Nullable text type.wrappers type.baseName := by
  cases type with
  | nonNull nullable => cases hmark
  | named name =>
    cases h with
    | nullable h => exact h
  | list item =>
    cases h with
    | nullable h => exact h

theorem reference_of_ofChars? {cs : List Char} {type : TypeRef} (h : ofChars? cs = some type) :
    Reference cs type.wrappers type.baseName := by
  fun_induction ofChars? cs generalizing type with
  | case1 => cases h
  | case2 c rest hlast inner hinner hmark ih => cases h
  | case3 c rest hlast inner hinner hmark ih =>
    obtain rfl := Option.some.inj h
    obtain ⟨text, htext⟩ := List.getLast?_eq_some_iff.mp hlast
    rw [htext, List.dropLast_concat] at hinner ih
    have hnullable := (ih hinner).nullable_of_isNonNull (Bool.eq_false_iff.mpr hmark)
    rw [htext]
    exact .nonNull hnullable
  | case4 c rest hlast hinner ih => cases h
  | case5 c rest hlast hbrackets ih =>
    obtain ⟨rfl, hend⟩ := hbrackets
    obtain ⟨item, hitem, rfl⟩ := Option.map_eq_some_iff.mp h
    obtain ⟨text, rfl⟩ := List.getLast?_eq_some_iff.mp hend
    rw [List.dropLast_concat] at hitem ih
    exact .nullable (.list (ih hitem))
  | case6 c rest hlast hbrackets hname =>
    obtain rfl := Option.some.inj h
    exact .nullable (nullable_name hname)
  | case7 c rest hlast hbrackets hname => cases h

/-- The reader accepts what the grammar derives, with its wrappers and its name. -/
theorem ofChars?_eq_some_iff {cs : List Char} {type : TypeRef} :
    ofChars? cs = some type ↔ Reference cs type.wrappers type.baseName := by
  refine ⟨reference_of_ofChars?, fun h => ?_⟩
  rw [h.ofChars?_eq, wrapped_wrappers]

/-! ## The text of a reference -/

theorem toList_render_of_reference {text : List Char} {type : TypeRef}
    (h : Reference text type.wrappers type.baseName) : type.render.toList = text := by
  induction type generalizing text with
  | named name =>
    cases h with
    | nullable h =>
      cases h with
      | name _ _ => exact String.toList_ofList
  | list item ih =>
    cases h with
    | nullable h =>
      cases h with
      | list hitem => simp [render, ih hitem]
  | nonNull nullable ih =>
    cases h with
    | nullable h => cases h
    | nonNull h => simp [render, ih (.nullable h)]

theorem reference_render {type : TypeRef} (hname : IsName type.baseName)
    (hmarks : ¬[Wrapper.nonNull, .nonNull] <:+: type.wrappers) :
    Reference type.render.toList type.wrappers type.baseName := by
  induction type with
  | named name =>
    have hself := nullable_name hname
    rw [String.ofList_toList] at hself
    exact .nullable hself
  | list item ih =>
    have hitem := ih hname fun hpair => hmarks (hpair.trans (List.suffix_cons _ _).isInfix)
    have htext : (TypeRef.list item).render.toList = '[' :: (item.render.toList ++ [']']) := by
      simp [render]
    rw [htext]
    exact .nullable (.list hitem)
  | nonNull nullable ih =>
    have hinner := ih hname fun hpair => hmarks (hpair.trans (List.suffix_cons _ _).isInfix)
    have hmark : nullable.isNonNull = false := by
      cases nullable with
      | nonNull inner =>
        have hdouble : [Wrapper.nonNull, .nonNull] <+: .nonNull :: .nonNull :: inner.wrappers :=
          ⟨inner.wrappers, rfl⟩
        exact absurd hdouble.isInfix hmarks
      | _ => rfl
    have htext : (TypeRef.nonNull nullable).render.toList = nullable.render.toList ++ ['!'] := by
      simp [render]
    rw [htext]
    exact .nonNull (hinner.nullable_of_isNonNull hmark)

mutual

theorem Nullable.isBlank_eq_false {text : List Char} {wrappers : List Wrapper} {name : String} :
    Nullable text wrappers name → ∀ c ∈ text, Text.isBlank c = false
  | .name hfirst hrest => fun c hmem =>
    Text.isBlank_eq_false_of_isNameChar
      (Text.isNameChar_of_isName (isName_cons_iff.mpr ⟨hfirst, hrest⟩) c hmem)
  | .list item => by
    simp only [List.forall_mem_cons, List.forall_mem_append, List.not_mem_nil, false_implies,
      implies_true, and_true]
    exact ⟨by decide, item.isBlank_eq_false, by decide⟩

theorem Reference.isBlank_eq_false {text : List Char} {wrappers : List Wrapper} {name : String} :
    Reference text wrappers name → ∀ c ∈ text, Text.isBlank c = false
  | .nullable h => h.isBlank_eq_false
  | .nonNull h => List.forall_mem_append.mpr
    ⟨h.isBlank_eq_false, List.forall_mem_singleton.mpr (by decide)⟩

end

/-- **The texts of type references are those of the grammar, and no other.** A text is read exactly if it
is derived once its outer blanks are off, and each derivation has the wrappers and the name of what is
read; printing that gives the text without the outer blanks. A reference with a name, in which no non-null
mark follows another one, is read back from its text. -/
theorem ofString?_grammar :
    (∀ text, (∃ type, ofString? text = some type) ↔
      ∃ wrappers name, Reference (Text.trim text.toList) wrappers name) ∧
    (∀ text type, ofString? text = some type →
      type.render.toList = Text.trim text.toList ∧
      ∀ wrappers name, Reference (Text.trim text.toList) wrappers name ↔
        wrappers = type.wrappers ∧ name = type.baseName) ∧
    ∀ type : TypeRef, IsName type.baseName → ¬[Wrapper.nonNull, .nonNull] <:+: type.wrappers →
      ofString? type.render = some type := by
  refine ⟨fun text => ?_, fun text type h => ⟨?_, fun wrappers name => ?_⟩, fun type hname hmarks => ?_⟩
  · constructor
    · rintro ⟨type, h⟩
      exact ⟨type.wrappers, type.baseName, ofChars?_eq_some_iff.mp h⟩
    · rintro ⟨wrappers, name, h⟩
      exact ⟨wrapped name wrappers, h.ofChars?_eq⟩
  · exact toList_render_of_reference (ofChars?_eq_some_iff.mp h)
  · constructor
    · intro hother
      obtain rfl := Option.some.inj (hother.ofChars?_eq.symm.trans h)
      exact ⟨(wrappers_wrapped name wrappers).symm, (baseName_wrapped name wrappers).symm⟩
    · rintro ⟨rfl, rfl⟩
      exact ofChars?_eq_some_iff.mp h
  · have hreference := reference_render hname hmarks
    rw [ofString?, Text.trim_eq_self hreference.isBlank_eq_false]
    exact ofChars?_eq_some_iff.mpr hreference

end AuditFields.Schema.TypeRef
