import AuditFields.Proofs.Schema.Printing.Texts
import AuditFields.Template.Printer

/-!
# Texts of templates are unambiguous

No two templates have the same text. A part of a text is `SelfDelimiting` if the whole says where the
part ends and what it was written for, whatever follows it: so are literals, look-ups of claims, operands
and, at each level of nesting, statements. A list of statements says where it ends only together with what
closes it (`Closes`): the end of a body is indented less than its statements, and no statement starts as
the end marker does.

The name of the block is written as it is, line feeds included, on both markers. If it could be read in
two ways, the longer reading would find the end of its first marker among the statements; but there a line
feed only comes after the last character of a statement line (`FeedsClosed`), and the marker ends in
another.
-/

namespace AuditFields

/-- No written form begins another one: what was written, and what follows, are known from the whole. -/
def SelfDelimiting {α : Type} (write : α → List Char) : Prop :=
  ∀ {first second : α} {after rest : List Char}, write first ++ after = write second ++ rest →
    first = second ∧ after = rest

/-! ## Literals -/

namespace Text

theorem selfDelimiting_quoted : SelfDelimiting fun text => (quoted text).toList := by
  intro text other after rest h
  simp only [toList_quoted] at h
  have hread := Quoted.decode?_encode_append text.toList after
  rw [h, Quoted.decode?_encode_append] at hread
  obtain ⟨htext, rfl⟩ := Prod.mk.inj (Option.some.inj hread)
  exact ⟨String.toList_inj.mp htext.symm, rfl⟩

end Text

/-! ## Expressions -/

theorem Operand.selfDelimiting_render : SelfDelimiting fun operand : Operand => operand.render.toList := by
  intro operand other after rest h
  rcases operand with _ | _ | (_ | _) <;> rcases other with _ | _ | (_ | _) <;>
    simp_all [Operand.render, RequestTemplate.identityVariable]

namespace RequestTemplate

theorem claimLookup_nil (fallback : Option String) :
    claimLookup fallback [] = fallback.elim "null" Text.quoted := rfl

theorem claimLookup_cons (fallback : Option String) (claim : String) (claims : List String) :
    claimLookup fallback (claim :: claims) =
      "$util.defaultIfNull($ctx.identity.claims.get(" ++ Text.quoted claim ++ "), " ++
        claimLookup fallback claims ++ ")" := rfl

theorem selfDelimiting_fallback :
    SelfDelimiting fun fallback : Option String => (claimLookup fallback []).toList := by
  intro fallback other after rest h
  cases fallback with
  | none =>
    cases other with
    | none => exact ⟨rfl, List.append_cancel_left h⟩
    | some text => simp [claimLookup_nil, Text.Quoted.encode] at h
  | some text =>
    cases other with
    | none => simp [claimLookup_nil, Text.Quoted.encode] at h
    | some text' =>
      have hquoted : (Text.quoted text).toList ++ after = (Text.quoted text').toList ++ rest := h
      obtain ⟨rfl, rfl⟩ := Text.selfDelimiting_quoted hquoted
      exact ⟨rfl, rfl⟩

theorem claimLookup_append_inj {fallback other : Option String} {claims others : List String}
    {after rest : List Char}
    (h : (claimLookup fallback claims).toList ++ after = (claimLookup other others).toList ++ rest) :
    fallback = other ∧ claims = others ∧ after = rest := by
  induction claims generalizing others after rest with
  | nil =>
    cases others with
    | nil =>
      obtain ⟨rfl, rfl⟩ := selfDelimiting_fallback h
      exact ⟨rfl, rfl, rfl⟩
    | cons claim others => cases fallback <;> simp [claimLookup_nil, claimLookup_cons, Text.Quoted.encode] at h
  | cons claim claims ih =>
    cases others with
    | nil => cases other <;> simp [claimLookup_nil, claimLookup_cons, Text.Quoted.encode] at h
    | cons claim' others =>
      simp only [claimLookup_cons, String.toList_append, List.append_assoc] at h
      obtain ⟨rfl, hlookup⟩ := Text.selfDelimiting_quoted (List.append_cancel_left h)
      obtain ⟨rfl, rfl, hafter⟩ := ih (List.append_cancel_left hlookup)
      exact ⟨rfl, rfl, List.append_cancel_left hafter⟩

theorem append_inj_of_all {p : Char → Bool} {first second : List Char} {c d : Char}
    {after rest : List Char} (hfirst : ∀ e ∈ first, p e = true) (hsecond : ∀ e ∈ second, p e = true)
    (hc : p c = false) (hd : p d = false) (h : first ++ c :: after = second ++ d :: rest) :
    first = second ∧ c :: after = d :: rest := by
  have hends : ∀ e ∈ (c :: after).head?, p e = false := by simpa using hc
  have hends' : ∀ e ∈ (d :: rest).head?, p e = false := by simpa using hd
  obtain ⟨htake, hdrop⟩ := span_append hfirst hends
  obtain ⟨htake', hdrop'⟩ := span_append hsecond hends'
  rw [h] at htake hdrop
  exact ⟨htake.symm.trans htake', hdrop.symm.trans hdrop'⟩

/-- The short form of a field and its look-up are not taken for one another: no name has a bracket. -/
theorem short_ne_lookup {name : String} (hname : Text.isName name.toList = true)
    (after rest : List Char) : name.toList ++ ' ' :: after ≠ "get(".toList ++ rest := by
  intro h
  have hget : name.toList ++ ' ' :: after = "get".toList ++ '(' :: rest := h
  have hchars := List.all_eq_true.mp (by decide : "get".toList.all Text.isNameChar = true)
  have hrest := (append_inj_of_all (Text.isNameChar_of_isName hname) hchars (by decide) (by decide) hget).2
  exact absurd (List.cons.inj hrest).1 (by decide)

theorem toList_inputField (field : String) :
    (Text.isName field.toList = true ∧
      (inputField field).toList = "$ctx.args.input.".toList ++ field.toList) ∨
    (inputField field).toList =
      "$ctx.args.input.".toList ++ ("get(".toList ++ ((Text.quoted field).toList ++ ")".toList)) := by
  unfold inputField
  split
  · next hname => exact Or.inl ⟨hname, String.toList_append⟩
  · exact Or.inr (by simp)

theorem inputField_append_inj {field other : String} {after rest : List Char}
    (h : (inputField field).toList ++ (" == true )".toList ++ after) =
      (inputField other).toList ++ (" == true )".toList ++ rest)) :
    field = other ∧ after = rest := by
  have hspace : ∀ cs, " == true )".toList ++ cs = ' ' :: ("== true )".toList ++ cs) := fun _ => rfl
  rw [hspace, hspace] at h
  rcases toList_inputField field with ⟨hname, hfield⟩ | hfield
  · rcases toList_inputField other with ⟨hname', hother⟩ | hother
    · rw [hfield, hother, List.append_assoc, List.append_assoc] at h
      obtain ⟨htext, hafter⟩ := append_inj_of_all (Text.isNameChar_of_isName hname)
        (Text.isNameChar_of_isName hname') (by decide) (by decide) (List.append_cancel_left h)
      exact ⟨String.toList_inj.mp htext, List.append_cancel_left (List.cons.inj hafter).2⟩
    · rw [hfield, hother, List.append_assoc, List.append_assoc, List.append_assoc] at h
      exact absurd (List.append_cancel_left h) (short_ne_lookup hname _ _)
  · rcases toList_inputField other with ⟨hname', hother⟩ | hother
    · rw [hfield, hother, List.append_assoc, List.append_assoc, List.append_assoc] at h
      exact absurd (List.append_cancel_left h).symm (short_ne_lookup hname' _ _)
    · simp only [hfield, hother, List.append_assoc] at h
      obtain ⟨rfl, hafter⟩ :=
        Text.selfDelimiting_quoted (List.append_cancel_left (List.append_cancel_left h))
      exact ⟨rfl, List.append_cancel_left (List.cons.inj (List.append_cancel_left hafter)).2⟩

/-! ## Statements -/

theorem toList_line (depth : Nat) (text : String) :
    (line depth text).toList = List.replicate (2 * depth) ' ' ++ (text.toList ++ ['\n']) := by
  simp [line, indentation]

/-- The characters that a statement starts with, up to the one that tells it from the others. -/
def opening : Statement → List Char
  | .identify _ _ => ['#', 's']
  | .demandIdentity => ['#', 'i', 'f', '(', ' ', '$', 'u']
  | .put _ _ => ['$']
  | .ifTrue _ _ => ['#', 'i', 'f', '(', ' ', '$', 'c']

theorem exists_render_eq (depth : Nat) (statement : Statement) :
    ∃ tail, (statement.render depth).toList =
      List.replicate (2 * depth) ' ' ++ (opening statement ++ tail) := by
  have literal : ∀ {cs : List Char}, (String.ofList cs).toList = cs := String.toList_ofList
  cases statement with
  | identify claims fallback =>
    have hstart : "#set( ".toList = opening (.identify claims fallback) ++ ['e', 't', '(', ' '] := literal
    simp only [Statement.render, String.toList_append, toList_line, List.append_assoc, hstart]
    exact ⟨_, rfl⟩
  | demandIdentity =>
    have hstart : "#if( $util.isNullOrEmpty(".toList = opening .demandIdentity ++
        "til.isNullOrEmpty(".toList := by simp [opening]
    simp only [Statement.render, String.toList_append, toList_line, List.append_assoc, hstart]
    exact ⟨_, rfl⟩
  | put field value =>
    have hstart : "$util.qr($ctx.args.input.put(".toList = opening (.put field value) ++
        "util.qr($ctx.args.input.put(".toList := by simp [opening]
    simp only [Statement.render, String.toList_append, toList_line, List.append_assoc, hstart]
    exact ⟨_, rfl⟩
  | ifTrue field body =>
    obtain ⟨rest, hrest⟩ : ∃ rest, (inputField field).toList = '$' :: 'c' :: rest := by
      rcases toList_inputField field with ⟨_, hfield⟩ | hfield
      · exact ⟨_, hfield⟩
      · exact ⟨_, hfield⟩
    have hstart : "#if( ".toList = ['#', 'i', 'f', '(', ' '] := literal
    simp only [Statement.render, String.toList_append, toList_line, List.append_assoc, hstart, hrest]
    exact ⟨_, rfl⟩

theorem exists_opening_eq {depth : Nat} {statement other : Statement} {after rest : List Char}
    (h : (statement.render depth).toList ++ after = (other.render depth).toList ++ rest) :
    ∃ tail tail', opening statement ++ tail = opening other ++ tail' := by
  obtain ⟨tail, htail⟩ := exists_render_eq depth statement
  obtain ⟨tail', htail'⟩ := exists_render_eq depth other
  simp only [htail, htail', List.append_assoc] at h
  exact ⟨_, _, List.append_cancel_left h⟩

/-- No statement of the level starts what follows. -/
def Closes (depth : Nat) (after : List Char) : Prop :=
  ∀ (statement : Statement) (rest : List Char), (statement.render depth).toList ++ rest ≠ after

/-- The end of a body closes it: it is indented less than the statements of the body. -/
theorem closes_end (depth : Nat) (after : List Char) :
    Closes (depth + 1) (List.replicate (2 * depth) ' ' ++ ("#end".toList ++ (['\n'] ++ after))) := by
  intro statement rest h
  obtain ⟨tail, htail⟩ := exists_render_eq (depth + 1) statement
  have hend : "#end".toList = ['#', 'e', 'n', 'd'] := String.toList_ofList
  rw [htail, hend, Nat.mul_add, ← List.replicate_append_replicate, List.append_assoc,
    List.append_assoc] at h
  have hstart := List.append_cancel_left h
  exact absurd (List.cons.inj hstart).1 (by decide)

theorem closes_marker (after : List Char) : Closes 0 ("## [End] ".toList ++ after) := by
  intro statement rest h
  obtain ⟨tail, htail⟩ := exists_render_eq 0 statement
  rw [htail] at h
  cases statement <;> simp [opening] at h

end RequestTemplate

open RequestTemplate

mutual

/-- The step: the text of a statement says where it ends and which statement it is. -/
theorem Statement.selfDelimiting_render (depth : Nat) :
    ∀ (statement other : Statement) {after rest : List Char},
      (statement.render depth).toList ++ after = (other.render depth).toList ++ rest →
        statement = other ∧ after = rest
  | .identify claims fallback, other, after, rest, h => by
    cases other with
    | identify claims' fallback' =>
      simp only [Statement.render, toList_line, String.toList_append, List.append_assoc,
        List.append_cancel_left_eq] at h
      obtain ⟨rfl, rfl, htail⟩ := claimLookup_append_inj h
      exact ⟨rfl, List.append_cancel_left (List.append_cancel_left htail)⟩
    | _ =>
      obtain ⟨tail, tail', htail⟩ := exists_opening_eq h
      simp [opening] at htail
  | .demandIdentity, other, after, rest, h => by
    cases other with
    | demandIdentity => exact ⟨rfl, List.append_cancel_left h⟩
    | _ =>
      obtain ⟨tail, tail', htail⟩ := exists_opening_eq h
      simp [opening] at htail
  | .put field value, other, after, rest, h => by
    cases other with
    | put field' value' =>
      simp only [Statement.render, toList_line, String.toList_append, List.append_assoc,
        List.append_cancel_left_eq] at h
      obtain ⟨rfl, hvalue⟩ := Text.selfDelimiting_quoted h
      obtain ⟨rfl, htail⟩ := Operand.selfDelimiting_render (List.append_cancel_left hvalue)
      exact ⟨rfl, List.append_cancel_left (List.append_cancel_left htail)⟩
    | _ =>
      obtain ⟨tail, tail', htail⟩ := exists_opening_eq h
      simp [opening] at htail
  | .ifTrue field body, other, after, rest, h => by
    cases other with
    | ifTrue field' body' =>
      simp only [Statement.render, toList_line, String.toList_append, List.append_assoc,
        List.append_cancel_left_eq] at h
      obtain ⟨rfl, hline⟩ := inputField_append_inj h
      obtain ⟨rfl, hend⟩ := Statement.renderAll_append_inj (depth + 1) body body' (closes_end depth _)
        (closes_end depth _) (List.append_cancel_left hline)
      simp only [List.append_cancel_left_eq] at hend
      exact ⟨rfl, hend⟩
    | _ =>
      obtain ⟨tail, tail', htail⟩ := exists_opening_eq h
      simp [opening] at htail

/-- The run: a text of statements says which they are, up to what closes it. -/
theorem Statement.renderAll_append_inj (depth : Nat) :
    ∀ (statements others : List Statement) {after rest : List Char},
      Closes depth after → Closes depth rest →
      (Statement.renderAll depth statements).toList ++ after =
        (Statement.renderAll depth others).toList ++ rest →
      statements = others ∧ after = rest
  | [], [], after, rest, _, _, h => ⟨rfl, List.append_cancel_left h⟩
  | [], other :: others, after, rest, hafter, _, h => by
    rw [Statement.renderAll, Statement.renderAll, String.toList_append, List.append_assoc] at h
    exact absurd h.symm (hafter other _)
  | statement :: statements, [], after, rest, _, hrest, h => by
    rw [Statement.renderAll, Statement.renderAll, String.toList_append, List.append_assoc] at h
    exact absurd h (hrest statement _)
  | statement :: statements, other :: others, after, rest, hafter, hrest, h => by
    rw [Statement.renderAll, Statement.renderAll, String.toList_append, String.toList_append,
      List.append_assoc, List.append_assoc] at h
    obtain ⟨rfl, htail⟩ := Statement.selfDelimiting_render depth statement other h
    obtain ⟨rfl, rfl⟩ := Statement.renderAll_append_inj depth statements others hafter hrest htail
    exact ⟨rfl, rfl⟩

end

/-! ## The name of the block -/

/-- Behind the character, every line feed comes right after the last character of a statement line. -/
def FeedsClosed (previous : Char) : List Char → Prop
  | [] => True
  | c :: cs => (c = '\n' → previous = ')' ∨ previous = 'd') ∧ FeedsClosed c cs

theorem feedsClosed_append {previous : Char} {first second : List Char} :
    FeedsClosed previous (first ++ second) ↔
      FeedsClosed previous first ∧ FeedsClosed (first.getLastD previous) second := by
  induction first generalizing previous with
  | nil => simp [FeedsClosed]
  | cons c first ih => rw [List.cons_append, FeedsClosed, FeedsClosed, ih, List.getLastD_cons, and_assoc]

theorem feedsClosed_of_not_mem {previous : Char} {cs : List Char} (h : '\n' ∉ cs) :
    FeedsClosed previous cs := by
  induction cs generalizing previous with
  | nil => trivial
  | cons c cs ih =>
    rw [List.mem_cons, not_or] at h
    exact ⟨fun heq => absurd heq.symm h.1, ih h.2⟩

theorem FeedsClosed.ne_append {previous : Char} {cs : List Char} (h : FeedsClosed previous cs)
    (before after : List Char) : cs ≠ before ++ '*' :: '\n' :: after := by
  rintro rfl
  have hfeed := (feedsClosed_append.mp h).2.2.1 rfl
  exact absurd hfeed (by decide)

@[simp]
theorem Text.not_mem_encode (cs : List Char) : '\n' ∉ Quoted.encode cs := by
  intro hmem
  cases Quoted.isControl_of_mem_encode hmem

theorem not_mem_ofList {cs : List Char} (h : '\n' ∉ cs) : '\n' ∉ (String.ofList cs).toList := by
  rwa [String.toList_ofList]

theorem Operand.not_mem_render (operand : Operand) : '\n' ∉ operand.render.toList := by
  rcases operand with _ | _ | (_ | _)
  · exact (not_mem_ofList (by decide) : '\n' ∉ "$util.time.nowEpochMilliSeconds()".toList)
  · exact (not_mem_ofList (by decide) : '\n' ∉ "$identityValue".toList)
  · exact (not_mem_ofList (by decide) : '\n' ∉ "false".toList)
  · exact (not_mem_ofList (by decide) : '\n' ∉ "true".toList)

namespace RequestTemplate

theorem not_mem_claimLookup (fallback : Option String) (claims : List String) :
    '\n' ∉ (claimLookup fallback claims).toList := by
  induction claims with
  | nil => cases fallback <;> simp [claimLookup_nil]
  | cons claim claims ih =>
    simp only [claimLookup_cons, String.toList_append, List.mem_append, not_or, Text.toList_quoted]
    exact ⟨⟨⟨⟨not_mem_ofList (by decide), Text.not_mem_encode _⟩, not_mem_ofList (by decide)⟩, ih⟩,
      not_mem_ofList (by decide)⟩

theorem not_mem_inputField (field : String) : '\n' ∉ (inputField field).toList := by
  rcases toList_inputField field with ⟨hname, hfield⟩ | hfield
  · have hchars := Text.isNameChar_of_isName hname
    rw [hfield, List.mem_append, not_or]
    exact ⟨not_mem_ofList (by decide), fun hmem => absurd (hchars _ hmem) (by decide)⟩
  · simp only [hfield, List.mem_append, not_or, Text.toList_quoted]
    exact ⟨not_mem_ofList (by decide), not_mem_ofList (by decide), Text.not_mem_encode _,
      not_mem_ofList (by decide)⟩

/-- The text ends as the line of a statement does, whatever stands before it. -/
def EndsLine (text : String) : Prop :=
  ∀ previous, FeedsClosed previous (text.toList ++ ['\n'])

theorem EndsLine.append {front back : String} (hback : EndsLine back) (hfront : '\n' ∉ front.toList) :
    EndsLine (front ++ back) := by
  intro previous
  rw [String.toList_append, List.append_assoc, feedsClosed_append]
  exact ⟨feedsClosed_of_not_mem hfront, hback _⟩

theorem EndsLine.feedsClosed {text : String} (h : EndsLine text) (depth : Nat) (previous : Char) :
    FeedsClosed previous (line depth text).toList := by
  rw [toList_line, feedsClosed_append]
  exact ⟨feedsClosed_of_not_mem (by simp), h _⟩

end RequestTemplate

mutual

theorem Statement.feedsClosed_render (depth : Nat) :
    ∀ (statement : Statement) (previous : Char),
      FeedsClosed previous (statement.render depth).toList
  | .identify claims fallback, previous => by
    have hclose : EndsLine " )" := fun _ => by simp [FeedsClosed]
    rw [Statement.render]
    refine (hclose.append ?_).feedsClosed depth previous
    simp only [String.toList_append, List.mem_append, not_or]
    exact ⟨⟨⟨not_mem_ofList (by decide), Operand.identity.not_mem_render⟩, not_mem_ofList (by decide)⟩,
      not_mem_claimLookup _ _⟩
  | .demandIdentity, previous => by
    have hcondition : EndsLine ") )" := fun _ => by simp [FeedsClosed]
    have herror : EndsLine "$util.error(\"Invalid identity.\")" := fun _ => by simp [FeedsClosed]
    have hend : EndsLine "#end" := fun _ => by simp [FeedsClosed]
    rw [Statement.render, String.toList_append, String.toList_append, feedsClosed_append, feedsClosed_append]
    refine ⟨⟨(hcondition.append ?_).feedsClosed depth previous, herror.feedsClosed _ _⟩, hend.feedsClosed _ _⟩
    simp only [String.toList_append, List.mem_append, not_or]
    exact ⟨not_mem_ofList (by decide), Operand.identity.not_mem_render⟩
  | .put field value, previous => by
    have hclose : EndsLine "))" := fun _ => by simp [FeedsClosed]
    rw [Statement.render]
    refine (hclose.append ?_).feedsClosed depth previous
    simp only [String.toList_append, List.mem_append, not_or, Text.toList_quoted]
    exact ⟨⟨⟨not_mem_ofList (by decide), Text.not_mem_encode _⟩, not_mem_ofList (by decide)⟩,
      value.not_mem_render⟩
  | .ifTrue field body, previous => by
    have hcondition : EndsLine " == true )" := fun _ => by simp [FeedsClosed]
    have hend : EndsLine "#end" := fun _ => by simp [FeedsClosed]
    rw [Statement.render, String.toList_append, String.toList_append, feedsClosed_append, feedsClosed_append]
    refine ⟨⟨(hcondition.append ?_).feedsClosed depth previous,
      Statement.feedsClosed_renderAll (depth + 1) body _⟩, hend.feedsClosed _ _⟩
    simp only [String.toList_append, List.mem_append, not_or]
    exact ⟨not_mem_ofList (by decide), not_mem_inputField field⟩

theorem Statement.feedsClosed_renderAll (depth : Nat) :
    ∀ (statements : List Statement) (previous : Char),
      FeedsClosed previous (Statement.renderAll depth statements).toList
  | [], _ => trivial
  | statement :: statements, previous => by
    rw [Statement.renderAll, String.toList_append, feedsClosed_append]
    exact ⟨Statement.feedsClosed_render depth statement previous,
      Statement.feedsClosed_renderAll depth statements _⟩

end

namespace RequestTemplate

/-- If the other name was longer, the first marker with it would end among the lines. -/
theorem length_le_of_feedsClosed {name other lines lines' marker marker' : List Char}
    (hclosed : FeedsClosed 'd' ('\n' :: lines)) (hmarker : marker.length = name.length + 13)
    (hmarker' : marker'.length = other.length + 13)
    (h : name ++ (['.', ' ', '*', '*', '\n'] ++ (lines ++ marker)) =
      other ++ (['.', ' ', '*', '*', '\n'] ++ (lines' ++ marker'))) : other.length ≤ name.length := by
  refine Nat.le_of_not_lt fun hlonger => ?_
  obtain ⟨more, rfl⟩ : name <+: other := by
    have hwhole := List.prefix_append other (['.', ' ', '*', '*', '\n'] ++ (lines' ++ marker'))
    rw [← h] at hwhole
    exact List.prefix_of_prefix_length_le (List.prefix_append _ _) hwhole (Nat.le_of_lt hlonger)
  rw [List.append_assoc] at h
  have hrest : ['.', ' ', '*', '*'] ++ '\n' :: lines ++ marker =
      more ++ ['.', ' ', '*'] ++ ['*', '\n'] ++ (lines' ++ marker') := by
    simpa using List.append_cancel_left h
  have hlengths := congrArg List.length hrest
  simp only [List.length_append, List.length_cons, List.length_nil] at hlengths hlonger hmarker'
  -- What follows the longer name is too long for all of it to stand behind the lines.
  obtain ⟨tail, htail⟩ :
      more ++ ['.', ' ', '*'] ++ ['*', '\n'] <+: ['.', ' ', '*', '*'] ++ '\n' :: lines := by
    have hwhole := List.prefix_append (more ++ ['.', ' ', '*'] ++ ['*', '\n']) (lines' ++ marker')
    rw [← hrest] at hwhole
    refine List.prefix_of_prefix_length_le hwhole (List.prefix_append _ _) ?_
    · simp only [List.length_append, List.length_cons, List.length_nil]
      omega
  obtain ⟨before, hbefore⟩ : ['.', ' ', '*', '*'] <+: more ++ ['.', ' ', '*'] := by
    refine List.prefix_of_prefix_length_le (List.prefix_append _ ('\n' :: lines)) ?_ ?_
    · rw [← htail, List.append_assoc]
      exact List.prefix_append _ _
    · simp only [List.length_append, List.length_cons, List.length_nil]
      omega
  rw [← hbefore, List.append_assoc, List.append_assoc] at htail
  exact hclosed.ne_append before tail (List.append_cancel_left htail).symm

/-- The end marker of a block. -/
def endMarker (block : String) : String :=
  "## [End] " ++ block ++ ". **"

theorem toList_endMarker (block : String) :
    (endMarker block).toList = "## [End] ".toList ++ (block.toList ++ ". **".toList) := by
  have hmarker : endMarker block = "## [End] " ++ block ++ ". **" := rfl
  rw [hmarker, String.toList_append, String.toList_append, List.append_assoc]

theorem length_endMarker (block : String) :
    (endMarker block).toList.length = block.toList.length + 13 := by
  simp [toList_endMarker]

theorem toList_render (template : RequestTemplate) :
    template.render.toList = "## [Start] ".toList ++ (template.block.toList ++
      (['.', ' ', '*', '*', '\n'] ++ ((Statement.renderAll 0 template.statements).toList ++
        (endMarker template.block).toList))) := by
  have hrender : template.render = "## [Start] " ++ template.block ++ ". **\n" ++
      Statement.renderAll 0 template.statements ++ "## [End] " ++ template.block ++ ". **" := rfl
  have hmarker : ". **\n".toList = ['.', ' ', '*', '*', '\n'] := rfl
  simp only [hrender, hmarker, toList_endMarker, String.toList_append, List.append_assoc]

/-- **No two templates have the same text.** -/
theorem render_inj {template other : RequestTemplate} : template.render = other.render ↔ template = other := by
  constructor
  · intro h
    have htext := congrArg String.toList h
    rw [toList_render, toList_render] at htext
    have hblocks := List.append_cancel_left htext
    have hclosed := fun statements : List Statement =>
      (⟨fun _ => Or.inr rfl, Statement.feedsClosed_renderAll 0 statements '\n'⟩ : FeedsClosed 'd' ('\n' :: _))
    have hlength := Nat.le_antisymm
      (length_le_of_feedsClosed (hclosed _) (length_endMarker _) (length_endMarker _) hblocks.symm)
      (length_le_of_feedsClosed (hclosed _) (length_endMarker _) (length_endMarker _) hblocks)
    obtain ⟨hblock, hrest⟩ := List.append_inj hblocks hlength
    have hstatements := List.append_cancel_left hrest
    rw [toList_endMarker, toList_endMarker] at hstatements
    have hsame := (Statement.renderAll_append_inj 0 _ _ (closes_marker _) (closes_marker _) hstatements).1
    obtain ⟨block, statements⟩ := template
    obtain ⟨block', statements'⟩ := other
    obtain rfl : block = block' := String.toList_inj.mp hblock
    obtain rfl : statements = statements' := hsame
    rfl
  · rintro rfl
    rfl

end RequestTemplate

end AuditFields
