import AuditFields.Json.Reader
import AuditFields.Proofs.Text.Pieces

/-!
# What readers of JSON take

Each lemma says what a reader takes off the front of a text, which value it gives for it and which rest it
leaves (`Reads`), as a condition on the text. Objects are read in one way, whatever is made of their
members: first there is a list of members (`ObjectText`), and then they are folded from the left
(`reads_object_iff`). So a shape that is checked member by member while the text is read is a condition on
the value of the text.
-/

namespace AuditFields.Json

variable {α β σ : Type} {cs rest : List Char}

/-- The reader takes a value off the front of a text and leaves the rest. -/
def Reads (reader : Reader α) (cs : List Char) (x : α) (rest : List Char) : Prop :=
  reader.run cs = .ok (x, rest)

/-! ## Chains -/

theorem reads_pure {x y : α} : Reads (pure x) cs y rest ↔ y = x ∧ rest = cs := by
  constructor
  · rintro ⟨⟩
    exact ⟨rfl, rfl⟩
  · rintro ⟨rfl, rfl⟩
    rfl

theorem not_reads_throw {refusal : Refusal} {x : α} : ¬Reads (throw refusal) cs x rest :=
  fun h => nomatch h

theorem reads_bind {part : Reader α} {next : α → Reader β} {y : β} :
    Reads (part >>= next) cs y rest ↔ ∃ x mid, Reads part cs x mid ∧ Reads (next x) mid y rest := by
  have hrun : (part >>= next).run cs = part.run cs >>= fun p => (next p.1).run p.2 := rfl
  unfold Reads
  rw [hrun]
  cases part.run cs with
  | error refusal =>
    constructor
    · rintro ⟨⟩
    · rintro ⟨_, _, ⟨⟩, _⟩
  | ok p =>
    constructor
    · intro h
      exact ⟨p.1, p.2, rfl, h⟩
    · rintro ⟨_, _, ⟨⟩, h⟩
      exact h

theorem reads_discard {part : Reader α} {u : PUnit} :
    Reads (discard part) cs u rest ↔ ∃ x, Reads part cs x rest := by
  have hdiscard : discard part = part >>= fun _ => pure PUnit.unit := rfl
  rw [hdiscard, reads_bind]
  constructor
  · rintro ⟨x, mid, hpart, ⟨⟩⟩
    exact ⟨x, hpart⟩
  · rintro ⟨x, hpart⟩
    exact ⟨x, rest, hpart, rfl⟩

theorem reads_ite {condition : Prop} [Decidable condition] {part other : Reader α} {x : α} :
    Reads (if condition then part else other) cs x rest ↔
      (condition ∧ Reads part cs x rest) ∨ (¬condition ∧ Reads other cs x rest) := by
  by_cases h : condition
  · simp [h]
  · simp [h]

/-! ## Characters -/

namespace Reader

theorem reads_modify {f : List Char → List Char} {u : PUnit} :
    Reads (modify f) cs u rest ↔ rest = f cs := by
  constructor
  · rintro ⟨⟩
    rfl
  · rintro rfl
    rfl

theorem reads_skipSpace {u : Unit} : Reads skipSpace cs u rest ↔ rest = cs.dropWhile isSpace :=
  reads_modify

theorem reads_skipSpace_then {next : Reader α} {x : α} :
    Reads (do skipSpace; next) cs x rest ↔ Reads next (cs.dropWhile isSpace) x rest :=
  Iff.rfl

theorem reads_get_then {next : List Char → Reader α} {x : α} :
    Reads (do next (← get)) cs x rest ↔ Reads (next cs) cs x rest :=
  Iff.rfl

theorem reads_set_then {text : List Char} {x y : α} :
    Reads (do set text; return x) cs y rest ↔ y = x ∧ rest = text :=
  reads_pure

theorem reads_take {c : Char} : Reads take cs c rest ↔ cs = c :: rest := by
  cases cs with
  | nil =>
    constructor
    · rintro ⟨⟩
    · rintro ⟨⟩
  | cons head tail =>
    constructor
    · rintro ⟨⟩
      rfl
    · rintro ⟨⟩
      rfl

theorem reads_discard_take {u : PUnit} : Reads (discard take) cs u rest ↔ ∃ c, cs = c :: rest := by
  simp only [reads_discard, reads_take]

theorem reads_take_then {c : Char} {next : Reader α} {x : α} :
    Reads (do if (← take) = c then next else malformed) cs x rest ↔
      ∃ tail, cs = c :: tail ∧ Reads next tail x rest := by
  rw [reads_bind]
  simp only [reads_take, reads_ite]
  constructor
  · rintro ⟨head, tail, rfl, ⟨rfl, hnext⟩ | ⟨_, hmalformed⟩⟩
    · exact ⟨tail, rfl, hnext⟩
    · exact absurd hmalformed not_reads_throw
  · rintro ⟨tail, rfl, hnext⟩
    exact ⟨c, tail, rfl, Or.inl ⟨rfl, hnext⟩⟩

theorem reads_expect {c : Char} {u : Unit} :
    Reads (expect c) cs u rest ↔ cs.dropWhile isSpace = c :: rest := by
  rw [expect, reads_bind]
  simp only [reads_skipSpace, reads_take_then, reads_pure]
  constructor
  · rintro ⟨_, _, rfl, tail, htail, _, rfl⟩
    exact htail
  · intro h
    exact ⟨(), _, rfl, rest, h, trivial, rfl⟩

theorem reads_word {text : List Char} {u : Unit} : Reads (word text) cs u rest ↔ cs = text ++ rest := by
  induction text generalizing cs with
  | nil =>
    rw [word, reads_pure, List.nil_append]
    exact ⟨fun h => h.2.symm, fun h => ⟨rfl, h.symm⟩⟩
  | cons c text ih =>
    rw [word, reads_take_then]
    simp only [ih]
    constructor
    · rintro ⟨_, rfl, rfl⟩
      rfl
    · rintro rfl
      exact ⟨_, rfl, rfl⟩

theorem reads_stringRest {s : String} :
    Reads stringRest cs s rest ↔ ∃ body, stringBody? cs cs = some (body, rest) ∧ s = String.ofList body := by
  rw [stringRest, reads_get_then]
  cases stringBody? cs cs with
  | none => exact iff_of_false not_reads_throw fun ⟨_, h, _⟩ => nomatch h
  | some found =>
    rw [reads_set_then]
    constructor
    · rintro ⟨rfl, rfl⟩
      exact ⟨found.1, rfl, rfl⟩
    · rintro ⟨_, ⟨⟩, rfl⟩
      exact ⟨rfl, rfl⟩

theorem reads_number {negative : Bool} {v : Json} :
    Reads (number negative) cs v rest ↔ Number.read negative cs = some (v, rest) := by
  rw [number, reads_get_then]
  cases Number.read negative cs with
  | none => exact iff_of_false not_reads_throw fun h => nomatch h
  | some found =>
    rw [reads_set_then]
    constructor
    · rintro ⟨rfl, rfl⟩
      rfl
    · rintro ⟨⟩
      exact ⟨rfl, rfl⟩

/-! ## Scalars -/

theorem exists_digit_of_read {negative : Bool} {v : Json} (h : Number.read negative cs = some (v, rest)) :
    ∃ c tail, cs = c :: tail ∧ c.isDigit = true := by
  cases cs with
  | nil => cases h
  | cons c tail =>
    by_cases hdigit : c.isDigit = true
    · exact ⟨c, tail, rfl, hdigit⟩
    · rw [Number.read, List.takeWhile_cons_of_neg hdigit] at h
      cases h

theorem reads_peek_then {next : Option Char → Reader α} {x : α} :
    Reads (do next (← peek)) cs x rest ↔ Reads (next cs.head?) cs x rest :=
  Iff.rfl

theorem reads_scalar_cases {v : Json} (h : Reads scalar cs v rest) :
    (v = .null ∧ cs = ['n', 'u', 'l', 'l'] ++ rest) ∨
    (v = .bool true ∧ cs = ['t', 'r', 'u', 'e'] ++ rest) ∨
    (v = .bool false ∧ cs = ['f', 'a', 'l', 's', 'e'] ++ rest) ∨
    (∃ tail s, cs = '"' :: tail ∧ Reads stringRest tail s rest ∧ v = .string s) ∨
    (∃ tail, cs = '-' :: tail ∧ Number.read true tail = some (v, rest)) ∨
    Number.read false cs = some (v, rest) := by
  have hhead : ∀ {c : Char}, cs.head? = some c → ∃ tail, cs = c :: tail := List.head?_eq_some_iff.mp
  rw [scalar, reads_peek_then] at h
  split at h
  · obtain ⟨_, _, hword, hpure⟩ := reads_bind.mp h
    obtain ⟨rfl, rfl⟩ := reads_pure.mp hpure
    exact .inl ⟨rfl, reads_word.mp hword⟩
  · obtain ⟨_, _, hword, hpure⟩ := reads_bind.mp h
    obtain ⟨rfl, rfl⟩ := reads_pure.mp hpure
    exact .inr (.inl ⟨rfl, reads_word.mp hword⟩)
  · obtain ⟨_, _, hword, hpure⟩ := reads_bind.mp h
    obtain ⟨rfl, rfl⟩ := reads_pure.mp hpure
    exact .inr (.inr (.inl ⟨rfl, reads_word.mp hword⟩))
  · next hquote =>
    obtain ⟨tail, rfl⟩ := hhead hquote
    obtain ⟨_, _, htake, hbody⟩ := reads_bind.mp h
    obtain ⟨_, hcons⟩ := reads_discard_take.mp htake
    obtain ⟨_, rfl⟩ := List.cons.inj hcons
    obtain ⟨s, _, hstring, hpure⟩ := reads_bind.mp hbody
    obtain ⟨rfl, rfl⟩ := reads_pure.mp hpure
    exact .inr (.inr (.inr (.inl ⟨tail, s, rfl, hstring, rfl⟩)))
  · next hminus =>
    obtain ⟨tail, rfl⟩ := hhead hminus
    obtain ⟨_, _, htake, hnumber⟩ := reads_bind.mp h
    obtain ⟨_, hcons⟩ := reads_discard_take.mp htake
    obtain ⟨_, rfl⟩ := List.cons.inj hcons
    exact .inr (.inr (.inr (.inr (.inl ⟨tail, rfl, reads_number.mp hnumber⟩))))
  · exact .inr (.inr (.inr (.inr (.inr (reads_number.mp h)))))

theorem reads_scalar_null : Reads scalar (['n', 'u', 'l', 'l'] ++ rest) .null rest := rfl

theorem reads_scalar_true : Reads scalar (['t', 'r', 'u', 'e'] ++ rest) (.bool true) rest := rfl

theorem reads_scalar_false : Reads scalar (['f', 'a', 'l', 's', 'e'] ++ rest) (.bool false) rest := rfl

theorem reads_scalar_string {s : String} (h : Reads stringRest cs s rest) :
    Reads scalar ('"' :: cs) (.string s) rest := by
  have hbody : Reads (do return Json.string (← stringRest)) cs (.string s) rest :=
    reads_bind.mpr ⟨s, rest, h, rfl⟩
  exact hbody

theorem reads_scalar_negative {v : Json} (h : Number.read true cs = some (v, rest)) :
    Reads scalar ('-' :: cs) v rest :=
  reads_number.mpr h

theorem reads_scalar_number {v : Json} (h : Number.read false cs = some (v, rest)) :
    Reads scalar cs v rest := by
  obtain ⟨c, tail, rfl, hdigit⟩ := exists_digit_of_read h
  have hne : ∀ {other : Char}, other.isDigit = false → (c :: tail).head? ≠ some other :=
    fun hother hhead => ne_of_isDigit hdigit hother (Option.some.inj hhead)
  rw [scalar, reads_peek_then]
  split
  · next hhead => exact absurd hhead (hne (by decide))
  · next hhead => exact absurd hhead (hne (by decide))
  · next hhead => exact absurd hhead (hne (by decide))
  · next hhead => exact absurd hhead (hne (by decide))
  · next hhead => exact absurd hhead (hne (by decide))
  · exact reads_number.mpr h

/-! ## Arrays -/

theorem reads_moreItems_iff {item : Reader Json} {c : Char} {bound : List Char} {items : List Json} :
    Reads (moreItems item (c :: bound)) cs items rest ↔
      (cs.dropWhile isSpace = ']' :: rest ∧ items = []) ∨
      ∃ tail first mid others, cs.dropWhile isSpace = ',' :: tail ∧ Reads item tail first mid ∧
        Reads (moreItems item bound) mid others rest ∧ items = first :: others := by
  rw [moreItems, reads_skipSpace_then]
  constructor
  · intro h
    obtain ⟨mark, tail, htake, hmark⟩ := reads_bind.mp h
    have hspace := reads_take.mp htake
    split at hmark
    · obtain ⟨rfl, rfl⟩ := reads_pure.mp hmark
      exact Or.inl ⟨hspace, rfl⟩
    · obtain ⟨first, mid, hfirst, h⟩ := reads_bind.mp hmark
      obtain ⟨others, _, hothers, hpure⟩ := reads_bind.mp h
      obtain ⟨rfl, rfl⟩ := reads_pure.mp hpure
      exact Or.inr ⟨tail, first, mid, others, hspace, hfirst, hothers, rfl⟩
    · exact absurd hmark not_reads_throw
  · rintro (⟨hspace, rfl⟩ | ⟨tail, first, mid, others, hspace, hfirst, hothers, rfl⟩)
    · exact reads_bind.mpr ⟨']', rest, reads_take.mpr hspace, rfl⟩
    · refine reads_bind.mpr ⟨',', tail, reads_take.mpr hspace, ?_⟩
      exact reads_bind.mpr ⟨first, mid, hfirst, reads_bind.mpr ⟨others, rest, hothers, rfl⟩⟩

theorem not_reads_moreItems_nil {item : Reader Json} {items : List Json} :
    ¬Reads (moreItems item []) cs items rest :=
  not_reads_throw

theorem reads_items_iff {item : Reader Json} {items : List Json} :
    Reads (Reader.items item) cs items rest ↔
      (cs.dropWhile isSpace = ']' :: rest ∧ items = []) ∨
      ∃ first mid others, (cs.dropWhile isSpace).head? ≠ some ']' ∧
        Reads item (cs.dropWhile isSpace) first mid ∧ Reads (moreItems item mid) mid others rest ∧
        items = first :: others := by
  rw [Reader.items, reads_skipSpace_then, reads_peek_then]
  constructor
  · intro h
    rcases reads_ite.mp h with ⟨hclose, h⟩ | ⟨hopen, h⟩
    · obtain ⟨_, _, htake, hpure⟩ := reads_bind.mp h
      obtain ⟨c, hspace⟩ := reads_discard_take.mp htake
      obtain ⟨rfl, rfl⟩ := reads_pure.mp hpure
      rw [hspace] at hclose
      cases hclose
      exact Or.inl ⟨hspace, rfl⟩
    · obtain ⟨first, mid, hfirst, h⟩ := reads_bind.mp h
      rw [reads_get_then] at h
      obtain ⟨others, _, hothers, hpure⟩ := reads_bind.mp h
      obtain ⟨rfl, rfl⟩ := reads_pure.mp hpure
      exact Or.inr ⟨first, mid, others, hopen, hfirst, hothers, rfl⟩
  · rintro (⟨hspace, rfl⟩ | ⟨first, mid, others, hopen, hfirst, hothers, rfl⟩)
    · rw [if_pos (by rw [hspace]; rfl)]
      exact reads_bind.mpr ⟨⟨⟩, rest, reads_discard_take.mpr ⟨_, hspace⟩, rfl⟩
    · rw [if_neg hopen]
      refine reads_bind.mpr ⟨first, mid, hfirst, ?_⟩
      rw [reads_get_then]
      exact reads_bind.mpr ⟨others, rest, hothers, rfl⟩

/-! ## Objects -/

/-- Takes the quote and the name of a member. -/
def memberName : Reader String := do
  expect '"'
  stringRest

/-- Takes the colon and the value of a member. -/
def memberValue (depth : Nat) : Reader Json := do
  expect ':'
  value depth

/-- A member of the text: its name and its value. -/
def Member (depth : Nat) (cs : List Char) (member : String × Json) (rest : List Char) : Prop :=
  ∃ mid, Reads memberName cs member.1 mid ∧ Reads (memberValue depth) mid member.2 rest

/-- The further members of an object up to its brace, at most one for each character of the bound. -/
inductive MoreMembers (depth : Nat) :
    List Char → List Char → List (String × Json) → List Char → Prop where
  | close {c : Char} {bound cs rest : List Char} (h : cs.dropWhile isSpace = '}' :: rest) :
      MoreMembers depth (c :: bound) cs [] rest
  | next {c : Char} {bound cs tail mid rest : List Char} {first : String × Json}
      {others : List (String × Json)} (h : cs.dropWhile isSpace = ',' :: tail)
      (hfirst : Member depth tail first mid) (hothers : MoreMembers depth bound mid others rest) :
      MoreMembers depth (c :: bound) cs (first :: others) rest

/-- The members of an object after its brace. -/
inductive Members (depth : Nat) : List Char → List (String × Json) → List Char → Prop where
  | empty {cs rest : List Char} (h : cs.dropWhile isSpace = '}' :: rest) : Members depth cs [] rest
  | some {cs mid rest : List Char} {first : String × Json} {others : List (String × Json)}
      (h : (cs.dropWhile isSpace).head? ≠ some '}')
      (hfirst : Member depth (cs.dropWhile isSpace) first mid)
      (hothers : MoreMembers depth mid mid others rest) : Members depth cs (first :: others) rest

/-- What is made of a member is a function of its name and its value. -/
def Folds (depth : Nat) (member : String → σ → Reader σ) (step : String → Json → σ → Option σ) : Prop :=
  ∀ {name : String} {state after : σ} {cs rest : List Char},
    Reads (member name state) cs after rest ↔
      ∃ v, Reads (memberValue depth) cs v rest ∧ step name v state = some after

/-- Members folded from the left. -/
def foldMembers (step : String → Json → σ → Option σ) (members : List (String × Json)) (state : σ) :
    Option σ :=
  members.foldlM (fun state member => step member.1 member.2 state) state

variable {depth : Nat} {member : String → σ → Reader σ} {step : String → Json → σ → Option σ}

theorem foldMembers_nil {state after : σ} : foldMembers step [] state = some after ↔ after = state := by
  rw [foldMembers, List.foldlM_nil]
  exact Option.some_inj.trans eq_comm

theorem foldMembers_cons {first : String × Json} {others : List (String × Json)} {state after : σ} :
    foldMembers step (first :: others) state = some after ↔
      ∃ next, step first.1 first.2 state = some next ∧ foldMembers step others next = some after := by
  rw [foldMembers, List.foldlM_cons]
  exact Option.bind_eq_some_iff

theorem reads_oneMember_iff (h : Folds depth member step) {state after : σ} :
    Reads (oneMember member state) cs after rest ↔
      ∃ first, Member depth cs first rest ∧ step first.1 first.2 state = some after := by
  constructor
  · intro hmember
    obtain ⟨_, start, hquote, hrest⟩ := reads_bind.mp hmember
    obtain ⟨name, mid, hname, hvalue⟩ := reads_bind.mp hrest
    obtain ⟨v, hread, hstep⟩ := h.mp hvalue
    exact ⟨(name, v), ⟨mid, reads_bind.mpr ⟨_, start, hquote, hname⟩, hread⟩, hstep⟩
  · rintro ⟨⟨name, v⟩, ⟨mid, hname, hread⟩, hstep⟩
    obtain ⟨_, start, hquote, hrest⟩ := reads_bind.mp hname
    exact reads_bind.mpr ⟨_, start, hquote, reads_bind.mpr ⟨name, mid, hrest, h.mpr ⟨v, hread, hstep⟩⟩⟩

/-- Whatever is made of members, they are the same ones. -/
theorem reads_moreMembers_iff (h : Folds depth member step) {bound : List Char} {state after : σ} :
    Reads (moreMembers member bound state) cs after rest ↔
      ∃ members, MoreMembers depth bound cs members rest ∧
        foldMembers step members state = some after := by
  induction bound generalizing cs state with
  | nil => exact iff_of_false not_reads_throw fun ⟨_, hmore, _⟩ => nomatch hmore
  | cons c bound ih =>
    rw [moreMembers, reads_skipSpace_then]
    constructor
    · intro hrest
      obtain ⟨mark, tail, htake, hmark⟩ := reads_bind.mp hrest
      have hspace := reads_take.mp htake
      split at hmark
      · obtain ⟨rfl, rfl⟩ := reads_pure.mp hmark
        exact ⟨[], .close hspace, foldMembers_nil.mpr rfl⟩
      · obtain ⟨next, mid, hone, hothers⟩ := reads_bind.mp hmark
        obtain ⟨first, hfirst, hstep⟩ := (reads_oneMember_iff h).mp hone
        obtain ⟨others, hmore, hfold⟩ := ih.mp hothers
        exact ⟨first :: others, .next hspace hfirst hmore, foldMembers_cons.mpr ⟨next, hstep, hfold⟩⟩
      · exact absurd hmark not_reads_throw
    · rintro ⟨members, hmore, hfold⟩
      cases hmore with
      | close hspace =>
        refine reads_bind.mpr ⟨'}', rest, reads_take.mpr hspace, ?_⟩
        exact reads_pure.mpr ⟨foldMembers_nil.mp hfold, rfl⟩
      | next hspace hfirst hothers =>
        obtain ⟨next, hstep, hrest⟩ := foldMembers_cons.mp hfold
        refine reads_bind.mpr ⟨',', _, reads_take.mpr hspace, ?_⟩
        exact reads_bind.mpr ⟨next, _, (reads_oneMember_iff h).mpr ⟨_, hfirst, hstep⟩,
          ih.mpr ⟨_, hothers, hrest⟩⟩

theorem reads_members_iff (h : Folds depth member step) {state after : σ} :
    Reads (Reader.members member state) cs after rest ↔
      ∃ members, Members depth cs members rest ∧ foldMembers step members state = some after := by
  rw [Reader.members, reads_skipSpace_then, reads_peek_then]
  constructor
  · intro hrest
    rcases reads_ite.mp hrest with ⟨hclose, hrest⟩ | ⟨hopen, hrest⟩
    · obtain ⟨_, _, htake, hpure⟩ := reads_bind.mp hrest
      obtain ⟨c, hspace⟩ := reads_discard_take.mp htake
      obtain ⟨rfl, rfl⟩ := reads_pure.mp hpure
      rw [hspace] at hclose
      cases hclose
      exact ⟨[], .empty hspace, foldMembers_nil.mpr rfl⟩
    · obtain ⟨next, mid, hone, hothers⟩ := reads_bind.mp hrest
      rw [reads_get_then] at hothers
      obtain ⟨first, hfirst, hstep⟩ := (reads_oneMember_iff h).mp hone
      obtain ⟨others, hmore, hfold⟩ := (reads_moreMembers_iff h).mp hothers
      exact ⟨first :: others, .some hopen hfirst hmore, foldMembers_cons.mpr ⟨next, hstep, hfold⟩⟩
  · rintro ⟨members, hmembers, hfold⟩
    cases hmembers with
    | empty hspace =>
      rw [if_pos (by rw [hspace]; rfl)]
      refine reads_bind.mpr ⟨⟨⟩, rest, reads_discard_take.mpr ⟨_, hspace⟩, ?_⟩
      exact reads_pure.mpr ⟨foldMembers_nil.mp hfold, rfl⟩
    | some hopen hfirst hothers =>
      obtain ⟨next, hstep, hrest⟩ := foldMembers_cons.mp hfold
      rw [if_neg hopen]
      refine reads_bind.mpr ⟨next, _, (reads_oneMember_iff h).mpr ⟨_, hfirst, hstep⟩, ?_⟩
      rw [reads_get_then]
      exact (reads_moreMembers_iff h).mpr ⟨_, hothers, hrest⟩

/-! ## Values -/

/-- The text of an object: after its brace, the members. -/
def ObjectText (depth : Nat) (cs : List Char) (members : List (String × Json)) (rest : List Char) : Prop :=
  ∃ tail, cs.dropWhile isSpace = '{' :: tail ∧ Members depth tail members rest

theorem reads_object_iff (h : Folds depth member step) {expected : String} {state after : σ} :
    Reads (object expected member state) cs after rest ↔
      ∃ members, ObjectText depth cs members rest ∧ foldMembers step members state = some after := by
  rw [object, reads_skipSpace_then, reads_peek_then]
  constructor
  · intro hread
    split at hread
    · next hbrace =>
      obtain ⟨_, tail, htake, hmembers⟩ := reads_bind.mp hread
      obtain ⟨c, hspace⟩ := reads_discard_take.mp htake
      rw [hspace] at hbrace
      cases hbrace
      obtain ⟨members, hmembers, hfold⟩ := (reads_members_iff h).mp hmembers
      exact ⟨members, ⟨tail, hspace, hmembers⟩, hfold⟩
    · exact absurd hread not_reads_throw
    · obtain ⟨_, _, _, hwrong⟩ := reads_bind.mp hread
      exact absurd hwrong not_reads_throw
  · rintro ⟨members, ⟨tail, hspace, hmembers⟩, hfold⟩
    rw [hspace]
    exact reads_bind.mpr ⟨⟨⟩, tail, reads_discard_take.mpr ⟨_, rfl⟩,
      (reads_members_iff h).mpr ⟨members, hmembers, hfold⟩⟩

theorem folds_value (f : String → Json → σ → σ) : Folds depth
    (fun name state => do
      expect ':'
      return f name (← value depth) state)
    (fun name v state => some (f name v state)) := by
  intro name state after cs rest
  constructor
  · intro h
    obtain ⟨_, mid, hcolon, hrest⟩ := reads_bind.mp h
    obtain ⟨v, _, hvalue, hpure⟩ := reads_bind.mp hrest
    obtain ⟨rfl, rfl⟩ := reads_pure.mp hpure
    exact ⟨v, reads_bind.mpr ⟨_, mid, hcolon, hvalue⟩, rfl⟩
  · rintro ⟨v, hmember, ⟨⟩⟩
    obtain ⟨_, mid, hcolon, hvalue⟩ := reads_bind.mp hmember
    exact reads_bind.mpr ⟨_, mid, hcolon, reads_bind.mpr ⟨v, rest, hvalue, rfl⟩⟩

theorem foldMembers_some (f : String → Json → σ → σ) (members : List (String × Json)) (state : σ) :
    foldMembers (fun name v state => some (f name v state)) members state =
      some (members.foldl (fun state member => f member.1 member.2 state) state) := by
  induction members generalizing state with
  | nil => rfl
  | cons first members ih => exact foldMembers_cons.mpr ⟨_, rfl, ih _⟩

theorem foldl_cons_members (members read : List (String × Json)) :
    members.foldl (fun read member => (member.1, member.2) :: read) read = members.reverse ++ read := by
  induction members generalizing read with
  | nil => rfl
  | cons first members ih => rw [List.foldl_cons, ih, List.reverse_cons, List.append_assoc, List.singleton_append]

theorem reads_value_object_iff {v : Json} {tail : List Char} (h : cs.dropWhile isSpace = '{' :: tail) :
    Reads (value (depth + 1)) cs v rest ↔
      ∃ members, Members depth tail members rest ∧ v = .object members := by
  rw [value, reads_skipSpace_then, reads_peek_then, h]
  constructor
  · intro hread
    obtain ⟨_, _, htake, hrest⟩ := reads_bind.mp hread
    obtain ⟨_, hcons⟩ := reads_discard_take.mp htake
    obtain ⟨_, rfl⟩ := List.cons.inj hcons
    obtain ⟨read, _, hread, hpure⟩ := reads_bind.mp hrest
    obtain ⟨rfl, rfl⟩ := reads_pure.mp hpure
    obtain ⟨members, hmembers, hfold⟩ :=
      (reads_members_iff (folds_value fun name v read => (name, v) :: read)).mp hread
    rw [foldMembers_some, foldl_cons_members, List.append_nil] at hfold
    obtain rfl := Option.some.inj hfold
    exact ⟨members, hmembers, by rw [List.reverse_reverse]⟩
  · rintro ⟨members, hmembers, rfl⟩
    refine reads_bind.mpr ⟨⟨⟩, tail, reads_discard_take.mpr ⟨_, rfl⟩, reads_bind.mpr ?_⟩
    have hfold := foldMembers_some (fun name v read => (name, v) :: read) members []
    rw [foldl_cons_members, List.append_nil] at hfold
    have hread := (reads_members_iff (folds_value fun name v read => (name, v) :: read)).mpr
      ⟨members, hmembers, hfold⟩
    refine ⟨_, rest, hread, ?_⟩
    rw [List.reverse_reverse]
    rfl

theorem reads_value_array_iff {v : Json} {tail : List Char} (h : cs.dropWhile isSpace = '[' :: tail) :
    Reads (value (depth + 1)) cs v rest ↔
      ∃ items, Reads (Reader.items (value depth)) tail items rest ∧ v = .array items := by
  rw [value, reads_skipSpace_then, reads_peek_then, h]
  constructor
  · intro hread
    obtain ⟨_, _, htake, hrest⟩ := reads_bind.mp hread
    obtain ⟨_, hcons⟩ := reads_discard_take.mp htake
    obtain ⟨_, rfl⟩ := List.cons.inj hcons
    obtain ⟨items, _, hitems, hpure⟩ := reads_bind.mp hrest
    obtain ⟨rfl, rfl⟩ := reads_pure.mp hpure
    exact ⟨items, hitems, rfl⟩
  · rintro ⟨items, hitems, rfl⟩
    exact reads_bind.mpr ⟨⟨⟩, tail, reads_discard_take.mpr ⟨_, rfl⟩,
      reads_bind.mpr ⟨items, rest, hitems, rfl⟩⟩

theorem reads_value_scalar_iff {v : Json} (hbracket : (cs.dropWhile isSpace).head? ≠ some '[')
    (hbrace : (cs.dropWhile isSpace).head? ≠ some '{') :
    Reads (value depth) cs v rest ↔ Reads scalar (cs.dropWhile isSpace) v rest := by
  cases depth with
  | zero =>
    rw [value, reads_skipSpace_then, reads_peek_then]
    split
    · next h => exact absurd h hbracket
    · next h => exact absurd h hbrace
    · rfl
  | succ depth =>
    rw [value, reads_skipSpace_then, reads_peek_then]
    split
    · next h => exact absurd h hbracket
    · next h => exact absurd h hbrace
    · rfl

end Reader

end AuditFields.Json
