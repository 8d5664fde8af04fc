import AuditFields.Proofs.Schema.Printing.Lexing
import AuditFields.Schema.Reader

/-!
# Runs of readers

What the readers that the grammar is made of do to a token list. Each lemma says what a reader gives and
which tokens it leaves; the readers of repeated parts are said to give what is read from each part, if
the tokens are those of the parts one after the other. Where a reader looks at the token after a part,
that token is restricted (`Avoids`).
-/

namespace AuditFields.Schema

/-- The first token is none of the punctuators. -/
def Avoids (marks : List Punctuator) (tokens : List Token) : Prop :=
  ∀ mark ∈ marks, tokens.head? ≠ some (.punctuator mark)

theorem avoids_nil (marks : List Punctuator) : Avoids marks [] :=
  fun _ _ h => nomatch h

theorem avoids_cons {marks : List Punctuator} {token : Token} (tokens : List Token)
    (h : ∀ mark ∈ marks, token ≠ .punctuator mark) : Avoids marks (token :: tokens) :=
  fun mark hmem heq => h mark hmem (Option.some.inj heq)

theorem Avoids.append {marks : List Punctuator} {xs ys : List Token} (hxs : Avoids marks xs)
    (hys : Avoids marks ys) : Avoids marks (xs ++ ys) := by
  cases xs with
  | nil => exact hys
  | cons token xs => exact hxs

theorem Avoids.subset {marks others : List Punctuator} {tokens : List Token} (h : Avoids marks tokens)
    (hsubset : ∀ mark ∈ others, mark ∈ marks) : Avoids others tokens :=
  fun mark hmem => h mark (hsubset mark hmem)

namespace Reader

variable {α β : Type}

/-! ## Chains -/

theorem run_bind_of_ok {part : Reader α} {next : α → Reader β} {before after : List Token} {x : α}
    (h : part.run before = .ok (x, after)) : (part >>= next).run before = (next x).run after := by
  show (part.run before >>= fun p => (next p.1).run p.2) = _
  rw [h]
  rfl

theorem run_bind_of_error {part : Reader α} {next : α → Reader β} {before : List Token} {fault : Fault}
    (h : part.run before = .error fault) : (part >>= next).run before = .error fault := by
  show (part.run before >>= fun p => (next p.1).run p.2) = _
  rw [h]
  rfl

theorem run_bind_pure (part : Reader α) (f : α → β) (before : List Token) :
    (part >>= fun x => pure (f x)).run before = (part.run before).map fun p => (f p.1, p.2) := by
  cases h : part.run before with
  | error fault => exact run_bind_of_error h
  | ok p => exact run_bind_of_ok h

theorem run_discard_of_ok {part : Reader α} {before after : List Token} {x : α}
    (h : part.run before = .ok (x, after)) : (discard part).run before = .ok (⟨⟩, after) := by
  show (part.run before >>= fun p => Except.ok (PUnit.unit, p.2)) = _
  rw [h]
  rfl

/-! ## Tokens -/

theorem run_peek (tokens : List Token) : peek.run tokens = .ok (tokens.head?, tokens) :=
  rfl

theorem run_take {token : Token} (h : token.isReadable = true) (rest : List Token) :
    take.run (token :: rest) = .ok (token, rest) := by
  cases token with
  | unreadable shown => cases h
  | _ => rfl

theorem run_discard_take {token : Token} (h : token.isReadable = true) (rest : List Token) :
    (discard take).run (token :: rest) = .ok (⟨⟩, rest) :=
  run_discard_of_ok (run_take h rest)

theorem run_nextIs (p : Punctuator) (tokens : List Token) :
    (nextIs p).run tokens = .ok (tokens.head? == some (.punctuator p), tokens) :=
  rfl

theorem run_nextIs_self (p : Punctuator) (rest : List Token) :
    (nextIs p).run (.punctuator p :: rest) = .ok (true, .punctuator p :: rest) := by
  rw [run_nextIs, List.head?_cons, beq_self_eq_true]

theorem run_nextIs_of_avoids {p : Punctuator} {tokens : List Token} (h : Avoids [p] tokens) :
    (nextIs p).run tokens = .ok (false, tokens) := by
  rw [run_nextIs, beq_eq_false_iff_ne.mpr (h p List.mem_cons_self)]

theorem run_expect (p : Punctuator) (rest : List Token) :
    (expect p).run (.punctuator p :: rest) = .ok ((), rest) := by
  rw [expect, run_bind_of_ok (run_take rfl rest), if_pos rfl]
  rfl

theorem run_skip_of_avoids {p : Punctuator} {tokens : List Token} (h : Avoids [p] tokens) :
    (skip p).run tokens = .ok ((), tokens) := by
  rw [skip, run_bind_of_ok (run_nextIs_of_avoids h)]
  rfl

theorem run_name (text : String) (rest : List Token) :
    name.run (.name text :: rest) = .ok (text, rest) := by
  rw [name, run_bind_of_ok (run_take rfl rest)]
  rfl

theorem run_nextIsKeyword (keyword : String) (tokens : List Token) :
    (nextIsKeyword keyword).run tokens = .ok (tokens.head? == some (.name keyword), tokens) :=
  rfl

theorem run_expectKeyword (keyword : String) (rest : List Token) :
    (expectKeyword keyword).run (.name keyword :: rest) = .ok ((), rest) := by
  rw [expectKeyword, run_bind_of_ok (run_take rfl rest), if_pos rfl]
  rfl

/-! ## Repetition -/

/-- How the parts of a list are read: each starts with a token that starts one, is read back as a
value when it stands before tokens of the kind `Follows`, and is itself such tokens. -/
structure Repeats (starts : Token → Bool) (part : Reader β) (Follows : List Token → Prop)
    (tokens : α → List Token) (value : α → β) (items : List α) : Prop where
  starts : ∀ item ∈ items, ∃ token rest, tokens item = token :: rest ∧ starts token = true
  follows : ∀ item ∈ items, ∀ after, Follows (tokens item ++ after)
  run : ∀ item ∈ items, ∀ after, Follows after →
    part.run (tokens item ++ after) = .ok (value item, after)

variable {starts : Token → Bool} {part : Reader β} {Follows : List Token → Prop}
  {tokens : α → List Token} {value : α → β} {items : List α} {rest : List Token}

theorem Repeats.tail {item : α} (h : Repeats starts part Follows tokens value (item :: items)) :
    Repeats starts part Follows tokens value items where
  starts := fun other hmem => h.starts other (List.mem_cons_of_mem _ hmem)
  follows := fun other hmem => h.follows other (List.mem_cons_of_mem _ hmem)
  run := fun other hmem => h.run other (List.mem_cons_of_mem _ hmem)

theorem Repeats.follows_flatMap (h : Repeats starts part Follows tokens value items)
    (hrest : Follows rest) : Follows (items.flatMap tokens ++ rest) := by
  cases items with
  | nil => exact hrest
  | cons item items =>
    rw [List.flatMap_cons, List.append_assoc]
    exact h.follows item List.mem_cons_self _

theorem length_le_length_flatMap (h : ∀ item ∈ items, tokens item ≠ []) :
    items.length ≤ (items.flatMap tokens).length := by
  induction items with
  | nil => exact Nat.zero_le _
  | cons item items ih =>
    obtain ⟨hitem, hitems⟩ := List.forall_mem_cons.mp h
    have hpositive := List.length_pos_iff.mpr hitem
    have hrest := ih hitems
    rw [List.flatMap_cons, List.length_append, List.length_cons]
    omega

theorem Repeats.length_le (h : Repeats starts part Follows tokens value items) :
    items.length ≤ (items.flatMap tokens).length := by
  refine length_le_length_flatMap fun item hmem => ?_
  obtain ⟨token, after, htokens, _⟩ := h.starts item hmem
  rw [htokens]
  exact List.cons_ne_nil token after

theorem run_manyUpTo (h : Repeats starts part Follows tokens value items) (hrest : Follows rest)
    (hstop : ∀ token ∈ rest.head?, starts token = false) {bound : List Token}
    (hbound : items.length ≤ bound.length) :
    (manyUpTo starts part bound).run (items.flatMap tokens ++ rest) = .ok (items.map value, rest) := by
  induction items generalizing bound with
  | nil =>
    cases bound with
    | nil => rfl
    | cons _ bound =>
      rw [manyUpTo, run_bind_of_ok (run_peek _)]
      cases rest with
      | nil => rfl
      | cons token rest =>
        have hnot : ¬starts token = true := Bool.eq_false_iff.mp (hstop token rfl)
        simp only [List.flatMap_nil, List.nil_append, List.head?_cons]
        rw [if_neg hnot]
        rfl
  | cons item items ih =>
    cases bound with
    | nil => exact absurd hbound (by simp)
    | cons _ bound =>
      obtain ⟨token, after, htokens, hstarts⟩ := h.starts item List.mem_cons_self
      have hitem := h.run item List.mem_cons_self (items.flatMap tokens ++ rest)
        (h.tail.follows_flatMap hrest)
      have hlength : items.length ≤ bound.length := by simpa using hbound
      have hitems := ih h.tail hlength
      rw [List.flatMap_cons, List.append_assoc, manyUpTo, run_bind_of_ok (run_peek _)]
      have hhead : (tokens item ++ (items.flatMap tokens ++ rest)).head? = some token := by
        rw [htokens]
        rfl
      rw [hhead]
      dsimp only
      rw [if_pos hstarts, run_bind_of_ok hitem, run_bind_of_ok hitems]
      rfl

theorem run_many (h : Repeats starts part Follows tokens value items) (hrest : Follows rest)
    (hstop : ∀ token ∈ rest.head?, starts token = false) :
    (many starts part).run (items.flatMap tokens ++ rest) = .ok (items.map value, rest) := by
  have hbound : items.length ≤ (items.flatMap tokens ++ rest).length := by
    have := h.length_le
    rw [List.length_append]
    omega
  have hget : (get : Reader (List Token)).run (items.flatMap tokens ++ rest) =
    .ok (items.flatMap tokens ++ rest, items.flatMap tokens ++ rest) := rfl
  rw [many, run_bind_of_ok hget]
  exact run_manyUpTo h hrest hstop hbound

theorem run_manyUntil {closing : Punctuator}
    (h : Repeats (· != .punctuator closing) part Follows tokens value items)
    (hclosing : ∀ rest, Follows (.punctuator closing :: rest)) (rest : List Token) :
    (manyUntil closing part).run (items.flatMap tokens ++ Token.punctuator closing :: rest) =
      .ok (items.map value, rest) := by
  have hstop : ∀ token ∈ (Token.punctuator closing :: rest).head?,
      (token != .punctuator closing) = false := by
    intro token htoken
    obtain rfl := Option.some.inj htoken
    exact bne_self_eq_false _
  rw [manyUntil, run_bind_of_ok (run_many h (hclosing rest) hstop),
    run_bind_of_ok (run_expect closing rest)]
  rfl

theorem run_enclosed {opening closing : Punctuator} {first : α}
    (h : Repeats (· != .punctuator closing) part Follows tokens value (first :: items))
    (hclosing : ∀ rest, Follows (.punctuator closing :: rest)) (rest : List Token) :
    (enclosed opening closing part).run
        (.punctuator opening :: ((first :: items).flatMap tokens ++ Token.punctuator closing :: rest)) =
      .ok ((first :: items).map value, rest) := by
  have hfirst := h.run first List.mem_cons_self (items.flatMap tokens ++ Token.punctuator closing :: rest)
    (h.tail.follows_flatMap (hclosing rest))
  rw [enclosed, run_bind_of_ok (run_expect opening _), List.flatMap_cons, List.append_assoc,
    run_bind_of_ok hfirst, run_bind_of_ok (run_manyUntil h.tail hclosing rest)]
  rfl

theorem run_enclosedIfAny {opening closing : Punctuator} {first : α}
    (h : Repeats (· != .punctuator closing) part Follows tokens value (first :: items))
    (hclosing : ∀ rest, Follows (.punctuator closing :: rest)) (rest : List Token) :
    (enclosedIfAny opening closing part).run
        (.punctuator opening :: ((first :: items).flatMap tokens ++ Token.punctuator closing :: rest)) =
      .ok ((first :: items).map value, rest) := by
  rw [enclosedIfAny, run_bind_of_ok (run_nextIs_self opening _), if_pos rfl]
  exact run_enclosed h hclosing rest

theorem run_enclosedIfAny_of_avoids {opening closing : Punctuator} (h : Avoids [opening] rest) :
    (enclosedIfAny opening closing part).run rest = .ok ([], rest) := by
  rw [enclosedIfAny, run_bind_of_ok (run_nextIs_of_avoids h)]
  rfl

theorem run_enclosedIfAny_empty {opening closing : Punctuator} {fault : Fault}
    (h : part.run (.punctuator closing :: rest) = .error fault) :
    (enclosedIfAny opening closing part).run (.punctuator opening :: .punctuator closing :: rest) =
      .error fault := by
  rw [enclosedIfAny, run_bind_of_ok (run_nextIs_self opening _), if_pos rfl, enclosed,
    run_bind_of_ok (run_expect opening _), run_bind_of_error h]

theorem run_separated {separator : Punctuator} {first : α}
    (hrun : ∀ item ∈ first :: items, ∀ after, part.run (tokens item ++ after) = .ok (value item, after))
    (hfirst : ∀ after, Avoids [separator] (tokens first ++ after)) (hrest : Avoids [separator] rest) :
    (separated separator part).run
        (tokens first ++ (items.flatMap (fun item => .punctuator separator :: tokens item) ++ rest)) =
      .ok ((first :: items).map value, rest) := by
  have hothers : Repeats (· == .punctuator separator) (do expect separator; part) (fun _ => True)
      (fun item => .punctuator separator :: tokens item) value items := by
    refine ⟨fun item _ => ⟨_, _, rfl, beq_self_eq_true _⟩, fun _ _ _ => trivial, ?_⟩
    intro item hmem after _
    rw [List.cons_append, run_bind_of_ok (run_expect separator _)]
    exact hrun item (List.mem_cons_of_mem _ hmem) after
  have hstop : ∀ token ∈ rest.head?, (token == .punctuator separator) = false := by
    intro token htoken
    refine beq_eq_false_iff_ne.mpr fun heq => ?_
    exact hrest separator List.mem_cons_self (heq ▸ htoken)
  rw [separated, run_bind_of_ok (run_skip_of_avoids (hfirst _)),
    run_bind_of_ok (hrun first List.mem_cons_self _), run_bind_of_ok (run_many hothers trivial hstop)]
  rfl

end Reader

end AuditFields.Schema
