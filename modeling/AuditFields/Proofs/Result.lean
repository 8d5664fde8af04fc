/-!
# Chains of results

What is known when a chain of parts that may fail succeeds: every part did, each on what the part
before it gave. Parts that also work on a state hand it on, and it stays as a failed part left it.

A chain fails with its first failure. Where the failures can be listed from what there was at the start,
the list of a chain is the lists of its parts one after the other (`Judged.bind`).
-/

namespace AuditFields.Except

variable {ε α β : Type}

theorem bind_eq_ok_iff {result : Except ε α} {next : α → Except ε β} {y : β} :
    result >>= next = .ok y ↔ ∃ x, result = .ok x ∧ next x = .ok y := by
  constructor
  · intro h
    cases result with
    | error failure => cases h
    | ok x => exact ⟨x, rfl, h⟩
  · rintro ⟨x, rfl, h⟩
    exact h

theorem map_eq_ok_iff {result : Except ε α} {f : α → β} {y : β} :
    result.map f = .ok y ↔ ∃ x, result = .ok x ∧ f x = y := by
  constructor
  · intro h
    cases result with
    | error failure => cases h
    | ok x => exact ⟨x, rfl, Except.ok.inj h⟩
  · rintro ⟨x, rfl, rfl⟩
    rfl

theorem exists_of_isOk {result : Except ε α} (h : result.isOk = true) : ∃ x, result = .ok x := by
  cases result with
  | error failure => cases h
  | ok x => exact ⟨x, rfl⟩

theorem foldlM_cons_eq_ok_iff {step : β → α → Except ε β} {x : α} {xs : List α} {start after : β} :
    (x :: xs).foldlM step start = .ok after ↔
      ∃ next, step start x = .ok next ∧ xs.foldlM step next = .ok after :=
  bind_eq_ok_iff

theorem foldlM_invariant {step : β → α → Except ε β} (property : β → Prop) {xs : List α}
    (hstep : ∀ before, ∀ x ∈ xs, ∀ after, property before → step before x = .ok after → property after)
    {start after : β} (hstart : property start) (h : xs.foldlM step start = .ok after) :
    property after := by
  induction xs generalizing start with
  | nil =>
    obtain rfl := Except.ok.inj h
    exact hstart
  | cons x xs ih =>
    obtain ⟨next, hx, hxs⟩ := foldlM_cons_eq_ok_iff.mp h
    have hnext := hstep start x List.mem_cons_self next hstart hx
    exact ih (fun before y hmem => hstep before y (List.mem_cons_of_mem _ hmem)) hnext hxs

/-! ## Objections -/

/-- The verdict on a list of objections: the first one counts. -/
def verdict : List ε → Except ε Unit
  | [] => .ok ()
  | objection :: _ => .error objection

/-- The result fails exactly if there are objections, and then with the first of them. -/
def Judged (result : Except ε α) (objections : List ε) : Prop :=
  result.map (fun _ => ()) = verdict objections

theorem judged_ok (x : α) : Judged (.ok x : Except ε α) [] := rfl

theorem judged_error (failure : ε) (others : List ε) :
    Judged (.error failure : Except ε α) (failure :: others) := rfl

theorem Judged.exists_ok_iff {result : Except ε α} {objections : List ε}
    (h : Judged result objections) : (∃ x, result = .ok x) ↔ objections = [] := by
  constructor
  · rintro ⟨x, rfl⟩
    cases objections with
    | nil => rfl
    | cons objection others => cases h
  · rintro rfl
    cases result with
    | error failure => cases h
    | ok x => exact ⟨x, rfl⟩

theorem Judged.eq_error {result : Except ε α} {failure : ε} {others : List ε}
    (h : Judged result (failure :: others)) : result = .error failure := by
  cases result with
  | error reason => rw [Except.error.inj h]
  | ok x => cases h

theorem Judged.map {result : Except ε α} {objections : List ε} (h : Judged result objections)
    (f : α → β) : Judged (result.map f) objections := by
  cases result with
  | error failure => exact h
  | ok x => exact h

theorem Judged.bind {result : Except ε α} {next : α → Except ε β} {first second : List ε}
    (h : Judged result first) (hnext : ∀ x, result = .ok x → Judged (next x) second) :
    Judged (result >>= next) (first ++ second) := by
  cases first with
  | nil =>
    obtain ⟨x, rfl⟩ := h.exists_ok_iff.mpr rfl
    exact hnext x rfl
  | cons failure others =>
    obtain rfl := h.eq_error
    exact judged_error failure _

/-- A fold whose state is known from the part of the list that it has consumed, and in which what is
wrong with an element does not depend on the state. -/
theorem foldlM_eq_verdict {step : β → α → Except ε β} {xs : List α} (wrong? : α → Option ε)
    (state : List α → β)
    (hstep : ∀ done x rest, xs = done ++ x :: rest →
      step (state done) x = (wrong? x).elim (.ok (state (done ++ [x]))) .error) :
    xs.foldlM step (state []) = (verdict (xs.filterMap wrong?)).map fun _ => state xs := by
  have hrest : ∀ rest done, xs = done ++ rest →
      rest.foldlM step (state done) = (verdict (rest.filterMap wrong?)).map fun _ => state xs := by
    intro rest
    induction rest with
    | nil =>
      intro done hxs
      rw [List.append_nil] at hxs
      rw [hxs]
      rfl
    | cons x rest ih =>
      intro done hxs
      rw [List.foldlM_cons, hstep done x rest hxs, List.filterMap_cons]
      cases wrong? x with
      | some failure => rfl
      | none =>
        rw [List.append_cons] at hxs
        exact ih (done ++ [x]) hxs
  exact hrest xs [] rfl

end AuditFields.Except

namespace AuditFields.Stateful

variable {ε σ α β : Type} {part : ExceptT ε (StateM σ) α} {next : α → ExceptT ε (StateM σ) β}
  {before after : σ}

theorem run_bind_of_ok {x : α} (h : part.run before = (.ok x, after)) :
    (part >>= next).run before = (next x).run after := by
  show ExceptT.bindCont next (part.run before).1 (part.run before).2 = _
  rw [h]
  rfl

theorem run_bind_of_error {failure : ε} (h : part.run before = (.error failure, after)) :
    (part >>= next).run before = (.error failure, after) := by
  show ExceptT.bindCont next (part.run before).1 (part.run before).2 = _
  rw [h]
  rfl

theorem run_bind_eq_ok {y : β} (h : (part >>= next).run before = (.ok y, after)) :
    ∃ x middle, part.run before = (.ok x, middle) ∧ (next x).run middle = (.ok y, after) := by
  rcases hpart : part.run before with ⟨failure | x, middle⟩
  · rw [run_bind_of_error hpart] at h
    cases (Prod.mk.inj h).1
  · rw [run_bind_of_ok hpart] at h
    exact ⟨x, middle, rfl, h⟩

theorem run_bind_eq_error {failure : ε} (h : (part >>= next).run before = (.error failure, after)) :
    part.run before = (.error failure, after) ∨
      ∃ x middle, part.run before = (.ok x, middle) ∧ (next x).run middle = (.error failure, after) := by
  rcases hpart : part.run before with ⟨reason | x, middle⟩
  · rw [run_bind_of_error hpart] at h
    obtain ⟨hreason, rfl⟩ := Prod.mk.inj h
    exact Or.inl (by rw [Except.error.inj hreason])
  · rw [run_bind_of_ok hpart] at h
    exact Or.inr ⟨x, middle, rfl, h⟩

end AuditFields.Stateful
