import AuditFields.Proofs.Drafts.Faithful

/-!
# Drafts are transactions

Work on an API is a tree: changes, and drafts with work of their own that are committed or discarded
in the end. `Action.moves` lists what a tree does, move by move, so that each point of the work is the
end of a prefix of that list.

Two things are kept apart. `Move.run` is what happens to a workspace, with its maps and lists.
`Move.track` only keeps books: one list of changes for each open draft and one for the API itself; a
commit appends the uppermost list to the next one, and a discard forgets it. `Tracks` joins the two: a
workspace under way has the lists of the books in its drafts. Every move keeps it (`Tracks.run`), and
so the innermost workspace shows what the changes in the books, made directly, would show.
-/

namespace AuditFields

/-! ## Moves and trees of work -/

/-- One move of the work on an API. -/
inductive Move where
  /-- Makes a change in the uppermost draft, or on the API. -/
  | edit (edit : Edit)
  /-- Opens a draft over what there is. -/
  | openDraft
  /-- Makes the changes of the uppermost draft in what lies under it. -/
  | commit
  /-- Forgets the uppermost draft. -/
  | discard

/-- The workspace after a move. -/
def Move.run (workspace : Workspace) : Move → Workspace
  | .edit change => workspace.apply change
  | .openDraft => workspace.openDraft
  | .commit => workspace.commit
  | .discard => workspace.discard

/-- Work on an API. -/
inductive Action where
  /-- A change. -/
  | edit (edit : Edit)
  /-- Work in a draft, which is committed or else discarded in the end. -/
  | draft (body : List Action) (committed : Bool)

namespace Action

mutual

/-- What a piece of work does, move by move. -/
def moves : Action → List Move
  | .edit change => [.edit change]
  | .draft body committed =>
    .openDraft :: (movesAll body ++ [if committed then .commit else .discard])

/-- What pieces of work do one after the other. -/
def movesAll : List Action → List Move
  | [] => []
  | action :: actions => action.moves ++ movesAll actions

end

mutual

/-- The changes of a piece of work for which all drafts around them were committed, in order. -/
def kept : Action → List Edit
  | .edit change => [change]
  | .draft body committed => if committed then keptAll body else []

/-- The changes that pieces of work keep, in order. -/
def keptAll : List Action → List Edit
  | [] => []
  | action :: actions => action.kept ++ keptAll actions

end

end Action

/-! ## Books -/

/-- The books after a move: the changes of each open draft, uppermost first, and of the API last. -/
def Move.track (levels : List (List Edit)) : Move → List (List Edit)
  | .edit change =>
    match levels with
    | top :: under => (top ++ [change]) :: under
    | [] => []
  | .openDraft => [] :: levels
  | .commit =>
    match levels with
    | top :: next :: under => (next ++ top) :: under
    | levels => levels
  | .discard =>
    match levels with
    | _ :: next :: under => next :: under
    | levels => levels

/-- The changes in the books, in the order in which they were made. -/
def changesIn : List (List Edit) → List Edit
  | [] => []
  | top :: under => changesIn under ++ top

/-- The changes that are visible after moves: those made so far and not in a discarded draft. -/
def Move.visible (moves : List Move) : List Edit :=
  changesIn (moves.foldl track [[]])

/-! ## The step -/

/-- The workspace has the changes of the books: the lists of the open drafts in its drafts, and the
last list made on the API. -/
def Tracks (api : Api) : Workspace → List (List Edit) → Prop
  | .direct now, [edits] => now = api.applyAll edits
  | .drafted under draft, top :: levels => draft.edits = top ∧ Tracks api under levels
  | _, _ => False

namespace Tracks

variable {api : Api} {workspace : Workspace} {levels : List (List Edit)}

theorem exists_cons (h : Tracks api workspace levels) : ∃ top under, levels = top :: under := by
  cases levels with
  | nil => cases workspace <;> exact h.elim
  | cons top under => exact ⟨top, under, rfl⟩

theorem apply {top : List Edit} (h : Tracks api workspace (top :: levels)) (edit : Edit) :
    Tracks api (workspace.apply edit) ((top ++ [edit]) :: levels) := by
  cases workspace with
  | direct now =>
    cases levels with
    | nil =>
      have hnow : now = api.applyAll top := h
      show now.apply edit = api.applyAll (top ++ [edit])
      rw [Api.applyAll_append, hnow]
      rfl
    | cons next under => exact h.elim
  | drafted under draft =>
    obtain ⟨hedits, hunder⟩ := h
    refine ⟨?_, hunder⟩
    rw [Workspace.record_edits, hedits]

theorem applyAll {top : List Edit} (h : Tracks api workspace (top :: levels)) (edits : List Edit) :
    Tracks api (workspace.applyAll edits) ((top ++ edits) :: levels) := by
  induction edits generalizing workspace top with
  | nil => rwa [List.append_nil]
  | cons edit edits ih =>
    rw [Workspace.applyAll_cons, List.append_cons]
    exact ih (h.apply edit)

theorem commit (h : Tracks api workspace levels) :
    Tracks api workspace.commit (Move.commit.track levels) := by
  cases workspace with
  | direct now =>
    obtain ⟨top, under, rfl⟩ := h.exists_cons
    cases under with
    | nil => exact h
    | cons next under => exact h.elim
  | drafted under draft =>
    obtain ⟨top, rest, rfl⟩ := h.exists_cons
    obtain ⟨rfl, hunder⟩ := h
    obtain ⟨next, rest, rfl⟩ := hunder.exists_cons
    exact hunder.applyAll draft.edits

theorem discard (h : Tracks api workspace levels) :
    Tracks api workspace.discard (Move.discard.track levels) := by
  cases workspace with
  | direct now =>
    obtain ⟨top, under, rfl⟩ := h.exists_cons
    cases under with
    | nil => exact h
    | cons next under => exact h.elim
  | drafted under draft =>
    obtain ⟨top, rest, rfl⟩ := h.exists_cons
    obtain ⟨-, hunder⟩ := h
    obtain ⟨next, rest, rfl⟩ := hunder.exists_cons
    exact hunder

/-- The step: every move keeps the books right. -/
theorem run (h : Tracks api workspace levels) (move : Move) :
    Tracks api (move.run workspace) (move.track levels) := by
  cases move with
  | edit edit =>
    obtain ⟨top, under, rfl⟩ := h.exists_cons
    exact h.apply edit
  | openDraft => exact ⟨rfl, h⟩
  | commit => exact h.commit
  | discard => exact h.discard

/-- The run: the books stay right through any moves. -/
theorem foldl_run (h : Tracks api workspace levels) (moves : List Move) :
    Tracks api (moves.foldl Move.run workspace) (moves.foldl Move.track levels) := by
  induction moves generalizing workspace levels with
  | nil => exact h
  | cons move moves ih => exact ih (h.run move)

theorem settled_eq (h : Tracks api workspace levels) :
    workspace.settled = api.applyAll (changesIn levels) := by
  induction workspace generalizing levels with
  | direct now =>
    obtain ⟨top, under, rfl⟩ := h.exists_cons
    cases under with
    | nil => exact h
    | cons next under => exact h.elim
  | drafted under draft ih =>
    obtain ⟨top, rest, rfl⟩ := h.exists_cons
    obtain ⟨rfl, hunder⟩ := h
    rw [Workspace.settled, ih hunder, changesIn, Api.applyAll_append]

end Tracks

/-! ## The run -/

theorem Workspace.Faithful.run {workspace : Workspace} (h : workspace.Faithful) (move : Move) :
    (move.run workspace).Faithful := by
  cases move with
  | edit edit => exact h.apply edit
  | openDraft => exact h.openDraft
  | commit => exact h.commit
  | discard => exact h.discard

theorem Workspace.Faithful.foldl_run {workspace : Workspace} (h : workspace.Faithful)
    (moves : List Move) : (moves.foldl Move.run workspace).Faithful := by
  induction moves generalizing workspace with
  | nil => exact h
  | cons move moves ih => exact ih (h.run move)

/-- After any moves, the innermost workspace shows the API with the visible changes made directly. -/
theorem shows_visible (api : Api) (moves : List Move) :
    (moves.foldl Move.run (.direct api)).Shows (api.applyAll (Move.visible moves)) := by
  have htracks : Tracks api (.direct api) [[]] := rfl
  have hsettled := (htracks.foldl_run moves).settled_eq
  have hshows := ((Workspace.faithful_direct api).foldl_run moves).shows
  rwa [hsettled] at hshows

mutual

/-- A tree of work does to a workspace what the changes that it keeps do. -/
theorem foldl_run_moves (workspace : Workspace) :
    ∀ action : Action, action.moves.foldl Move.run workspace = workspace.applyAll action.kept
  | .edit edit => rfl
  | .draft body committed => by
    rw [Action.moves, Action.kept, List.foldl_cons, List.foldl_append, Move.run,
      foldl_run_movesAll workspace.openDraft body]
    cases committed with
    | true => exact workspace.commit_applyAll_openDraft _
    | false => exact workspace.discard_applyAll_openDraft _

theorem foldl_run_movesAll (workspace : Workspace) :
    ∀ actions : List Action,
      (Action.movesAll actions).foldl Move.run workspace =
        workspace.applyAll (Action.keptAll actions)
  | [] => rfl
  | action :: actions => by
    rw [Action.movesAll, Action.keptAll, List.foldl_append, foldl_run_moves workspace action,
      foldl_run_movesAll _ actions, Workspace.applyAll_append]

end

/-- **Drafts are transactions at any depth**: at every point of any tree of work on an API, each read
through the innermost draft gives what it gives on the API with the changes visible at that point made
directly, in order; and in the end the API is as it was with exactly those changes made, in order, for
which all drafts around them were committed. -/
theorem draft_transaction (api : Api) (actions : List Action) :
    (∀ (count : Nat) (name : String),
      let moves := (Action.movesAll actions).take count
      let innermost := moves.foldl Move.run (.direct api)
      let copy := api.applyAll (Move.visible moves)
      innermost.type? name = copy.type? name ∧ innermost.resource? name = copy.resource? name ∧
        innermost.mutationName = copy.mutationName) ∧
    (Action.movesAll actions).foldl Move.run (.direct api) =
      .direct (api.applyAll (Action.keptAll actions)) := by
  refine ⟨fun count name => ?_, ?_⟩
  · have hshows := shows_visible api ((Action.movesAll actions).take count)
    exact ⟨hshows.type? name, hshows.resource? name, hshows.mutationName⟩
  · rw [foldl_run_movesAll, Workspace.applyAll_direct]

-- A draft that is discarded inside a committed one leaves nothing.
example (first second third : Edit) :
    Action.keptAll
      [.draft [.edit first, .draft [.edit second] false, .draft [.edit third] true] true] =
        [first, third] :=
  rfl

end AuditFields
