import AuditFields.Cli.Run
import AuditFields.Proofs.Cli.Files

/-!
# What a failed run leaves behind

A transformation reads its files, audits what they hold, and writes the results one after the other. Up to
the first write nothing that it does makes a difference to a file. So a run that fails leaves every file as
it was, with one exception: a result is written, and a later one cannot be, as when there is a directory
in its place. Then the results before it stay written (`HalfWritten`).
-/

namespace AuditFields.Cli

/-! ## Work on a tree -/

/-- What work on a tree of files gives, with the log and the tree afterwards. -/
def runWork {α : Type} (work : Work (StateM FileTree) α) (log : List LogLine) (tree : FileTree) :
    (Except String α × List LogLine) × FileTree :=
  (work.run.run log).run tree

section

variable {α β : Type} {work : Work (StateM FileTree) α} {next : α → Work (StateM FileTree) β}
  {log logAfter : List LogLine} {tree after : FileTree}

theorem runWork_bind_of_ok {x : α} (h : runWork work log tree = ((.ok x, logAfter), after)) :
    runWork (work >>= next) log tree = runWork (next x) logAfter after := by
  rw [runWork] at h
  rw [runWork, ExceptT.run_bind, StateT.run_bind, StateT.run_bind, h]
  rfl

theorem runWork_bind_of_error {problem : String}
    (h : runWork work log tree = ((.error problem, logAfter), after)) :
    runWork (work >>= next) log tree = ((.error problem, logAfter), after) := by
  rw [runWork] at h
  rw [runWork, ExceptT.run_bind, StateT.run_bind, StateT.run_bind, h]
  rfl

/-- Whatever work gives, it leaves the tree of files as it is. -/
def LeavesFiles (work : Work (StateM FileTree) α) : Prop :=
  ∀ log tree, (runWork work log tree).2 = tree

theorem leavesFiles_pure (x : α) : LeavesFiles (pure x) := fun _ _ => rfl

theorem leavesFiles_throw (problem : String) : LeavesFiles (throw problem : Work _ α) := fun _ _ => rfl

theorem LeavesFiles.bind (hwork : LeavesFiles work) (hnext : ∀ x, LeavesFiles (next x)) :
    LeavesFiles (work >>= next) := by
  intro log tree
  rcases hrun : runWork work log tree with ⟨⟨result, logAfter⟩, after⟩
  have htree : after = tree := by rw [← hwork log tree, hrun]
  cases result with
  | error problem => rw [runWork_bind_of_error hrun, htree]
  | ok x => rw [runWork_bind_of_ok hrun, hnext x, htree]

end

/-! ## Up to the first write -/

theorem leavesFiles_readFile (what path : String) :
    LeavesFiles (readFile FileTree.fileSystem what path) := by
  refine LeavesFiles.bind (fun _ _ => rfl) fun found => ?_
  cases found with
  | none => exact leavesFiles_throw _
  | some text => exact leavesFiles_pure text

theorem leavesFiles_decoded {ε α : Type} (what path : String) (result : Except ε α) :
    LeavesFiles (decoded what path result) := by
  cases result with
  | ok x => exact leavesFiles_pure x
  | error failure => exact leavesFiles_throw _

theorem leavesFiles_readConfig (path : Option String) :
    LeavesFiles (readConfig FileTree.fileSystem path) := by
  cases path with
  | none => exact leavesFiles_pure _
  | some path => exact (leavesFiles_readFile _ _).bind fun _ => leavesFiles_decoded _ _ _

theorem leavesFiles_readApi (paths : Paths) : LeavesFiles (readApi FileTree.fileSystem paths) :=
  (leavesFiles_readFile _ _).bind fun _ => (leavesFiles_readFile _ _).bind fun _ =>
    (leavesFiles_decoded _ _ _).bind fun _ => (leavesFiles_decoded _ _ _).bind fun _ =>
      leavesFiles_pure _

theorem leavesFiles_audit (config : Config) (api : Api) : LeavesFiles (audit config api) := by
  refine LeavesFiles.bind (fun _ _ => rfl) fun _ => ?_
  split
  · exact leavesFiles_pure _
  · exact leavesFiles_throw _

section

variable {m : Type → Type} [Monad m]

/-- What comes before the first write: the results of a transformation. -/
def prepare (files : FileSystem m) (paths : Paths) : Work m Results := do
  let config ← readConfig files paths.config
  audit config (← readApi files paths)

/-- What comes after the results are there: they are written. -/
def deliver (files : FileSystem m) (paths : Paths) (results : Results) : Work m Unit := do
  if !(← files.makeDirectories paths.outDir) then throw ("could not create " ++ paths.outDir)
  results.files.forM (writeFile files paths.outDir)
  modify (· ++ [LogLine.finished results.transformed.length paths.outDir])

theorem transform_eq [LawfulMonad m] (files : FileSystem m) (paths : Paths) :
    transform files paths = prepare files paths >>= deliver files paths := by
  simp only [transform, prepare, bind_assoc]
  rfl

end

theorem leavesFiles_prepare (paths : Paths) : LeavesFiles (prepare FileTree.fileSystem paths) :=
  (leavesFiles_readConfig _).bind fun _ => (leavesFiles_readApi _).bind fun _ => leavesFiles_audit _ _

/-! ## Writing -/

variable {log logAfter : List LogLine} {tree after : FileTree} {problem directory : String}

theorem run_attempt (change : FileTree → Option FileTree) :
    (FileTree.attempt change).run tree = ((change tree).isSome, (change tree).getD tree) := by
  cases h : change tree with
  | none =>
    simp [FileTree.attempt, h]
    rfl
  | some after =>
    simp [FileTree.attempt, h]
    rfl

theorem runWork_attempt (change : FileTree → Option FileTree) :
    runWork (liftM (FileTree.attempt change)) log tree =
      ((.ok (change tree).isSome, log), (change tree).getD tree) := by
  have hlift : runWork (liftM (FileTree.attempt change)) log tree =
      ((.ok ((FileTree.attempt change).run tree).1, log), ((FileTree.attempt change).run tree).2) := rfl
  rw [hlift, run_attempt]

theorem runWork_attempt_of_some {change : FileTree → Option FileTree} (h : change tree = some after) :
    runWork (liftM (FileTree.attempt change)) log tree = ((.ok true, log), after) := by
  rw [runWork_attempt, h]
  rfl

theorem runWork_attempt_of_none {change : FileTree → Option FileTree} (h : change tree = none) :
    runWork (liftM (FileTree.attempt change)) log tree = ((.ok false, log), tree) := by
  rw [runWork_attempt, h]
  rfl

theorem runWork_writeFile_of_some {file : String × String}
    (h : tree.write (joinPath directory file.1) file.2 = some after) :
    runWork (writeFile FileTree.fileSystem directory file) log tree = ((.ok (), log), after) :=
  (runWork_bind_of_ok (runWork_attempt_of_some h)).trans rfl

theorem runWork_writeFile_of_none (log : List LogLine) {file : String × String}
    (h : tree.write (joinPath directory file.1) file.2 = none) :
    ∃ problem, runWork (writeFile FileTree.fileSystem directory file) log tree =
      ((.error problem, log), tree) :=
  ⟨_, (runWork_bind_of_ok (runWork_attempt_of_none h)).trans rfl⟩

/-- Files are written up to the first one that cannot be, and that one makes no difference. -/
theorem runWork_forM_writeFile_eq_error {files : List (String × String)}
    (h : runWork (files.forM (writeFile FileTree.fileSystem directory)) log tree =
      ((.error problem, logAfter), after)) :
    ∃ written refused rest, files = written ++ refused :: rest ∧
      tree.writeAll directory written = some after ∧
      after.write (joinPath directory refused.1) refused.2 = none := by
  induction files generalizing tree with
  | nil => cases h
  | cons file files ih =>
    cases hwrite : tree.write (joinPath directory file.1) file.2 with
    | none =>
      obtain ⟨_, hrun⟩ := runWork_writeFile_of_none log hwrite
      have hboth := (runWork_bind_of_error hrun).symm.trans h
      obtain rfl := (Prod.mk.inj hboth).2
      exact ⟨[], file, files, rfl, rfl, hwrite⟩
    | some next =>
      have hrun := (runWork_bind_of_ok (runWork_writeFile_of_some hwrite)).symm.trans h
      obtain ⟨written, refused, rest, rfl, hwritten, hrefused⟩ := ih hrun
      exact ⟨file :: written, refused, rest, rfl,
        FileTree.writeAll_cons.mpr ⟨next, hwrite, hwritten⟩, hrefused⟩

/-- The results of a transformation have been written up to one that cannot be, and what was written
was not all there before. -/
def HalfWritten (paths : Paths) (tree after : FileTree) : Prop :=
  ∃ log results ready written refused rest,
    (runWork (prepare FileTree.fileSystem paths) log tree).1.1 = .ok results ∧
    results.files = written ++ refused :: rest ∧
    tree.makeDirectories paths.outDir = some ready ∧
    ready.writeAll paths.outDir written = some after ∧
    after.write (joinPath paths.outDir refused.1) refused.2 = none ∧
    ∃ file ∈ written, ready.read (joinPath paths.outDir file.1) ≠ some file.2

theorem nodup_names_files (results : Results) : (results.files.map (·.1)).Nodup := by
  show ["schema.graphql", "stack.json", "stack-mapping.json"].Nodup
  decide

theorem plain_names_files (results : Results) : ∀ file ∈ results.files, '/' ∉ file.1.toList := by
  have hnames : ∀ name ∈ ["schema.graphql", "stack.json", "stack-mapping.json"], '/' ∉ name.toList := by
    decide
  intro file hmem
  exact hnames file.1 (List.mem_map_of_mem hmem)

theorem file?_of_makeDirectories {path : String} {ready : FileTree}
    (h : tree.makeDirectories path = some ready) (place : List String) :
    ready.file? place = tree.file? place := by
  rw [FileTree.file?, FileTree.files_of_makeDirectories h, ← FileTree.file?]

theorem file?_of_written_iff {results : Results} {written rest : List (String × String)}
    {ready : FileTree} (hfiles : results.files = written ++ rest)
    (hready : tree.makeDirectories directory = some ready)
    (hwritten : ready.writeAll directory written = some after) :
    (∀ place, after.file? place = tree.file? place) ↔
      ∀ file ∈ written, ready.read (joinPath directory file.1) = some file.2 := by
  have hplain : ∀ file ∈ written, '/' ∉ file.1.toList := fun file hmem =>
    plain_names_files results file (hfiles ▸ List.mem_append_left rest hmem)
  have hnodup : (written.map (·.1)).Nodup := by
    have hall := nodup_names_files results
    rw [hfiles, List.map_append] at hall
    exact (List.nodup_append.mp hall).1
  rw [← FileTree.file?_of_writeAll_iff hwritten hplain hnodup]
  simp only [file?_of_makeDirectories hready]

theorem deliver_failed {paths : Paths} {results : Results}
    (h : runWork (deliver FileTree.fileSystem paths results) log tree =
      ((.error problem, logAfter), after)) :
    after = tree ∨ ∃ ready written refused rest, results.files = written ++ refused :: rest ∧
      tree.makeDirectories paths.outDir = some ready ∧
      ready.writeAll paths.outDir written = some after ∧
      after.write (joinPath paths.outDir refused.1) refused.2 = none := by
  cases hready : tree.makeDirectories paths.outDir with
  | none =>
    have hrun := (runWork_bind_of_ok (runWork_attempt_of_none hready)).symm.trans h
    exact Or.inl (Prod.mk.inj hrun).2.symm
  | some ready =>
    have hrun : runWork (results.files.forM (writeFile FileTree.fileSystem paths.outDir) >>= fun _ =>
        modify (· ++ [LogLine.finished results.transformed.length paths.outDir])) log ready =
          ((.error problem, logAfter), after) :=
      (runWork_bind_of_ok (runWork_attempt_of_some hready)).symm.trans h
    rcases hforM : runWork (results.files.forM (writeFile FileTree.fileSystem paths.outDir)) log ready
      with ⟨⟨result, middle⟩, reached⟩
    cases result with
    | ok _ =>
      rw [runWork_bind_of_ok hforM] at hrun
      cases hrun
    | error _ =>
      obtain ⟨_, rfl⟩ := Prod.mk.inj ((runWork_bind_of_error hforM).symm.trans hrun)
      obtain ⟨written, refused, rest, hfiles, hwritten, hrefused⟩ :=
        runWork_forM_writeFile_eq_error hforM
      exact Or.inr ⟨ready, written, refused, rest, hfiles, rfl, hwritten, hrefused⟩

/-- A transformation that fails leaves every file as it was, unless it is half written. -/
theorem transform_failed_iff {paths : Paths}
    (h : runWork (transform FileTree.fileSystem paths) log tree = ((.error problem, logAfter), after)) :
    (∀ place, after.file? place = tree.file? place) ↔ ¬HalfWritten paths tree after := by
  constructor
  · rintro hsame ⟨_, results, ready, written, _, _, _, hfiles, hready, hwritten, _, file, hmem, hnew⟩
    exact hnew ((file?_of_written_iff hfiles hready hwritten).mp hsame file hmem)
  · intro hnot
    rw [transform_eq] at h
    rcases hprepare : runWork (prepare FileTree.fileSystem paths) log tree with ⟨⟨result, middle⟩, same⟩
    obtain rfl : same = tree := by rw [← leavesFiles_prepare paths log tree, hprepare]
    cases result with
    | error _ =>
      obtain ⟨_, rfl⟩ := Prod.mk.inj ((runWork_bind_of_error hprepare).symm.trans h)
      exact fun _ => rfl
    | ok results =>
      rw [runWork_bind_of_ok hprepare] at h
      rcases deliver_failed h with
        rfl | ⟨ready, written, refused, rest, hfiles, hready, hwritten, hrefused⟩
      · exact fun _ => rfl
      · rw [file?_of_written_iff hfiles hready hwritten]
        intro file hmem
        by_cases hread : ready.read (joinPath paths.outDir file.1) = some file.2
        · exact hread
        · exact absurd ⟨log, results, ready, written, refused, rest, by rw [hprepare], hfiles, hready,
            hwritten, hrefused, file, hmem, hread⟩ hnot

/-! ## Whole runs -/

theorem runWork_runCommand_of_failed {invocation : Invocation}
    (h : ((run FileTree.fileSystem invocation).run tree).1.exitCode ≠ 0) :
    ∃ problem log, runWork (runCommand FileTree.fileSystem invocation.command) [LogLine.started] tree =
      ((.error problem, log), ((run FileTree.fileSystem invocation).run tree).2) := by
  rcases hrun : runWork (runCommand FileTree.fileSystem invocation.command) [LogLine.started] tree
    with ⟨⟨result, log⟩, after⟩
  have hcommand : (runCommand FileTree.fileSystem invocation.command [LogLine.started]).run tree =
      ((result, log), after) := hrun
  rw [run, StateT.run_bind, ExceptT.run, hcommand] at h ⊢
  cases result with
  | ok output => exact absurd rfl h
  | error problem => exact ⟨problem, log, rfl⟩

theorem runWork_transform_of_failed {paths : Paths}
    (h : runWork (runCommand FileTree.fileSystem (.transform paths)) log tree =
      ((.error problem, logAfter), after)) :
    runWork (transform FileTree.fileSystem paths) log tree = ((.error problem, logAfter), after) := by
  have hbind : runWork (transform FileTree.fileSystem paths >>= fun _ => pure "") log tree =
      ((.error problem, logAfter), after) := h
  rcases hrun : runWork (transform FileTree.fileSystem paths) log tree with ⟨⟨result, middle⟩, reached⟩
  cases result with
  | ok _ => cases (runWork_bind_of_ok hrun).symm.trans hbind
  | error _ =>
    rw [runWork_bind_of_error hrun] at hbind
    cases hbind
    rfl

/-- **A run that fails leaves every file as it was, exactly unless it is half written.** Whatever the
arguments are and whatever the tree holds, files have their texts and no file is new, unless a command line
asks for a transformation, and a result that was not there has been written by the time that another one
cannot be. -/
theorem runOnTree_failed_iff {environment : Environment} {arguments : List String}
    (h : (runOnTree environment arguments tree).1.exitCode ≠ 0) :
    (∀ place, (runOnTree environment arguments tree).2.file? place = tree.file? place) ↔
      ¬∃ paths, (Invocation.ofArguments environment arguments).map (·.command) = .ok (.transform paths) ∧
        HalfWritten paths tree (runOnTree environment arguments tree).2 := by
  cases hinvocation : Invocation.ofArguments environment arguments with
  | error exit =>
    refine iff_of_true (fun _ => ?_) fun ⟨_, hinvalid, _⟩ => nomatch hinvalid
    rw [runOnTree, hinvocation]
  | ok invocation =>
    rw [runOnTree, hinvocation] at h ⊢
    obtain ⟨problem, log, hrun⟩ := runWork_runCommand_of_failed h
    cases hcommand : invocation.command with
    | definition =>
      rw [hcommand] at hrun
      cases hrun
    | transform paths =>
      rw [hcommand] at hrun
      refine (transform_failed_iff (runWork_transform_of_failed hrun)).trans (not_congr ?_)
      constructor
      · intro hhalf
        exact ⟨paths, congrArg Except.ok hcommand, hhalf⟩
      · rintro ⟨others, hothers, hhalf⟩
        have hpaths := (Except.ok.inj hothers).symm.trans hcommand
        cases hpaths
        exact hhalf

/-! ## A directory in the place of a result -/

/-- A transformation whose output path leads through the place of the stack: the directories on the way
are made first, so there is one where the stack is to be written. -/
def blockingArguments : List String :=
  ["transform", "-s", "s.graphql", "-r", "r.json", "-o", "out/stack.json/.."]

def smallTree : FileTree :=
  .ofFiles [("s.graphql", "scalar Date"), ("r.json", "{}")]

theorem runOnTree_failed_iff_smallTree :
    let run := runOnTree (fun _ => none) blockingArguments smallTree
    run.1.exitCode ≠ 0 ∧
      ∃ paths, (Invocation.ofArguments (fun _ => none) blockingArguments).map (·.command) =
          .ok (.transform paths) ∧
        HalfWritten paths smallTree run.2 := by
  intro run
  have hfailed : run.1.exitCode ≠ 0 := by decide +kernel
  have hnew : run.2.file? ["out", "schema.graphql"] ≠ smallTree.file? ["out", "schema.graphql"] := by
    decide +kernel
  refine ⟨hfailed, Classical.byContradiction fun hnone => ?_⟩
  exact hnew ((runOnTree_failed_iff hfailed).mpr hnone _)

theorem schema_written_smallTree :
    let run := runOnTree (fun _ => none) blockingArguments smallTree
    run.1.exitCode = 1 ∧ run.1.problem = some "could not write out/stack.json/../stack.json" ∧
      smallTree.file? ["out", "schema.graphql"] = none ∧
      run.2.file? ["out", "schema.graphql"] = some "scalar Date\n" := by
  decide +kernel

end AuditFields.Cli
