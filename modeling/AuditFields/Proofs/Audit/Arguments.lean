import AuditFields.Proofs.Audit.Settings

/-!
# Which arguments count

An annotation may give an argument several times, in any order, beside null values and names that say
nothing. What it comes to is said here by places in the list: a setting is as the last argument of its
name says whose value is not null (`LastGiven`), and reading fails with the first argument whose value is
of a wrong kind (`FirstWrong`). Both are about one place of the list each, while the settings that are
read are folds over all of it, so `lastGiven_getLastD` carries the one to the other by induction on the
arguments, with the default as what was given before them.

That an argument without effect may come and go, that neighbours of different names may change places,
and that a field name reaches its own field alone, then comes down to what a list gives for one setting
(`read_congr`).
-/

namespace AuditFields

open Schema

theorem ArgumentKind.holds_boolean_iff {value : Value} :
    ArgumentKind.boolean.holds value = true ↔ ∃ b, value = .boolean b := by
  cases value <;> simp [holds, Value.boolean?]

theorem ArgumentKind.holds_string_iff {value : Value} :
    ArgumentKind.string.holds value = true ↔ ∃ s, value = .string s := by
  cases value <;> simp [holds, Value.string?]

theorem Schema.Value.string?_string (s : String) : (Value.string s).string? = some s := rfl

theorem Schema.Value.boolean?_boolean (b : Bool) : (Value.boolean b).boolean? = some b := rfl

namespace Settings

variable {α : Type} {arguments : List (String × Value)}

/-! ## Places in the list -/

/-- The argument is known, and its value is neither null nor of the kind that it takes. -/
def Wrong (argument : String × Value) (known : Argument) : Prop :=
  argument.1 = known.name ∧ argument.2 ≠ .null ∧ known.kind.holds argument.2 = false

/-- The failure is about the first wrong argument. -/
def FirstWrong (arguments : List (String × Value)) (failure : Failure) : Prop :=
  ∃ before argument after known, arguments = before ++ argument :: after ∧
    (∀ earlier ∈ before, ∀ other, ¬Wrong earlier other) ∧ Wrong argument known ∧
    failure = .wrongArgument argument.1 known.kind argument.2

/-- The value is the last one other than null that is given under the name, or the default if there is
none. -/
def LastGiven (arguments : List (String × Value)) (name : String) (literal : α → Value)
    (default value : α) : Prop :=
  (∃ before after, arguments = before ++ (name, literal value) :: after ∧
    ∀ later ∈ after, later.1 = name → later.2 = .null) ∨
  value = default ∧ ∀ argument ∈ arguments, argument.1 = name → argument.2 = .null

/-- Every setting is as it is last given under its name. -/
structure AsGiven (arguments : List (String × Value)) (settings : Settings) : Prop where
  name (field : AuditField) :
    LastGiven arguments (Argument.fieldName field).name Value.string field.defaultName
      (settings.name field)
  softDelete :
    LastGiven arguments Argument.softDelete.name Value.boolean true settings.softDelete
  identityRequired :
    LastGiven arguments Argument.identityRequired.name Value.boolean false settings.identityRequired

/-! ## What is wrong -/

theorem wrong?_eq_some_iff {argument : String × Value} {failure : Failure} :
    wrong? argument = some failure ↔
      ∃ known, Wrong argument known ∧ failure = .wrongArgument argument.1 known.kind argument.2 := by
  unfold wrong?
  cases hname : Argument.ofName? argument.1 with
  | none =>
    simp only [reduceCtorEq, false_iff]
    rintro ⟨known, ⟨heq, -, -⟩, -⟩
    rw [heq, Argument.ofName?_name] at hname
    cases hname
  | some known =>
    have hother : ∀ other : Argument, argument.1 = other.name ↔ known = other := by
      intro other
      rw [← Argument.name_of_ofName? hname]
      exact Argument.name_inj
    simp only [Wrong, hother]
    by_cases hfine : argument.2 = .null ∨ known.kind.holds argument.2 = true
    · rw [if_pos hfine]
      simp only [reduceCtorEq, false_iff]
      rintro ⟨other, ⟨rfl, hvalue, hkind⟩, -⟩
      rcases hfine with hnull | hholds
      · exact hvalue hnull
      · cases hkind.symm.trans hholds
    · rw [if_neg hfine]
      rw [not_or, Bool.not_eq_true] at hfine
      constructor
      · intro h
        exact ⟨known, ⟨rfl, hfine⟩, (Option.some.inj h).symm⟩
      · rintro ⟨other, ⟨rfl, -⟩, rfl⟩
        rfl

theorem wrong?_eq_none_iff {argument : String × Value} :
    wrong? argument = none ↔ ∀ known, ¬Wrong argument known := by
  rw [Option.eq_none_iff_forall_ne_some]
  constructor
  · intro h known hwrong
    exact h _ (wrong?_eq_some_iff.mpr ⟨known, hwrong, rfl⟩)
  · intro h failure hfailure
    obtain ⟨known, hwrong, -⟩ := wrong?_eq_some_iff.mp hfailure
    exact h known hwrong

theorem wrongArguments_eq_nil_iff {name : String} :
    wrongArguments ⟨name, arguments⟩ = [] ↔
      ∀ argument ∈ arguments, ∀ known, ¬Wrong argument known := by
  simp only [wrongArguments, List.filterMap_eq_nil_iff, wrong?_eq_none_iff]

theorem exists_wrongArguments_iff (name : String) {failure : Failure} :
    (∃ others, wrongArguments ⟨name, arguments⟩ = failure :: others) ↔
      FirstWrong arguments failure := by
  simp only [wrongArguments, List.filterMap_eq_cons_iff, wrong?_eq_none_iff, wrong?_eq_some_iff]
  constructor
  · rintro ⟨_, before, argument, after, hsplit, hbefore, ⟨known, hwrong, hfailure⟩, -⟩
    exact ⟨before, argument, after, known, hsplit, hbefore, hwrong, hfailure⟩
  · rintro ⟨before, argument, after, known, hsplit, hbefore, hwrong, hfailure⟩
    exact ⟨_, before, argument, after, hsplit, hbefore, ⟨known, hwrong, hfailure⟩, rfl⟩

/-! ## What is given -/

section

variable {read : Value → Option α} {literal : α → Value} {setting : Argument}

theorem valuesFor_cons (argument : String × Value) (rest : List (String × Value)) :
    valuesFor read setting (argument :: rest) =
      valuesFor read setting [argument] ++ valuesFor read setting rest := by
  simp only [valuesFor]
  rw [← List.filterMap_append, List.singleton_append]

theorem valuesFor_append (first second : List (String × Value)) :
    valuesFor read setting (first ++ second) =
      valuesFor read setting first ++ valuesFor read setting second :=
  List.filterMap_append

theorem valuesFor_of_ne {argument : String × Value} (h : argument.1 ≠ setting.name) :
    valuesFor read setting [argument] = [] := by
  simp [valuesFor, h]

theorem valuesFor_eq_nil (hnull : read .null = none)
    (h : ∀ argument ∈ arguments, argument.1 = setting.name → argument.2 = .null) :
    valuesFor read setting arguments = [] := by
  rw [valuesFor, List.filterMap_eq_nil_iff]
  intro argument hmem
  split
  · next hname => rw [h argument hmem hname, hnull]
  · rfl

theorem LastGiven.eq_getLastD (hread : ∀ x, read (literal x) = some x) (hnull : read .null = none)
    {default value : α} (h : LastGiven arguments setting.name literal default value) :
    value = (valuesFor read setting arguments).getLastD default := by
  rcases h with ⟨before, after, rfl, hlast⟩ | ⟨rfl, hnone⟩
  · have hself : valuesFor read setting [(setting.name, literal value)] = [value] := by
      simp [valuesFor, hread]
    rw [valuesFor_append, valuesFor_cons, hself, valuesFor_eq_nil hnull hlast, List.append_nil,
      List.getLastD_concat]
  · rw [valuesFor_eq_nil hnull hnone, List.getLastD_nil]

theorem LastGiven.cons {name : String} {default first value : α}
    (h : LastGiven arguments name literal first value) :
    LastGiven ((name, literal first) :: arguments) name literal default value := by
  left
  rcases h with ⟨before, after, rfl, hlast⟩ | ⟨rfl, hnone⟩
  · exact ⟨(name, literal first) :: before, after, rfl, hlast⟩
  · exact ⟨[], arguments, rfl, hnone⟩

theorem LastGiven.cons_idle {name : String} {default value : α} {argument : String × Value}
    (hidle : argument.1 = name → argument.2 = .null)
    (h : LastGiven arguments name literal default value) :
    LastGiven (argument :: arguments) name literal default value := by
  rcases h with ⟨before, after, rfl, hlast⟩ | ⟨rfl, hnone⟩
  · exact Or.inl ⟨argument :: before, after, rfl, hlast⟩
  · exact Or.inr ⟨rfl, List.forall_mem_cons.mpr ⟨hidle, hnone⟩⟩

theorem lastGiven_getLastD (hread : ∀ x, read (literal x) = some x) (hnull : read .null = none)
    (hkind : ∀ argument ∈ arguments, argument.1 = setting.name → argument.2 ≠ .null →
      ∃ x, argument.2 = literal x) (default : α) :
    LastGiven arguments setting.name literal default
      ((valuesFor read setting arguments).getLastD default) := by
  induction arguments generalizing default with
  | nil => exact Or.inr ⟨rfl, fun _ hmem => nomatch hmem⟩
  | cons argument rest ih =>
    have hrest := ih fun other hmem => hkind other (List.mem_cons_of_mem _ hmem)
    rw [valuesFor_cons]
    by_cases hidle : argument.1 = setting.name → argument.2 = .null
    · have hself : valuesFor read setting [argument] = [] :=
        valuesFor_eq_nil hnull (List.forall_mem_singleton.mpr hidle)
      rw [hself, List.nil_append]
      exact (hrest default).cons_idle hidle
    · obtain ⟨hname, hvalue⟩ := Classical.not_imp.mp hidle
      obtain ⟨x, hx⟩ := hkind argument List.mem_cons_self hname hvalue
      obtain rfl : argument = (setting.name, literal x) := Prod.ext hname hx
      have hself : valuesFor read setting [(setting.name, literal x)] = [x] := by
        simp [valuesFor, hread]
      rw [hself, List.singleton_append, List.getLastD_cons]
      exact (hrest x).cons

end

theorem asGiven_given {name : String} (h : ∀ argument ∈ arguments, ∀ known, ¬Wrong argument known) :
    AsGiven arguments (given ⟨name, arguments⟩) := by
  have hkind : ∀ known : Argument, ∀ argument ∈ arguments, argument.1 = known.name →
      argument.2 ≠ .null → known.kind.holds argument.2 = true := by
    intro known argument hmem hname hvalue
    exact Bool.of_not_eq_false fun hkind => h argument hmem known ⟨hname, hvalue, hkind⟩
  have hboolean : ∀ known : Argument, known.kind = .boolean → ∀ argument ∈ arguments,
      argument.1 = known.name → argument.2 ≠ .null → ∃ b, argument.2 = .boolean b := by
    intro known hknown argument hmem hname hvalue
    exact ArgumentKind.holds_boolean_iff.mp (hknown ▸ hkind known argument hmem hname hvalue)
  have hname : ∀ field : AuditField, ∀ argument ∈ arguments,
      argument.1 = (Argument.fieldName field).name → argument.2 ≠ .null →
        ∃ s, argument.2 = .string s := by
    intro field argument hmem hname hvalue
    exact ArgumentKind.holds_string_iff.mp (hkind _ argument hmem hname hvalue)
  exact {
    name := fun field => lastGiven_getLastD Value.string?_string rfl (hname field) _
    softDelete := lastGiven_getLastD Value.boolean?_boolean rfl (hboolean .softDelete rfl) _
    identityRequired :=
      lastGiven_getLastD Value.boolean?_boolean rfl (hboolean .identityRequired rfl) _ }

theorem AsGiven.eq_given {name : String} {settings : Settings} (h : AsGiven arguments settings) :
    settings = given ⟨name, arguments⟩ := by
  have hname : settings.name = (given ⟨name, arguments⟩).name :=
    funext fun field => (h.name field).eq_getLastD Value.string?_string rfl
  have hsoft : settings.softDelete = (given ⟨name, arguments⟩).softDelete :=
    h.softDelete.eq_getLastD Value.boolean?_boolean rfl
  have hrequired : settings.identityRequired = (given ⟨name, arguments⟩).identityRequired :=
    h.identityRequired.eq_getLastD Value.boolean?_boolean rfl
  refine (eq_iff _ _).mp ⟨?_, hsoft, hrequired⟩
  rw [names, names, hname]

/-! ## What is read -/

theorem read_eq_error_iff {name : String} {failure : Failure} :
    read ⟨name, arguments⟩ = .error failure ↔ FirstWrong arguments failure := by
  rw [← exists_wrongArguments_iff name, read_eq]
  cases wrongArguments ⟨name, arguments⟩ with
  | nil => simp [Except.verdict, Except.map]
  | cons first others => simp [Except.verdict, Except.map]

theorem exists_read_eq_error_iff {name : String} :
    (∃ failure, read ⟨name, arguments⟩ = .error failure) ↔
      ∃ argument ∈ arguments, ∃ known, Wrong argument known := by
  rw [read_eq]
  cases hwrong : wrongArguments ⟨name, arguments⟩ with
  | nil =>
    have hnone := wrongArguments_eq_nil_iff.mp hwrong
    refine iff_of_false (fun ⟨failure, hfailure⟩ => nomatch hfailure) ?_
    rintro ⟨argument, hmem, known, hargument⟩
    exact hnone argument hmem known hargument
  | cons failure others =>
    refine iff_of_true ⟨failure, rfl⟩ ?_
    obtain ⟨before, argument, after, known, rfl, -, hargument, -⟩ :=
      (exists_wrongArguments_iff name).mp ⟨others, hwrong⟩
    exact ⟨argument, List.mem_append_right _ List.mem_cons_self, known, hargument⟩

theorem read_eq_ok_cases {directive : Directive} {settings : Settings}
    (h : read directive = .ok settings) :
    wrongArguments directive = [] ∧ settings = given directive := by
  rw [read_eq] at h
  obtain ⟨_, hverdict, hgiven⟩ := Except.map_eq_ok_iff.mp h
  cases hwrong : wrongArguments directive with
  | nil => exact ⟨rfl, hgiven.symm⟩
  | cons failure others =>
    rw [hwrong] at hverdict
    cases hverdict

theorem read_eq_ok_iff {name : String} {settings : Settings} :
    read ⟨name, arguments⟩ = .ok settings ↔
      (∀ argument ∈ arguments, ∀ known, ¬Wrong argument known) ∧ AsGiven arguments settings := by
  constructor
  · intro h
    obtain ⟨hwrong, rfl⟩ := read_eq_ok_cases h
    have hnone := wrongArguments_eq_nil_iff.mp hwrong
    exact ⟨hnone, asGiven_given hnone⟩
  · rintro ⟨hnone, hgiven⟩
    rw [read_eq, wrongArguments_eq_nil_iff.mpr hnone, hgiven.eq_given]
    rfl

/-! ## Arguments that come, go and move -/

theorem wrongArguments_insert (name : String) (before : List (String × Value))
    {argument : String × Value} (after : List (String × Value)) (h : wrong? argument = none) :
    wrongArguments ⟨name, before ++ argument :: after⟩ = wrongArguments ⟨name, before ++ after⟩ := by
  simp only [wrongArguments, List.filterMap_append, List.filterMap_cons_none h]

theorem valuesFor_insert {read : Value → Option α} {setting : Argument} {argument : String × Value}
    (before after : List (String × Value)) (h : valuesFor read setting [argument] = []) :
    valuesFor read setting (before ++ argument :: after) =
      valuesFor read setting (before ++ after) := by
  rw [valuesFor_append, valuesFor_append, valuesFor_cons argument, h, List.nil_append]

theorem valuesFor_move {read : Value → Option α} {setting : Argument} {argument : String × Value}
    (before : List (String × Value)) (other : String × Value) (after : List (String × Value))
    (h : valuesFor read setting [argument] = []) :
    valuesFor read setting (before ++ argument :: other :: after) =
      valuesFor read setting (before ++ other :: argument :: after) := by
  have hlater := valuesFor_insert (before ++ [other]) after h
  rw [← List.append_cons, ← List.append_cons] at hlater
  rw [hlater, valuesFor_insert before (other :: after) h]

theorem read_congr {name : String} {others : List (String × Value)}
    (hwrong : wrongArguments ⟨name, arguments⟩ = wrongArguments ⟨name, others⟩)
    (hvalues : ∀ {α : Type} (read : Value → Option α) (setting : Argument), read .null = none →
      valuesFor read setting arguments = valuesFor read setting others) :
    read ⟨name, arguments⟩ = read ⟨name, others⟩ := by
  have hgiven : given ⟨name, arguments⟩ = given ⟨name, others⟩ := by
    simp only [given, updatedBy, hvalues Value.string? _ rfl, hvalues Value.boolean? _ rfl]
  rw [read_eq, read_eq, hwrong, hgiven]

/-- The argument is null or unknown. -/
def Idle (argument : String × Value) : Prop :=
  argument.2 = .null ∨ ∀ known : Argument, argument.1 ≠ known.name

theorem read_idle (name : String) (before : List (String × Value)) {argument : String × Value}
    (after : List (String × Value)) (h : Idle argument) :
    read ⟨name, before ++ argument :: after⟩ = read ⟨name, before ++ after⟩ := by
  refine read_congr (wrongArguments_insert _ _ _ ?_) fun read setting hnull => valuesFor_insert _ _ ?_
  · refine wrong?_eq_none_iff.mpr fun known ⟨hname, hvalue, _⟩ => ?_
    exact h.elim hvalue fun hunknown => hunknown known hname
  · refine valuesFor_eq_nil hnull (List.forall_mem_singleton.mpr fun hname => ?_)
    exact h.elim id fun hunknown => absurd hname (hunknown setting)

theorem read_swap {name : String} {before after : List (String × Value)}
    {first second : String × Value} {settings : Settings} (hne : first.1 ≠ second.1)
    (h : read ⟨name, before ++ first :: second :: after⟩ = .ok settings) :
    read ⟨name, before ++ second :: first :: after⟩ = .ok settings := by
  obtain ⟨hwrong, -⟩ := read_eq_ok_cases h
  have hperm : (before ++ second :: first :: after).Perm (before ++ first :: second :: after) :=
    (List.Perm.swap first second after).append_left before
  have hswapped : wrongArguments ⟨name, before ++ second :: first :: after⟩ = [] :=
    wrongArguments_eq_nil_iff.mpr fun argument hmem =>
      wrongArguments_eq_nil_iff.mp hwrong argument (hperm.mem_iff.mp hmem)
  rw [← h]
  refine read_congr (hswapped.trans hwrong.symm) fun read setting _ => ?_
  -- One of the two is of another name than the setting, and gives it nothing.
  by_cases hfirst : first.1 = setting.name
  · exact valuesFor_move before first after (valuesFor_of_ne fun heq => hne (hfirst.trans heq.symm))
  · exact (valuesFor_move before second after (valuesFor_of_ne hfirst)).symm

theorem given_fieldName (name : String) (before after : List (String × Value)) (field : AuditField)
    (value : Value) :
    ∃ shown, given ⟨name, before ++ ((Argument.fieldName field).name, value) :: after⟩ =
      (given ⟨name, before ++ after⟩).rename field shown := by
  have hother : ∀ {α : Type} (read : Value → Option α) (setting : Argument),
      setting ≠ .fieldName field →
        valuesFor read setting (before ++ ((Argument.fieldName field).name, value) :: after) =
          valuesFor read setting (before ++ after) := by
    intro α read setting hsetting
    exact valuesFor_insert _ _ (valuesFor_of_ne fun hname => hsetting (Argument.name_inj.mp hname).symm)
  refine ⟨(given ⟨name, before ++ ((Argument.fieldName field).name, value) :: after⟩).name field,
    (eq_iff _ _).mp ⟨List.map_congr_left fun other _ => ?_, ?_, ?_⟩⟩
  · by_cases hfield : other = field
    · subst hfield
      exact (if_pos rfl).symm
    · have hsetting : Argument.fieldName other ≠ .fieldName field :=
        fun heq => hfield (Argument.fieldName.inj heq)
      simp only [rename, if_neg hfield, given, updatedBy, hother Value.string? _ hsetting]
  · simp only [rename, given, updatedBy, hother Value.boolean? .softDelete (by simp)]
  · simp only [rename, given, updatedBy, hother Value.boolean? .identityRequired (by simp)]

theorem read_fieldName {name : String} {before after : List (String × Value)} {settings : Settings}
    (field : AuditField) (s : String) (h : read ⟨name, before ++ after⟩ = .ok settings) :
    ∃ shown, read ⟨name, before ++ (field.argument, .string s) :: after⟩ =
      .ok (settings.rename field shown) := by
  obtain ⟨hwrong, rfl⟩ := read_eq_ok_cases h
  obtain ⟨shown, hshown⟩ := given_fieldName name before after field (.string s)
  have hfine : wrong? ((Argument.fieldName field).name, .string s) = none := by
    simp [wrong?, Argument.ofName?_name, Argument.kind, ArgumentKind.holds, Value.string?]
  refine ⟨shown, ?_⟩
  rw [← hshown]
  show read ⟨name, before ++ ((Argument.fieldName field).name, .string s) :: after⟩ = _
  rw [read_eq, wrongArguments_insert _ _ _ hfine, hwrong]
  rfl

/-! ## The annotation -/

/-- **An annotation is read as its last arguments say, and fails with its first wrong one.** Reading
leaves the state of the task alone. It fails exactly if a known argument has a value that is neither null
nor of its kind, and the failure is then about the first such argument; otherwise each setting is as it is
last given under its name, or as by default. So an argument that is null or unknown may stand anywhere or
be left out, neighbours of different names may change places where nothing is wrong, and a name that is
given for a field changes no setting but the name of that field. -/
theorem ofDirective_lastGiven (name : String) (arguments : List (String × Value)) :
    (∀ σ : Type, (ofDirective ⟨name, arguments⟩ : Task σ Settings).Gives (read ⟨name, arguments⟩)) ∧
    ((∃ failure, read ⟨name, arguments⟩ = .error failure) ↔
      ∃ argument ∈ arguments, ∃ known, Wrong argument known) ∧
    (∀ failure, read ⟨name, arguments⟩ = .error failure ↔ FirstWrong arguments failure) ∧
    (∀ settings, read ⟨name, arguments⟩ = .ok settings ↔
      (∀ argument ∈ arguments, ∀ known, ¬Wrong argument known) ∧ AsGiven arguments settings) ∧
    (∀ before argument after, Idle argument →
      read ⟨name, before ++ argument :: after⟩ = read ⟨name, before ++ after⟩) ∧
    (∀ before first second after settings, first.1 ≠ second.1 →
      read ⟨name, before ++ first :: second :: after⟩ = .ok settings →
      read ⟨name, before ++ second :: first :: after⟩ = .ok settings) ∧
    (∀ before field s after settings, read ⟨name, before ++ after⟩ = .ok settings →
      ∃ shown, read ⟨name, before ++ (field.argument, .string s) :: after⟩ =
        .ok (settings.rename field shown)) := by
  refine ⟨fun σ => gives_ofDirective _, exists_read_eq_error_iff, fun failure => read_eq_error_iff,
    fun settings => read_eq_ok_iff, ?_, ?_, ?_⟩
  · intro before argument after hidle
    exact read_idle name before after hidle
  · intro before first second after settings hne h
    exact read_swap hne h
  · intro before field s after settings h
    exact read_fieldName field s h

-- The last name that is not null counts, and a note says nothing.
example :
    (read ⟨Naming.auditDirective, [("deletedField", .string "gone"), ("note", .boolean true),
      ("deletedField", .string "archived"), ("deletedField", .null)]⟩).toOption =
        some (({} : Settings).rename .deleted "archived") := by
  decide

end Settings

end AuditFields
