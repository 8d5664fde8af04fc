import AuditFields.Audit.Templates
import AuditFields.Proofs.Template.Running
import Mathlib.Data.List.Nodup

/-!
# What the templates do to requests

Both templates of an annotated type find out who makes the request and then write bookkeeping fields
of its input. If an identity is required and there is none, a template refuses the request and leaves
it as it was. Otherwise it writes the times and actors of creation and update over whatever the client
sent; on creation it resets the flag, and on update it resets the flag only if the client had set it,
and then records the deletion (`templates_stamp`).

The resolver of the soft delete mutation runs the one template after the other. The first resets the
flag, so the second one never finds it set, and the deletion is not recorded
(`update_after_create_keeps_deletion`).
-/

namespace AuditFields

theorem Settings.name_injective {settings : Settings} (h : settings.names.Nodup) :
    Function.Injective settings.name :=
  fun field other heq => List.inj_on_of_nodup_map h (AuditField.mem_all field) (AuditField.mem_all other) heq

theorem Settings.isAuditName_name (settings : Settings) (field : AuditField) :
    settings.isAuditName (settings.name field) = true :=
  List.contains_iff_mem.mpr (List.mem_map_of_mem (AuditField.mem_all field))

namespace Audit

variable {config : Config} {settings : Settings} {request : Request}

/-! ## Who makes a request -/

/-- The request has no value other than null for the claim. -/
def Missing (request : Request) (claim : String) : Prop :=
  ∀ value, request.claims.get? claim = some value → value = .null

/-- What stands in for the identity if no claim is there. -/
def standIn (config : Config) (settings : Settings) : Json :=
  if settings.identityRequired then .null else .string config.missingIdentityValue

/-- The identity is the value of the first claim that is there, or else what stands in for it. -/
inductive Identifies (config : Config) (settings : Settings) (request : Request) : Json → Prop
  | claim {before after : List String} {claim : String} {identity : Json}
      (split : config.identityClaims = before ++ claim :: after)
      (found : request.claims.get? claim = some identity) (present : identity ≠ .null)
      (first : ∀ other ∈ before, Missing request other) :
      Identifies config settings request identity
  | missing (none : ∀ claim ∈ config.identityClaims, Missing request claim) :
      Identifies config settings request (standIn config settings)

/-- The identity that the templates resolve. -/
def identityOf (config : Config) (settings : Settings) (request : Request) : Json :=
  resolvedIdentity request config.identityClaims
    (if settings.identityRequired then none else some config.missingIdentityValue)

theorem missing_of_firstClaim?_eq_none {request : Request} {claims : List String}
    (h : firstClaim? request claims = none) : ∀ claim ∈ claims, Missing request claim := by
  intro claim hclaim value hvalue
  have hskipped := List.findSome?_eq_none_iff.mp h claim hclaim
  rw [hvalue] at hskipped
  cases value <;> simp_all [Json.isNull]

theorem identifies_identityOf (config : Config) (settings : Settings) (request : Request) :
    Identifies config settings request (identityOf config settings request) := by
  unfold identityOf resolvedIdentity
  cases hfirst : firstClaim? request config.identityClaims with
  | none =>
    have hstand : (none : Option Json).getD ((if settings.identityRequired then none
        else some config.missingIdentityValue).elim .null .string) = standIn config settings := by
      unfold standIn
      split <;> rfl
    rw [hstand]
    exact .missing (missing_of_firstClaim?_eq_none hfirst)
  | some identity =>
    obtain ⟨before, claim, after, hsplit, hclaim, hbefore⟩ := List.findSome?_eq_some_iff.mp hfirst
    have hmissing : firstClaim? request before = none := List.findSome?_eq_none_iff.mpr hbefore
    cases hvalue : request.claims.get? claim with
    | none =>
      rw [hvalue] at hclaim
      cases hclaim
    | some value =>
      rw [hvalue] at hclaim
      dsimp only at hclaim
      split at hclaim
      · cases hclaim
      · next hpresent =>
        obtain rfl := Option.some.inj hclaim
        have hnotnull : value ≠ .null := by
          rintro rfl
          exact hpresent rfl
        exact .claim hsplit hvalue hnotnull (missing_of_firstClaim?_eq_none hmissing)

/-- The settings require an identity, and what is there instead is null or empty. -/
def Refused (settings : Settings) (identity : Json) : Prop :=
  settings.identityRequired = true ∧ (identity = .null ∨ identity = .string "")

instance (settings : Settings) (identity : Json) : Decidable (Refused settings identity) :=
  inferInstanceAs (Decidable (_ ∧ _))

theorem isAbsentIdentity_iff {identity : Json} :
    isAbsentIdentity identity = true ↔ identity = .null ∨ identity = .string "" := by
  cases identity <;> simp [isAbsentIdentity]

/-- The statements in front of both templates resolve the identity, and refuse the request if it is
required and absent. -/
theorem run_identify (config : Config) (settings : Settings) (request : Request) :
    (Statement.evalAll (identify config settings)).run { request } =
      (if Refused settings (identityOf config settings request) then .error .noIdentity else .ok (),
        { request, identity := some (identityOf config settings request) }) := by
  unfold identify Refused identityOf
  by_cases hrequired : settings.identityRequired
  · simp only [hrequired, if_true, true_and]
    rw [Statement.run_evalAll_cons_of_ok (Statement.run_eval_identify _ _ _)]
    have hdemand := Statement.run_eval_demandIdentity
      (rfl : ({ request, identity := some (resolvedIdentity request config.identityClaims none) } :
        Run).identity = _)
    simp only [isAbsentIdentity_iff] at hdemand
    split
    · next habsent =>
      rw [if_pos habsent] at hdemand
      exact Statement.run_evalAll_cons_of_error hdemand []
    · next hpresent =>
      rw [if_neg hpresent] at hdemand
      rw [Statement.run_evalAll_cons_of_ok hdemand, Statement.run_evalAll_nil]
  · simp only [hrequired, Bool.false_eq_true, if_false, false_and]
    rw [Statement.run_evalAll_cons_of_ok (Statement.run_eval_identify _ _ _),
      Statement.run_evalAll_nil]

/-! ## What is written -/

/-- The request with bookkeeping fields of its input written one after the other. -/
def stamped (settings : Settings) (writes : List (AuditField × Json)) (request : Request) : Request :=
  { request with
    input := request.input.putAll (writes.map fun write => (settings.name write.1, write.2)) }

/-- When and by whom an object is created and updated. -/
def stamps (now : Int) (identity : Json) : List (AuditField × Json) :=
  [(.createdAt, .int now), (.createdBy, identity), (.updatedAt, .int now), (.updatedBy, identity)]

/-- The flag is reset, and when and by whom an object is deleted. -/
def deletionStamps (now : Int) (identity : Json) : List (AuditField × Json) :=
  [(.deleted, .bool false), (.deletedAt, .int now), (.deletedBy, identity)]

theorem nodup_stamps (now : Int) (identity : Json) : ((stamps now identity).map (·.1)).Nodup :=
  (by decide : [AuditField.createdAt, .createdBy, .updatedAt, .updatedBy].Nodup)

theorem nodup_stamps_reset (now : Int) (identity : Json) :
    ((stamps now identity ++ [(AuditField.deleted, Json.bool false)]).map (·.1)).Nodup :=
  (by decide : [AuditField.createdAt, .createdBy, .updatedAt, .updatedBy, .deleted].Nodup)

theorem nodup_stamps_deletionStamps (now : Int) (identity : Json) :
    ((stamps now identity ++ deletionStamps now identity).map (·.1)).Nodup :=
  (by decide : AuditField.all.Nodup)

/-- The client has set the flag. -/
def Flagged (settings : Settings) (request : Request) : Prop :=
  request.input.get? (settings.name .deleted) = some (.bool true)

instance (settings : Settings) (request : Request) : Decidable (Flagged settings request) :=
  inferInstanceAs (Decidable (_ = _))

theorem statements_templateOnCreate (config : Config) (settings : Settings) :
    (templateOnCreate config settings).statements =
      identify config settings ++ (stamp settings ++ [put settings .deleted (.bool false)]) :=
  List.append_assoc _ _ _

theorem statements_templateOnUpdate (config : Config) (settings : Settings) :
    (templateOnUpdate config settings).statements = identify config settings ++
      (stamp settings ++ [.ifTrue (settings.name .deleted) (stampDeletion settings)]) :=
  List.append_assoc _ _ _

theorem evaluate_of_refused {template : RequestTemplate} {others : List Statement}
    (htemplate : template.statements = identify config settings ++ others)
    (hrefused : Refused settings (identityOf config settings request)) :
    template.evaluate request = (.error .noIdentity, request) := by
  have hidentify := run_identify config settings request
  rw [if_pos hrefused] at hidentify
  rw [RequestTemplate.evaluate, htemplate, Statement.run_evalAll_append_of_error hidentify]

theorem evaluate_of_accepted {template : RequestTemplate} {others : List Statement}
    (htemplate : template.statements = identify config settings ++ others)
    (haccepted : ¬ Refused settings (identityOf config settings request))
    {outcome : Except RequestRefusal Unit} {after : Run}
    (hothers : (Statement.evalAll others).run
      { request, identity := some (identityOf config settings request) } = (outcome, after)) :
    template.evaluate request = (outcome, after.request) := by
  have hidentify := run_identify config settings request
  rw [if_neg haccepted] at hidentify
  rw [RequestTemplate.evaluate, htemplate, Statement.run_evalAll_append_of_ok hidentify, hothers]

theorem run_stamp (settings : Settings) (request : Request) (identity : Json) :
    (Statement.evalAll (stamp settings)).run { request, identity := some identity } =
      (.ok (), { request := stamped settings (stamps request.now identity) request
                 identity := some identity }) :=
  Statement.run_evalAll_puts rfl
    [(settings.name .createdAt, .now), (settings.name .createdBy, .identity),
     (settings.name .updatedAt, .now), (settings.name .updatedBy, .identity)]

theorem evaluate_templateOnCreate (haccepted : ¬ Refused settings (identityOf config settings request)) :
    (templateOnCreate config settings).evaluate request =
      (.ok (), stamped settings
        (stamps request.now (identityOf config settings request) ++ [(.deleted, .bool false)]) request) := by
  have hreset := Statement.run_evalAll_puts
    (rfl : (Run.mk (stamped settings (stamps request.now (identityOf config settings request)) request)
      (some (identityOf config settings request))).identity = some (identityOf config settings request))
    [(settings.name .deleted, .bool false)]
  exact evaluate_of_accepted (statements_templateOnCreate config settings) haccepted
    ((Statement.run_evalAll_append_of_ok (run_stamp settings request _) _).trans hreset)

/-- The flag is looked at once the stamps are written. -/
theorem evaluate_templateOnUpdate (haccepted : ¬ Refused settings (identityOf config settings request)) :
    let identity := identityOf config settings request
    (templateOnUpdate config settings).evaluate request =
      (.ok (), stamped settings
        (stamps request.now identity ++
          if Flagged settings (stamped settings (stamps request.now identity) request) then
            deletionStamps request.now identity
          else []) request) := by
  intro identity
  have hstamp := run_stamp settings request identity
  split
  · next hflagged =>
    have hset : (Run.mk (stamped settings (stamps request.now identity) request)
        (some identity)).request.input.get? (settings.name .deleted) = some (.bool true) := hflagged
    have hbody := Statement.run_evalAll_puts
      (rfl : (Run.mk (stamped settings (stamps request.now identity) request)
        (some identity)).identity = some identity)
      [(settings.name .deleted, .bool false), (settings.name .deletedAt, .now),
       (settings.name .deletedBy, .identity)]
    have hif := (Statement.run_eval_ifTrue_of_true hset (stampDeletion settings)).trans hbody
    exact evaluate_of_accepted (statements_templateOnUpdate config settings) haccepted
      ((Statement.run_evalAll_append_of_ok hstamp _).trans
        ((Statement.run_evalAll_cons_of_ok hif []).trans (Statement.run_evalAll_nil _)))
  · next hunflagged =>
    have hunset : (Run.mk (stamped settings (stamps request.now identity) request)
        (some identity)).request.input.get? (settings.name .deleted) ≠ some (.bool true) := hunflagged
    have hif := Statement.run_eval_ifTrue_of_not_true hunset (stampDeletion settings)
    rw [List.append_nil]
    exact evaluate_of_accepted (statements_templateOnUpdate config settings) haccepted
      ((Statement.run_evalAll_append_of_ok hstamp _).trans
        ((Statement.run_evalAll_cons_of_ok hif []).trans (Statement.run_evalAll_nil _)))

/-! ## What is found afterwards -/

/-- From one request to the other, exactly the writes have been made: each bookkeeping field has the
value written or the one it had, everything else is as it was, no member of the input has moved, and
new ones are at the end in the order of the writes. -/
structure Stamped (settings : Settings) (writes : List (AuditField × Json)) (before after : Request) :
    Prop where
  field (field : AuditField) : after.input.get? (settings.name field) =
    (writes.lookup field <|> before.input.get? (settings.name field))
  other {name : String} (h : settings.isAuditName name = false) :
    after.input.get? name = before.input.get? name
  order : after.input.names =
    (writes.map fun write => settings.name write.1).foldl Entries.withName before.input.names
  claims : after.claims = before.claims
  now : after.now = before.now

theorem stamped_stamped (settings : Settings) {writes : List (AuditField × Json)}
    (hnames : settings.names.Nodup) (hwrites : (writes.map (·.1)).Nodup) (request : Request) :
    Stamped settings writes request (stamped settings writes request) where
  field field := by
    have hnodup : ((writes.map fun write => (settings.name write.1, write.2)).map (·.1)).Nodup := by
      have := hwrites.map (Settings.name_injective hnames)
      rwa [List.map_map] at this ⊢
    have hlookup : ∀ writes : List (AuditField × Json),
        Entries.get? (writes.map fun write => (settings.name write.1, write.2)) (settings.name field) =
          writes.lookup field := by
      intro writes
      induction writes with
      | nil => rfl
      | cons write writes ih =>
        rw [List.map_cons, Entries.get?_cons, ih, List.lookup_cons]
        by_cases heq : write.1 = field
        · rw [if_pos (by rw [heq]), heq, beq_self_eq_true]
        · rw [if_neg fun h => heq (Settings.name_injective hnames h), beq_false_of_ne (Ne.symm heq)]
    rw [stamped, Entries.get?_putAll hnodup, hlookup]
  other {name} h := by
    refine Entries.get?_putAll_of_not_mem (fun hmem => ?_) _
    obtain ⟨_, hwrite, rfl⟩ := List.mem_map.mp hmem
    obtain ⟨write, _, rfl⟩ := List.mem_map.mp hwrite
    rw [Settings.isAuditName_name] at h
    cases h
  order := by
    rw [stamped, Entries.names_putAll, List.map_map]
    rfl
  claims := rfl
  now := rfl

theorem flagged_stamped_stamps (hnames : settings.names.Nodup) (identity : Json) :
    Flagged settings (stamped settings (stamps request.now identity) request) ↔
      Flagged settings request := by
  unfold Flagged
  rw [(stamped_stamped settings hnames (nodup_stamps _ _) request).field .deleted]
  rfl

theorem stamped_templateOnUpdate (hnames : settings.names.Nodup)
    (haccepted : ¬ Refused settings (identityOf config settings request)) :
    let identity := identityOf config settings request
    ∃ updated, (templateOnUpdate config settings).evaluate request = (.ok (), updated) ∧
      Stamped settings (stamps request.now identity ++
        if Flagged settings request then deletionStamps request.now identity else []) request updated := by
  intro identity
  refine ⟨_, evaluate_templateOnUpdate haccepted, ?_⟩
  simp only [flagged_stamped_stamps hnames]
  refine stamped_stamped settings hnames ?_ request
  split
  · exact nodup_stamps_deletionStamps _ _
  · rw [List.append_nil]
    exact nodup_stamps _ _

/-- **The templates of an annotated type put what the server knows over what the client sent, and refuse
a request cleanly.** A request is refused exactly if an identity is required and the resolved one is
null or empty; then it is as before. Otherwise both templates succeed, and with pairwise different
names each bookkeeping field has the value written or the one the client sent, and all else of the
request is as it was, in its order. -/
theorem templates_stamp (config : Config) (settings : Settings) (request : Request) :
    ∃ identity, Identifies config settings request identity ∧
      if Refused settings identity then
        (templateOnCreate config settings).evaluate request = (.error .noIdentity, request) ∧
        (templateOnUpdate config settings).evaluate request = (.error .noIdentity, request)
      else
        ∃ created updated,
          (templateOnCreate config settings).evaluate request = (.ok (), created) ∧
          (templateOnUpdate config settings).evaluate request = (.ok (), updated) ∧
          (settings.names.Nodup →
            Stamped settings (stamps request.now identity ++ [(.deleted, .bool false)]) request created ∧
            Stamped settings
              (stamps request.now identity ++
                if Flagged settings request then deletionStamps request.now identity else [])
              request updated) := by
  refine ⟨identityOf config settings request, identifies_identityOf config settings request, ?_⟩
  split
  · next hrefused =>
    exact ⟨evaluate_of_refused (statements_templateOnCreate config settings) hrefused,
      evaluate_of_refused (statements_templateOnUpdate config settings) hrefused⟩
  · next haccepted =>
    refine ⟨_, _, evaluate_templateOnCreate haccepted, evaluate_templateOnUpdate haccepted,
      fun hnames => ⟨stamped_stamped settings hnames (nodup_stamps_reset _ _) request, ?_⟩⟩
    obtain ⟨updated, hupdated, hstamped⟩ := stamped_templateOnUpdate hnames haccepted
    rw [evaluate_templateOnUpdate haccepted] at hupdated
    rw [(Prod.mk.inj hupdated).2]
    exact hstamped

/-! ## One template after the other -/

theorem not_refused_of_evaluate {template : RequestTemplate} {others : List Statement} {after : Request}
    (htemplate : template.statements = identify config settings ++ others)
    (h : template.evaluate request = (.ok (), after)) :
    ¬ Refused settings (identityOf config settings request) := by
  intro hrefused
  rw [evaluate_of_refused htemplate hrefused] at h
  cases (Prod.mk.inj h).1

/-- **A soft delete records no deletion.** When the template of create requests and then that of update
requests have run, as they do in the request of the soft delete mutation, the time and the actor of
the deletion are what the client sent for them, and the flag is reset: the first template resets it
before the second one looks at it. -/
theorem update_after_create_keeps_deletion {created updated : Request} (hnames : settings.names.Nodup)
    (hcreate : (templateOnCreate config settings).evaluate request = (.ok (), created))
    (hupdate : (templateOnUpdate config settings).evaluate created = (.ok (), updated)) :
    updated.input.get? (settings.name .deletedAt) = request.input.get? (settings.name .deletedAt) ∧
    updated.input.get? (settings.name .deletedBy) = request.input.get? (settings.name .deletedBy) ∧
    updated.input.get? (settings.name .deleted) = some (.bool false) := by
  have haccepted := not_refused_of_evaluate (statements_templateOnCreate config settings) hcreate
  rw [evaluate_templateOnCreate haccepted] at hcreate
  obtain rfl := (Prod.mk.inj hcreate).2
  have hcreated := stamped_stamped settings hnames
    (nodup_stamps_reset request.now (identityOf config settings request)) request
  have hunflagged : ¬ Flagged settings (stamped settings
      (stamps request.now (identityOf config settings request) ++ [(.deleted, .bool false)]) request) := by
    intro hflagged
    rw [Flagged, hcreated.field .deleted] at hflagged
    cases hflagged
  obtain ⟨_, hevaluate, hupdated⟩ := stamped_templateOnUpdate hnames
    (not_refused_of_evaluate (statements_templateOnUpdate config settings) hupdate)
  rw [hupdate] at hevaluate
  obtain rfl := (Prod.mk.inj hevaluate).2
  rw [if_neg hunflagged, List.append_nil] at hupdated
  -- Neither run writes the time or the actor of the deletion.
  refine ⟨(hupdated.field .deletedAt).trans (hcreated.field .deletedAt),
    (hupdated.field .deletedBy).trans (hcreated.field .deletedBy),
    (hupdated.field .deleted).trans (hcreated.field .deleted)⟩

/-- A request to delete an object, as one who is logged in sends it. -/
def deletionRequest : Request where
  claims := [("username", .string "alice")]
  input := [("id", .string "1")]
  now := 42

/-- What the template of create requests makes of it. -/
def stampedDeletionRequest : Request :=
  stamped {} (stamps 42 (.string "alice") ++ [(.deleted, .bool false)]) deletionRequest

theorem evaluate_deletionRequest :
    (templateOnCreate {} {}).evaluate deletionRequest = (.ok (), stampedDeletionRequest) ∧
    (templateOnUpdate {} {}).evaluate stampedDeletionRequest =
      (.ok (), stamped {} (stamps 42 (.string "alice")) stampedDeletionRequest) :=
  ⟨evaluate_templateOnCreate (by decide), evaluate_templateOnUpdate (by decide)⟩

theorem update_after_create_keeps_deletion_of_alice :
    ∃ updated, ({} : Settings).softDelete = true ∧ ({} : Settings).names.Nodup ∧
      (templateOnCreate {} {}).evaluate deletionRequest = (.ok (), stampedDeletionRequest) ∧
      (templateOnUpdate {} {}).evaluate stampedDeletionRequest = (.ok (), updated) ∧
      updated.input.get? "deletedAt" = deletionRequest.input.get? "deletedAt" ∧
      updated.input.get? "deletedBy" = deletionRequest.input.get? "deletedBy" ∧
      updated.input.get? "deleted" = some (.bool false) := by
  obtain ⟨hcreate, hupdate⟩ := evaluate_deletionRequest
  have hnames : ({} : Settings).names.Nodup := by decide
  exact ⟨_, rfl, hnames, hcreate, hupdate, update_after_create_keeps_deletion hnames hcreate hupdate⟩

/-- Deleting an object records neither when nor by whom. -/
theorem deletion_not_recorded :
    ∃ updated, (templateOnCreate {} {}).evaluate deletionRequest = (.ok (), stampedDeletionRequest) ∧
      (templateOnUpdate {} {}).evaluate stampedDeletionRequest = (.ok (), updated) ∧
      identityOf {} {} deletionRequest = .string "alice" ∧
      updated.input.get? "deletedAt" = none ∧ updated.input.get? "deletedBy" = none :=
  ⟨_, evaluate_deletionRequest.1, evaluate_deletionRequest.2, by decide, by decide, by decide⟩

end Audit

end AuditFields
