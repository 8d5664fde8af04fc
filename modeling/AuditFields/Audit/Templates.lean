import AuditFields.Config
import AuditFields.Settings
import AuditFields.Template.Basic

/-!
# The templates of an annotated type

What runs in front of the generated request templates: who makes the request is found out, and the
bookkeeping fields are written over whatever the client sent.
-/

namespace AuditFields.Audit

def put (settings : Settings) (field : AuditField) (value : Operand) : Statement :=
  .put (settings.name field) value

/-- Finds out who makes the request. Unless an identity is required, the configured value stands in
for a missing one. -/
def identify (config : Config) (settings : Settings) : List Statement :=
  if settings.identityRequired then
    [.identify config.identityClaims none, .demandIdentity]
  else [.identify config.identityClaims (some config.missingIdentityValue)]

def stamp (settings : Settings) : List Statement :=
  [put settings .createdAt .now, put settings .createdBy .identity,
   put settings .updatedAt .now, put settings .updatedBy .identity]

/-- Resets the flag and writes when and by whom the object was deleted. -/
def stampDeletion (settings : Settings) : List Statement :=
  [put settings .deleted (.bool false), put settings .deletedAt .now,
   put settings .deletedBy .identity]

/-- What runs in front of create requests: a new object is not deleted. -/
def templateOnCreate (config : Config) (settings : Settings) : RequestTemplate where
  block := config.snippetBlockName
  statements :=
    identify config settings ++ stamp settings ++ [put settings .deleted (.bool false)]

/-- What runs in front of update requests: a request that sets the flag is a deletion. -/
def templateOnUpdate (config : Config) (settings : Settings) : RequestTemplate where
  block := config.snippetBlockName
  statements :=
    identify config settings ++ stamp settings ++
      [.ifTrue (settings.name .deleted) (stampDeletion settings)]

end AuditFields.Audit
