import Deja.Authz.Grant

/-!
# The rights of a session

A session is a principal with the grants that cover it, or the owner of the
file.  Every layer asks it the same question, `AuthzSet.check`.
-/

namespace Deja.Authz

/-- The resolved rights of one session. -/
structure AuthzSet where
  principal : String
  owner : Bool
  grants : List Grant

/-- The refusal of a verb on a namespace. -/
structure Denied where
  principal : String
  verb : Verb
  ns : String
  deriving DecidableEq

namespace AuthzSet

/-- `AuthzSet::restricted`: only what the grants cover. -/
def restricted (principal : String) (grants : List Grant) : AuthzSet := ⟨principal, false, grants⟩

/-- `AuthzSet::allows`. -/
def allows (s : AuthzSet) (verb : Verb) (ns : String) : Bool :=
  s.owner || s.grants.any fun g => g.covers verb ns

/-- `AuthzSet::check`. -/
def check (s : AuthzSet) (verb : Verb) (ns : String) : Except Denied Unit :=
  if s.allows verb ns then .ok () else .error ⟨s.principal, verb, ns⟩

/-- A restricted session allows what one of its grants covers. -/
theorem allows_restricted (p : String) (grants : List Grant) (verb : Verb) (ns : String) :
    (restricted p grants).allows verb ns = true ↔ ∃ g ∈ grants, g.covers verb ns = true := by
  simp [allows, restricted]

end AuthzSet

end Deja.Authz
