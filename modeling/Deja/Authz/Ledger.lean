import Deja.Authz.Session

/-!
# Grants in the file

Grants are facts `(principal, mg:permits, object)` of the reserved namespace:
`GRANT` adds one, `REVOKE` supersedes those it reduces.  The file is here the
rows of that namespace and relation, in the order of their sequence numbers,
with the three methods of the store the two statements call.  A content address
stands for the content, whose texts the serializer has put into normal form (NFC).

* `AuthzFile` — the rows, `add`, `supersede`, `recall`.
* `calGrant`, `calRevoke` — the statements.
-/

namespace Deja.Authz

/-- The normal form C of Unicode, and what Unicode promises of it: the normal form of a
text is in normal form, and so are parts of such a text, such texts joined by a comma or
a blank, and texts of ASCII characters. -/
structure Normalizer where
  /-- `nfc` of a whole text. -/
  nfc : String → String
  idem : ∀ s, nfc (nfc s) = nfc s
  part : ∀ s t, nfc s = s → t.toList <:+: s.toList → nfc t = t
  joined : ∀ s t, nfc s = s → nfc t = t → nfc (s ++ "," ++ t) = s ++ "," ++ t ∧
    nfc (s ++ " " ++ t) = s ++ " " ++ t
  ascii : ∀ s : String, (∀ c ∈ s.toList, c.toNat < 128) → nfc s = s

/-- A text in normal form. -/
def Normalizer.Normal (N : Normalizer) (s : String) : Prop := N.nfc s = s

/-- The content of a grant grain; `H` is the type of content addresses. -/
structure GrantFact (H : Type) where
  principal : String
  object : String
  createdAt : ℤ
  grantor : String
  because : String
  revoked : Option String
  derivedFrom : Option H
  deriving DecidableEq

/-- A stored grant grain.  It is current until it is superseded. -/
structure GrantRow (H : Type) where
  hash : H
  fact : GrantFact H
  supersededBy : Option H

/-- The rights a grant grain carries, if any. -/
def GrantRow.grant {H : Type} (r : GrantRow H) : Option Grant :=
  (Grant.fromObjectString r.fact.object).toOption

/-- The grant grains of a file, oldest first. -/
structure AuthzFile (H : Type) where
  rows : List (GrantRow H)

/-- The refusals of the two statements. -/
inductive AuthzError (H : Type) where
  | denied (d : Denied)
  | emptyPrincipal
  | noVerbs
  | verb (e : GrantError)
  | emptyNamespace
  /-- "grant … for … spans more namespaces than the revoke …" -/
  | wider (object principal : String)
  | notFound (h : H)
  | supersessionConflict (h : H)
  | storage

/-- `AUTHZ_GRANT_CAP`, and the limit of the recall of `REVOKE`. -/
def authzGrantCap : ℕ := 256

variable {H : Type} [DecidableEq H] (N : Normalizer) (address : GrantFact H → H)

/-! ## The store -/

namespace AuthzFile

/-- A newly created file. -/
def empty : AuthzFile H := ⟨[]⟩

/-- A grain of this address is stored. -/
def has (f : AuthzFile H) (h : H) : Bool := f.rows.any fun r => r.hash == h

/-- `add`: a stored content adds nothing. -/
def add (fact : GrantFact H) (f : AuthzFile H) : AuthzFile H :=
  if f.has (address fact) then f else ⟨f.rows ++ [⟨address fact, fact, none⟩]⟩

/-- Close the row of an address. -/
def close (old new : H) (f : AuthzFile H) : AuthzFile H :=
  ⟨f.rows.map fun r => if r.hash = old then { r with supersededBy := some new } else r⟩

/-- `supersede`: the replacement names the old grain as its origin.  The address
of a stored grain is taken. -/
def supersede (old : H) (fact : GrantFact H) (f : AuthzFile H) :
    Except (AuthzError H) (AuthzFile H) :=
  match f.rows.find? fun r => r.hash == old with
  | none => .error (.notFound old)
  | some r =>
    let fact := { fact with derivedFrom := some old }
    if r.supersededBy.isSome then .error (.supersessionConflict old)
    else if f.has (address fact) then .error .storage
    else .ok (AuthzFile.close old (address fact) ⟨f.rows ++ [⟨address fact, fact, none⟩]⟩)

/-- The current grant grains of a principal. -/
def live (f : AuthzFile H) (principal : String) : List (GrantRow H) :=
  f.rows.filter fun r => r.supersededBy.isNone && r.fact.principal == principal

/-- `recall` of the grants of a principal: newest first, at most `k`. -/
def recallGrants (f : AuthzFile H) (principal : String) (k : ℕ) : List (GrantRow H) :=
  (f.live principal).reverse.take k

/-- `DejaDB::authz_grants`. -/
def authzGrants (f : AuthzFile H) (principal : String) : List Grant :=
  (f.recallGrants principal authzGrantCap).filterMap GrantRow.grant

end AuthzFile

/-! ## The statements -/

/-- The verbs of a statement, each once. -/
def parseVerbs : List Verb → List String → Except GrantError (List Verb)
  | acc, [] => .ok acc
  | acc, v :: vs => do
    let v ← Verb.parse v
    parseVerbs (if v ∈ acc then acc else acc ++ [v]) vs

/-- `parse_grant_parts`. -/
def parseGrantParts (principal : String) (verbs namespaces : List String) :
    Except (AuthzError H) Grant :=
  if trim principal.toList = [] then .error .emptyPrincipal
  else if verbs.isEmpty then .error .noVerbs
  else
    match parseVerbs [] verbs with
    | .error e => .error (.verb e)
    | .ok parsed =>
      let namespaces := if namespaces.isEmpty then ["*"] else namespaces
      if namespaces.any fun n => trim n.toList = [] then .error .emptyNamespace
      else .ok ⟨parsed, namespaces⟩

/-- A `GRANT` or a `REVOKE` by a session. -/
structure Request where
  session : AuthzSet
  principal : String
  verbs : List String
  namespaces : List String
  because : Option String

/-- The check of the session and of the parts. -/
def Request.parse (q : Request) : Except (AuthzError H) Grant :=
  match q.session.check .admin "*" with
  | .error d => .error (.denied d)
  | .ok _ => parseGrantParts q.principal q.verbs q.namespaces

/-- The fact `GRANT` adds, as it is stored. -/
def Request.fact (q : Request) (grant : Grant) (now : ℤ) : GrantFact H where
  principal := N.nfc q.principal
  object := N.nfc grant.toObjectString
  createdAt := now
  grantor := N.nfc q.session.principal
  because := N.nfc (q.because.getD "")
  revoked := none
  derivedFrom := none

/-- `cal_grant`. -/
def calGrant (q : Request) (now : ℤ) (f : AuthzFile H) :
    Except (AuthzError H) H × AuthzFile H :=
  match q.parse with
  | .error e => (.error e, f)
  | .ok grant => (.ok (address (q.fact N grant now)), f.add address (q.fact N grant now))

/-- The test of `cal_revoke` on the scope of a grant. -/
def Grant.withinScope (existing revoke : Grant) : Bool :=
  revoke.namespaces.any (· == "*") ||
    existing.namespaces.all fun n => revoke.namespaces.contains n

/-- The object of the grain that replaces a grant. -/
def Grant.reduced (existing revoke : Grant) : String :=
  let remaining := existing.verbs.filter fun v => !revoke.verbs.contains v
  if remaining.isEmpty then "revoked"
  else Grant.toObjectString ⟨remaining, existing.namespaces⟩

/-- The fact that replaces a grant, as it is stored. -/
def Request.replacement (q : Request) (existing revoke : Grant) (now : ℤ) : GrantFact H where
  principal := N.nfc q.principal
  object := N.nfc (existing.reduced revoke)
  createdAt := now
  grantor := N.nfc q.session.principal
  because := N.nfc (q.because.getD "")
  revoked := some (N.nfc revoke.toObjectString)
  derivedFrom := none

/-- A grant carries one of the verbs of a revoke. -/
def Grant.shares (existing revoke : Grant) : Bool :=
  existing.verbs.any fun v => revoke.verbs.contains v

/-- The loop of `cal_revoke` over the recalled grains. -/
def revokeLoop (q : Request) (revoke : Grant) (clock : ℕ → ℤ) :
    List (GrantRow H) → ℕ → AuthzFile H → Except (AuthzError H) ℕ × AuthzFile H
  | [], touched, f => (.ok touched, f)
  | r :: rest, touched, f =>
    match r.grant with
    | none => revokeLoop q revoke clock rest touched f
    | some existing =>
      if !existing.shares revoke then revokeLoop q revoke clock rest touched f
      else if !existing.withinScope revoke then (.error (.wider r.fact.object q.principal), f)
      else
        match f.supersede address r.hash (q.replacement N existing revoke (clock touched)) with
        | .error e => (.error e, f)
        | .ok f => revokeLoop q revoke clock rest (touched + 1) f

/-- `cal_revoke`. -/
def calRevoke (q : Request) (clock : ℕ → ℤ) (f : AuthzFile H) :
    Except (AuthzError H) ℕ × AuthzFile H :=
  match q.parse with
  | .error e => (.error e, f)
  | .ok revoke =>
    revokeLoop N address q revoke clock (f.recallGrants q.principal authzGrantCap) 0 f

/-! ## Histories -/

/-- One call on the file, with the times it reads. -/
inductive AuthzCall where
  | grant (q : Request) (now : ℤ)
  | revoke (q : Request) (clock : ℕ → ℤ)

/-- Run a call: whether it succeeded, and the file it leaves. -/
def AuthzCall.run (f : AuthzFile H) : AuthzCall → Bool × AuthzFile H
  | .grant q now => ((calGrant N address q now f).1.isOk, (calGrant N address q now f).2)
  | .revoke q clock => ((calRevoke N address q clock f).1.isOk, (calRevoke N address q clock f).2)

/-- The file after a sequence of calls. -/
def AuthzFile.after (calls : List AuthzCall) (f : AuthzFile H) : AuthzFile H :=
  calls.foldl (fun f call => (call.run N address f).2) f

end Deja.Authz
