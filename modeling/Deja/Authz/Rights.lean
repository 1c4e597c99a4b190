import Mathlib.Data.Set.Basic
import Deja.Authz.Ledger
import Deja.Spec.Txn

/-!
# The rights grants convey

`GRANT` and `REVOKE` stand for adding and removing triples of principal, verb and
namespace.  The file keeps them in many grains, which a revoke rewrites one by
one.

* `AuthzFile.rights` — the triples the sessions of a file have.
* `AuthzCall.effect` — what a call that succeeds does to the set of triples.
* `rights_of_clean_history` — a history of clean calls implements the set.
-/

namespace Deja.Authz

/-! ## The set of rights -/

/-- A principal, a verb and a namespace. -/
abbrev Right := String × Verb × String

/-- The triples a grant to a principal names. -/
def Grant.named (g : Grant) (principal : String) : Set Right :=
  {t | t.1 = principal ∧ g.covers t.2.1 t.2.2 = true}

/-- The scopes of two grants have a namespace in common. -/
def Grant.Overlaps (g h : Grant) : Prop :=
  ∃ ns, (g.namespaces = [] ∨ "*" ∈ g.namespaces ∨ ns ∈ g.namespaces) ∧
    (h.namespaces = [] ∨ "*" ∈ h.namespaces ∨ ns ∈ h.namespaces)

section Rights

variable {H : Type} [DecidableEq H] (N : Normalizer) (address : GrantFact H → H)

/-- The rights the sessions bound to a file get. -/
def AuthzFile.rights (f : AuthzFile H) : Set Right :=
  {t | (AuthzSet.restricted t.1 (f.authzGrants t.1)).allows t.2.1 t.2.2 = true}

/-- What a call does to the set of rights when it succeeds. -/
def AuthzCall.effect (R : Set Right) : AuthzCall → Set Right
  | .grant q _ =>
    match q.parse (H := H) with
    | .ok g => R ∪ g.named q.principal
    | .error _ => R
  | .revoke q _ =>
    match q.parse (H := H) with
    | .ok g => R \ g.named q.principal
    | .error _ => R

/-- The set of rights after a sequence of calls, of which those that fail change
nothing. -/
def referenceRights : List AuthzCall → AuthzFile H → Set Right → Set Right
  | [], _, R => R
  | call :: calls, f, R =>
    referenceRights calls (call.run N address f).2
      (if (call.run N address f).1 then call.effect (H := H) R else R)

/-- The live grants a revoke is about, newest first. -/
def AuthzFile.concerned (f : AuthzFile H) (principal : String) (revoke : Grant) : List Grant :=
  (f.authzGrants principal).filter fun g => g.shares revoke

/-- A call does what it does to the set of rights, nothing when it fails, and a
revoke fails only where a grant it overlaps is wider. -/
structure AuthzCall.Implements (f : AuthzFile H) (call : AuthzCall) : Prop where
  succeeded : (call.run N address f).1 = true →
    (call.run N address f).2.rights = call.effect (H := H) f.rights
  failed : (call.run N address f).1 = false → (call.run N address f).2.rights = f.rights
  accepted : ∀ q clock revoke, call = .revoke q clock → q.parse (H := H) = .ok revoke →
    (∀ g ∈ f.concerned q.principal revoke, g.Overlaps revoke → g.withinScope revoke = true) →
      (call.run N address f).1 = true

/-- A grant of plain namespaces, its texts in normal form, that is not word for word a
grant superseded before; a revoke that no live grant of one of its verbs exceeds, or whose newest
such grant does, with one that overlaps it. -/
def AuthzCall.Clean (f : AuthzFile H) : AuthzCall → Prop
  | .grant q now => ∀ g, q.parse (H := H) = .ok g →
    g.Plain ∧ N.Normal q.principal ∧ (∀ n ∈ g.namespaces, N.Normal n) ∧
      ∀ r ∈ f.rows, r.hash = address (q.fact N g now) → r.supersededBy = none
  | .revoke q _ => ∀ g, q.parse (H := H) = .ok g →
    (∀ x ∈ f.concerned q.principal g, x.withinScope g = true) ∨
      ((∃ x ∈ (f.concerned q.principal g).head?, x.withinScope g = false) ∧
        ∃ y ∈ f.concerned q.principal g, y.Overlaps g ∧ y.withinScope g = false)

end Rights

/-! ## Reading a grant back -/

/-- What is collected comes from a piece. -/
theorem mem_of_collect {α : Type} [DecidableEq α] {f : List Char → Except GrantError α}
    {acc l : List α} {ps : List (List Char)} (h : collect f acc ps = .ok l) {a : α} (ha : a ∈ l) :
    a ∈ acc ∨ ∃ p ∈ ps, f p = .ok a := by
  induction ps generalizing acc with
  | nil =>
    cases h
    exact .inl ha
  | cons p ps ih =>
    rw [collect] at h
    cases hp : f p with
    | error e =>
      rw [hp] at h
      cases h
    | ok b =>
      rw [hp] at h
      rcases ih h with hacc | ⟨p', hp', hf⟩
      · split_ifs at hacc
        · exact .inl hacc
        · rcases List.mem_append.1 hacc with hacc | hb
          · exact .inl hacc
          · rw [List.mem_singleton] at hb
            exact .inr ⟨p, List.mem_cons_self, hb ▸ hp⟩
      · exact .inr ⟨p', List.mem_cons_of_mem _ hp', hf⟩

/-- The namespaces of a grant that was read stand for themselves. -/
theorem Grant.plain_of_fromObjectString {s : String} {g : Grant}
    (h : Grant.fromObjectString s = .ok g) :
    ∀ n ∈ g.namespaces, n ≠ "" ∧ ',' ∉ n.toList ∧ trim n.toList = n.toList := by
  rw [Grant.fromObjectString] at h
  cases hcut : Text.splitOnce " ON ".toList s.toList with
  | none =>
    rw [hcut] at h
    cases h
  | some parts =>
    rw [hcut] at h
    obtain ⟨verbs, -, h₁⟩ := except_bind_ok h
    dsimp only at h₁
    split_ifs at h₁
    · cases h₁
    obtain ⟨namespaces, hns, h₂⟩ := except_bind_ok h₁
    cases h₂
    intro n hn
    rcases mem_of_collect hns hn with hnil | ⟨p, hp, hpiece⟩
    · cases hnil
    · unfold nsPiece at hpiece
      split_ifs at hpiece with hblank
      cases hpiece
      rw [String.toList_ofList]
      refine ⟨?_, ?_, Text.trim_idem _ _⟩
      · intro hempty
        have := congrArg String.toList hempty
        rw [String.toList_ofList] at this
        exact hblank this
      · exact fun hc => Text.notMem_of_mem_split hp (Text.mem_of_mem_trim hc)

/-- Pieces that are there leave something collected. -/
theorem collect_ne_nil {α : Type} [DecidableEq α] {f : List Char → Except GrantError α}
    {acc l : List α} {ps : List (List Char)} (h : collect f acc ps = .ok l)
    (hne : acc ≠ [] ∨ ps ≠ []) : l ≠ [] := by
  induction ps generalizing acc with
  | nil =>
    cases h
    exact hne.resolve_right (by simp)
  | cons p ps ih =>
    rw [collect] at h
    obtain ⟨b, -, hrest⟩ := except_bind_ok h
    refine ih hrest (.inl ?_)
    split_ifs with hmem
    · exact List.ne_nil_of_mem hmem
    · simp

/-- A grant that was read names a namespace. -/
theorem Grant.namespaces_ne_nil {s : String} {g : Grant} (h : Grant.fromObjectString s = .ok g) :
    g.namespaces ≠ [] := by
  rw [Grant.fromObjectString] at h
  cases hcut : Text.splitOnce " ON ".toList s.toList with
  | none =>
    rw [hcut] at h
    cases h
  | some parts =>
    rw [hcut] at h
    obtain ⟨verbs, -, h₁⟩ := except_bind_ok h
    dsimp only at h₁
    split_ifs at h₁
    · cases h₁
    obtain ⟨namespaces, hns, h₂⟩ := except_bind_ok h₁
    cases h₂
    exact collect_ne_nil hns (.inr (Text.split_ne_nil _ _))

/-- A grant within a revoke covers no namespace the revoke does not. -/
theorem Grant.withinScope_covers {g revoke : Grant} {v : Verb} {ns : String}
    (hne : g.namespaces ≠ []) (hwithin : g.withinScope revoke = true)
    (hcovers : g.covers v ns = true) (hv : v ∈ revoke.verbs) : revoke.covers v ns = true := by
  have hscope : "*" ∈ revoke.namespaces ∨ ∀ n ∈ g.namespaces, n ∈ revoke.namespaces := by
    simpa [withinScope] using hwithin
  refine Grant.covers_iff.2 ⟨hv, .inr ?_⟩
  rcases hscope with hall | hsub
  · exact .inl hall
  · rcases (Grant.covers_iff.1 hcovers).2 with hnil | hstar | hn
    · exact absurd hnil hne
    · exact .inl (hsub _ hstar)
    · exact .inr (hsub _ hn)

/-- The object of a replacement carries the verbs that are left, on the same
namespaces. -/
theorem Grant.reduced_covers {s : String} {existing : Grant}
    (h : Grant.fromObjectString s = .ok existing) (revoke : Grant) (v : Verb) (ns : String) :
    (∃ g, (Grant.fromObjectString (existing.reduced revoke)).toOption = some g ∧
      g.covers v ns = true) ↔ v ∉ revoke.verbs ∧ existing.covers v ns = true := by
  have hleft : ∀ w, w ∈ existing.verbs.filter (fun w => !revoke.verbs.contains w) ↔
      w ∈ existing.verbs ∧ w ∉ revoke.verbs := by
    intro w
    simp
  unfold reduced
  dsimp only
  split_ifs with hnone
  · have hjunk : (Grant.fromObjectString "revoked").toOption = none := by decide +kernel
    rw [hjunk]
    refine ⟨by simp, ?_⟩
    rintro ⟨hv, hcovers⟩
    rw [List.isEmpty_iff] at hnone
    have hmem := (hleft v).2 ⟨(Grant.covers_iff.1 hcovers).1, hv⟩
    rw [hnone] at hmem
    cases hmem
  · rw [List.isEmpty_iff] at hnone
    have hplain : Grant.Plain
        ⟨existing.verbs.filter (fun w => !revoke.verbs.contains w), existing.namespaces⟩ :=
      .inr (Grant.plain_of_fromObjectString (g := existing) h)
    obtain ⟨⟨g, hread, hcovers⟩, -⟩ := hplain.preserves hnone
    rw [hread]
    show (∃ g', some g = some g' ∧ _) ↔ _
    simp only [Option.some.injEq, exists_eq_left']
    rw [hcovers, Grant.covers_iff, Grant.covers_iff, hleft]
    tauto

section Normal

variable {N : Normalizer}

theorem Normalizer.Normal.eq {s : String} (h : N.Normal s) : N.nfc s = s := h

/-- A text of ASCII characters is in normal form. -/
theorem Normalizer.normal_ascii {s : String}
    (h : (s.toList.all fun c => c.toNat < 128) = true) : N.Normal s :=
  N.ascii s fun c hc => of_decide_eq_true (List.all_eq_true.1 h c hc)

/-- Texts in normal form, joined by commas. -/
theorem Normalizer.normal_intercalate {l : List String} (h : ∀ s ∈ l, N.Normal s) :
    N.Normal (",".intercalate l) := by
  induction l with
  | nil => exact N.normal_ascii (by decide)
  | cons s l ih =>
    rw [List.forall_mem_cons] at h
    cases l with
    | nil => simpa [String.intercalate_singleton] using h.1
    | cons t l =>
      rw [String.intercalate_cons_cons]
      exact (N.joined _ _ h.1 (ih h.2)).1

theorem Verb.normal_asStr (v : Verb) : N.Normal v.asStr :=
  N.normal_ascii (by cases v <;> decide)

/-- The object string of namespaces in normal form is in normal form. -/
theorem Grant.normal_toObjectString {g : Grant} (h : ∀ n ∈ g.namespaces, N.Normal n) :
    N.Normal g.toObjectString := by
  have hverbs : N.Normal (",".intercalate (canonical (g.verbs.map Verb.asStr))) := by
    refine Normalizer.normal_intercalate fun s hs => ?_
    obtain ⟨v, -, rfl⟩ := List.mem_map.1 (mem_canonical.1 hs)
    exact v.normal_asStr
  have hns : N.Normal (if g.namespaces.isEmpty then "*"
      else ",".intercalate (canonical g.namespaces)) := by
    split_ifs
    · exact N.normal_ascii (by decide)
    · exact Normalizer.normal_intercalate fun s hs => h s (mem_canonical.1 hs)
  have hon : N.Normal "ON" := N.normal_ascii (by decide)
  have hjoin := (N.joined _ _ hverbs (N.joined _ _ hon hns).2).2
  have hsplit : g.toObjectString = ",".intercalate (canonical (g.verbs.map Verb.asStr)) ++ " " ++
      ("ON" ++ " " ++ if g.namespaces.isEmpty then "*"
        else ",".intercalate (canonical g.namespaces)) := by
    rw [Grant.toObjectString, ← String.toList_inj]
    simp only [String.toList_append, List.append_assoc]
    rfl
  rw [hsplit]
  exact hjoin

/-- The namespaces read from an object in normal form are in normal form. -/
theorem Grant.normal_namespaces {s : String} {g : Grant} (hs : N.Normal s)
    (h : Grant.fromObjectString s = .ok g) : ∀ n ∈ g.namespaces, N.Normal n := by
  rw [Grant.fromObjectString] at h
  cases hcut : Text.splitOnce " ON ".toList s.toList with
  | none =>
    rw [hcut] at h
    cases h
  | some parts =>
    rw [hcut] at h
    obtain ⟨verbs, -, h₁⟩ := except_bind_ok h
    dsimp only at h₁
    split_ifs at h₁
    · cases h₁
    obtain ⟨namespaces, hns, h₂⟩ := except_bind_ok h₁
    cases h₂
    intro n hn
    rcases mem_of_collect hns hn with hnil | ⟨p, hp, hpiece⟩
    · cases hnil
    · unfold nsPiece at hpiece
      split_ifs at hpiece with hblank
      cases hpiece
      refine N.part s _ hs ?_
      rw [String.toList_ofList, Text.eq_of_splitOnce hcut]
      exact ((Text.trim_infix _ _).trans (Text.infix_of_mem_split hp)).trans
        (List.suffix_append _ _).isInfix

/-- What replaces a grant in normal form is in normal form. -/
theorem Grant.normal_reduced {s : String} {g : Grant} (hs : N.Normal s)
    (h : Grant.fromObjectString s = .ok g) (revoke : Grant) : N.Normal (g.reduced revoke) := by
  unfold reduced
  dsimp only
  split_ifs
  · exact N.normal_ascii (by decide)
  · exact Grant.normal_toObjectString fun n hn => Grant.normal_namespaces hs h n hn

end Normal

/-- The verbs of a statement that names one. -/
theorem parseVerbs_ne_nil {acc l : List Verb} {vs : List String}
    (h : parseVerbs acc vs = .ok l) (hne : acc ≠ [] ∨ vs ≠ []) : l ≠ [] := by
  induction vs generalizing acc with
  | nil =>
    cases h
    exact hne.resolve_right (by simp)
  | cons v vs ih =>
    rw [parseVerbs] at h
    obtain ⟨w, -, hrest⟩ := except_bind_ok h
    refine ih hrest (.inl ?_)
    split_ifs with hmem
    · exact List.ne_nil_of_mem hmem
    · simp

theorem Request.parse_verbs {H : Type} {q : Request} {g : Grant}
    (h : q.parse (H := H) = .ok g) : g.verbs ≠ [] := by
  unfold Request.parse at h
  cases hcheck : q.session.check .admin "*" with
  | error d =>
    rw [hcheck] at h
    cases h
  | ok u =>
    rw [hcheck] at h
    change parseGrantParts q.principal q.verbs q.namespaces = _ at h
    unfold parseGrantParts at h
    by_cases hp : trim q.principal.toList = []
    · rw [if_pos hp] at h
      cases h
    by_cases hv : q.verbs.isEmpty = true
    · rw [if_neg hp, if_pos hv] at h
      cases h
    rw [if_neg hp, if_neg hv] at h
    cases hparse : parseVerbs [] q.verbs with
    | error e =>
      rw [hparse] at h
      cases h
    | ok parsed =>
      rw [hparse] at h
      have hne : parsed ≠ [] := parseVerbs_ne_nil hparse (.inr (by simpa using hv))
      dsimp only at h
      split_ifs at h <;> cases h <;> exact hne

/-! ## The rows -/

section File

variable {H : Type} [DecidableEq H] {N : Normalizer} {address : GrantFact H → H}
  {f : AuthzFile H}

omit [DecidableEq H] in
theorem GrantRow.grant_eq_some {r : GrantRow H} {g : Grant} :
    r.grant = some g ↔ Grant.fromObjectString r.fact.object = .ok g := by
  unfold GrantRow.grant
  cases Grant.fromObjectString r.fact.object with
  | error e => simp [Except.toOption]
  | ok g' => simp [Except.toOption]

/-- A file of rows under their own addresses, each once, in normal form, in which the
origin of a replacement is closed. -/
structure AuthzFile.Wf (N : Normalizer) (address : GrantFact H → H) (f : AuthzFile H) :
    Prop where
  hash : ∀ r ∈ f.rows, r.hash = address r.fact
  nodup : (f.rows.map GrantRow.hash).Nodup
  origin : ∀ r ∈ f.rows, ∀ h, r.fact.derivedFrom = some h →
    ∃ r' ∈ f.rows, r'.hash = h ∧ r'.supersededBy ≠ none
  normal : ∀ r ∈ f.rows, N.Normal r.fact.principal ∧ N.Normal r.fact.object

/-- A current grain of a principal carries a right. -/
def AuthzFile.Conveys (f : AuthzFile H) (p : String) (v : Verb) (ns : String) : Prop :=
  ∃ r ∈ f.live p, ∃ g, r.grant = some g ∧ g.covers v ns = true

namespace AuthzFile

omit [DecidableEq H] in
theorem wf_empty : (empty : AuthzFile H).Wf N address :=
  ⟨fun _ hr => (nomatch hr), List.nodup_nil, fun _ hr => (nomatch hr), fun _ hr => (nomatch hr)⟩

omit [DecidableEq H] in
theorem mem_live {r : GrantRow H} {p : String} :
    r ∈ f.live p ↔ r ∈ f.rows ∧ r.supersededBy = none ∧ r.fact.principal = p := by
  simp [live]

theorem has_iff {h : H} : f.has h = true ↔ ∃ r ∈ f.rows, r.hash = h := by
  simp [has]

omit [DecidableEq H] in
/-- Within the cap a session gets what the current grains carry. -/
theorem mem_rights {p : String} (hcap : (f.live p).length ≤ authzGrantCap) {v : Verb}
    {ns : String} : (p, v, ns) ∈ f.rights ↔ f.Conveys p v ns := by
  have hrecall : f.recallGrants p authzGrantCap = (f.live p).reverse :=
    List.take_of_length_le (by simpa using hcap)
  show (AuthzSet.restricted p (f.authzGrants p)).allows v ns = true ↔ _
  rw [AuthzSet.allows_restricted, authzGrants, hrecall]
  simp only [List.mem_filterMap, List.mem_reverse, Conveys]
  constructor
  · rintro ⟨g, ⟨r, hr, hg⟩, hcovers⟩
    exact ⟨r, hr, g, hg, hcovers⟩
  · rintro ⟨r, hr, g, hg, hcovers⟩
    exact ⟨g, ⟨r, hr, hg⟩, hcovers⟩

omit [DecidableEq H] in
theorem Wf.eq_of_hash (hf : f.Wf N address) {r r' : GrantRow H} (hr : r ∈ f.rows)
    (hr' : r' ∈ f.rows) (h : r.hash = r'.hash) : r = r' :=
  List.inj_on_of_nodup_map hf.nodup hr hr' h

omit [DecidableEq H] in
theorem Wf.live_nodup (hf : f.Wf N address) (p : String) : (f.live p).Nodup :=
  (List.Nodup.of_map _ hf.nodup).filter _

/-- A new content is one more row. -/
theorem Wf.add (hf : f.Wf N address) (fact : GrantFact H) (hnone : fact.derivedFrom = none)
    (hnormal : N.Normal fact.principal ∧ N.Normal fact.object) :
    (f.add address fact).Wf N address := by
  unfold AuthzFile.add
  split_ifs with hhas
  · exact hf
  · have hnew : address fact ∉ f.rows.map GrantRow.hash := by
      rw [has_iff] at hhas
      simpa using hhas
    constructor
    · intro r hr
      rcases List.mem_append.1 hr with hr | hr
      · exact hf.hash r hr
      · rw [List.mem_singleton.1 hr]
    · show (List.map _ _).Nodup
      rw [List.map_append]
      refine hf.nodup.append (List.nodup_singleton _) ?_
      simpa using hnew
    · intro r hr h hh
      rcases List.mem_append.1 hr with hr | hr
      · obtain ⟨r', hr', hclosed⟩ := hf.origin r hr h hh
        exact ⟨r', List.mem_append_left _ hr', hclosed⟩
      · rw [List.mem_singleton.1 hr] at hh
        rw [hnone] at hh
        cases hh
    · intro r hr
      rcases List.mem_append.1 hr with hr | hr
      · exact hf.normal r hr
      · rw [List.mem_singleton.1 hr]
        exact hnormal

/-- The replacement of a grain. -/
def successor (address : GrantFact H → H) (old : H) (fact : GrantFact H) : GrantRow H :=
  ⟨address { fact with derivedFrom := some old }, { fact with derivedFrom := some old }, none⟩

omit [DecidableEq H] in
/-- The replacement of a current grain is not stored. -/
theorem Wf.successor_fresh (hinj : Function.Injective address) (hf : f.Wf N address)
    {r : GrantRow H} {p : String} (hr : r ∈ f.live p) (fact : GrantFact H) :
    ∀ x ∈ f.rows, x.hash ≠ (successor address r.hash fact).hash := by
  intro x hx hhash
  obtain ⟨hmem, hopen, -⟩ := mem_live.1 hr
  have hfact : x.fact = { fact with derivedFrom := some r.hash } :=
    hinj ((hf.hash x hx).symm.trans hhash)
  obtain ⟨r', hr', heq, hclosed⟩ := hf.origin x hx r.hash (by rw [hfact])
  rw [hf.eq_of_hash hr' hmem heq] at hclosed
  exact hclosed hopen

/-- **Superseding a current grain** closes it and adds its replacement. -/
theorem Wf.supersede (hinj : Function.Injective address) (hf : f.Wf N address)
    {r : GrantRow H} {p : String} (hr : r ∈ f.live p) (fact : GrantFact H)
    (hp : fact.principal = p) (hnormal : N.Normal fact.object) :
    ∃ f', f.supersede address r.hash fact = .ok f' ∧ f'.Wf N address ∧
      ∀ q x, x ∈ f'.live q ↔
        (x ∈ f.live q ∧ x ≠ r) ∨ (x = successor address r.hash fact ∧ q = p) := by
  obtain ⟨hmem, hopen, hpr⟩ := mem_live.1 hr
  have hfresh := hf.successor_fresh hinj hr fact
  have hfind : f.rows.find? (fun x => x.hash == r.hash) = some r := by
    cases hx : f.rows.find? fun x => x.hash == r.hash with
    | none => simpa using List.find?_eq_none.1 hx r hmem
    | some x =>
      have hhash : x.hash = r.hash := by simpa using List.find?_some hx
      rw [hf.eq_of_hash (List.mem_of_find?_eq_some hx) hmem hhash]
  have hhas : f.has (successor address r.hash fact).hash = false := by
    rw [Bool.eq_false_iff, Ne, has_iff]
    rintro ⟨x, hx, hhash⟩
    exact hfresh x hx hhash
  have hne : (successor address r.hash fact).hash ≠ r.hash := fun h => hfresh r hmem h.symm
  refine ⟨AuthzFile.close r.hash (successor address r.hash fact).hash
    ⟨f.rows ++ [successor address r.hash fact]⟩, ?_, ?_, ?_⟩
  · unfold AuthzFile.supersede
    rw [hfind]
    simp only [hopen, Option.isSome_none, Bool.false_eq_true, if_false]
    rw [if_neg (by rw [Bool.not_eq_true]; exact hhas)]
    rfl
  · -- closing a row changes neither its address nor its content
    constructor
    · intro x hx
      obtain ⟨y, hy, rfl⟩ := List.mem_map.1 hx
      have hyhash : y.hash = address y.fact := by
        rcases List.mem_append.1 hy with hy | hy
        · exact hf.hash y hy
        · rw [List.mem_singleton.1 hy]
          rfl
      split_ifs <;> exact hyhash
    · have hsame : ((f.rows ++ [successor address r.hash fact]).map fun x =>
          if x.hash = r.hash then
            { x with supersededBy := some (successor address r.hash fact).hash } else x).map
            GrantRow.hash = f.rows.map GrantRow.hash ++ [(successor address r.hash fact).hash] := by
        rw [List.map_map, List.map_append]
        have hcomp : (GrantRow.hash ∘ fun x : GrantRow H =>
            if x.hash = r.hash then
              { x with supersededBy := some (successor address r.hash fact).hash } else x) =
            GrantRow.hash := by
          funext x
          show GrantRow.hash (if _ then _ else _) = _
          split_ifs <;> rfl
        rw [hcomp]
        rfl
      show (List.map _ _).Nodup
      unfold AuthzFile.close
      rw [hsame]
      refine hf.nodup.append (List.nodup_singleton _) ?_
      intro h hh hh'
      obtain ⟨x, hx, rfl⟩ := List.mem_map.1 hh
      exact hfresh x hx (List.mem_singleton.1 hh')
    · intro x hx h hh
      obtain ⟨y, hy, rfl⟩ := List.mem_map.1 hx
      have hyh : y.fact.derivedFrom = some h := by
        split_ifs at hh <;> exact hh
      have hclosed : ∃ z ∈ f.rows, z.hash = h ∧ (z.supersededBy ≠ none ∨ z.hash = r.hash) := by
        rcases List.mem_append.1 hy with hy | hy
        · obtain ⟨z, hz, hzh, hzc⟩ := hf.origin y hy h hyh
          exact ⟨z, hz, hzh, .inl hzc⟩
        · rw [List.mem_singleton.1 hy] at hyh
          cases hyh
          exact ⟨r, hmem, rfl, .inr rfl⟩
      obtain ⟨z, hz, hzh, hzc⟩ := hclosed
      refine ⟨_, List.mem_map.2 ⟨z, List.mem_append_left _ hz, rfl⟩, ?_, ?_⟩
      · split_ifs <;> exact hzh
      · split_ifs with hzr
        · simp
        · exact hzc.resolve_right hzr
    · intro x hx
      obtain ⟨y, hy, rfl⟩ := List.mem_map.1 hx
      have hynormal : N.Normal y.fact.principal ∧ N.Normal y.fact.object := by
        rcases List.mem_append.1 hy with hy | hy
        · exact hf.normal y hy
        · rw [List.mem_singleton.1 hy]
          refine ⟨?_, hnormal⟩
          show N.Normal fact.principal
          rw [hp, ← hpr]
          exact (hf.normal r hmem).1
      split_ifs <;> exact hynormal
  · intro q x
    rw [mem_live]
    constructor
    · rintro ⟨hx, hxopen, hxp⟩
      obtain ⟨y, hy, hyx⟩ := List.mem_map.1 hx
      by_cases hyr : y.hash = r.hash
      · rw [if_pos hyr] at hyx
        rw [← hyx] at hxopen
        cases hxopen
      · rw [if_neg hyr] at hyx
        subst hyx
        rcases List.mem_append.1 hy with hy | hy
        · exact .inl ⟨mem_live.2 ⟨hy, hxopen, hxp⟩, fun h => hyr (by rw [h])⟩
        · have hnew := List.mem_singleton.1 hy
          refine .inr ⟨hnew, ?_⟩
          rw [← hxp, hnew]
          exact hp
    · rintro (⟨hx, hxr⟩ | ⟨rfl, rfl⟩)
      · obtain ⟨hxmem, hxopen, hxp⟩ := mem_live.1 hx
        have hxhash : x.hash ≠ r.hash := fun h => hxr (hf.eq_of_hash hxmem hmem h)
        exact ⟨List.mem_map.2 ⟨x, List.mem_append_left _ hxmem, if_neg hxhash⟩, hxopen, hxp⟩
      · exact ⟨List.mem_map.2 ⟨_, List.mem_append_right _ (List.mem_singleton_self _),
          if_neg hne⟩, rfl, hp⟩

/-! ## The loop of a revoke -/

variable {q : Request} {revoke : Grant} {clock : ℕ → ℤ}

/-- **A loop no grant stops** takes the revoked verbs from the grants it goes
over, and from no other. -/
theorem Wf.revokes (q : Request) (clock : ℕ → ℤ) (hinj : Function.Injective address)
    {gs : List (GrantRow H)} (touched : ℕ) (hf : f.Wf N address)
    (hgs : ∀ r ∈ gs, r ∈ f.live q.principal) (hnd : gs.Nodup)
    (hwithin : ∀ r ∈ gs, ∀ g, r.grant = some g → g.shares revoke = true →
      g.withinScope revoke = true) :
    ∃ k f', revokeLoop N address q revoke clock gs touched f = (.ok k, f') ∧ f'.Wf N address ∧
      ∀ p v ns, f'.Conveys p v ns ↔ ∃ r ∈ f.live p,
        (∃ g, r.grant = some g ∧ g.covers v ns = true) ∧ ¬(r ∈ gs ∧ v ∈ revoke.verbs) := by
  induction gs generalizing f touched with
  | nil =>
    refine ⟨touched, f, rfl, hf, fun p v ns => ?_⟩
    simp [Conveys]
  | cons r rest ih =>
    rw [List.forall_mem_cons] at hgs hwithin
    rw [List.nodup_cons] at hnd
    -- a grain the loop passes over carries no revoked verb
    have hskip : (∀ g, r.grant = some g → g.shares revoke = false) →
        (∃ k f', revokeLoop N address q revoke clock rest touched f = (.ok k, f') ∧
          f'.Wf N address ∧ ∀ p v ns, f'.Conveys p v ns ↔ ∃ r' ∈ f.live p,
            (∃ g, r'.grant = some g ∧ g.covers v ns = true) ∧
              ¬(r' ∈ r :: rest ∧ v ∈ revoke.verbs)) := by
      intro hnone
      obtain ⟨k, f', hrun, hf', hconv⟩ := ih touched hf hgs.2 hnd.2 hwithin.2
      refine ⟨k, f', hrun, hf', fun p v ns => (hconv p v ns).trans ?_⟩
      refine exists_congr fun x => and_congr_right fun _ => and_congr_right fun hcarries => ?_
      rw [List.mem_cons]
      refine not_congr ⟨fun h => ⟨.inr h.1, h.2⟩, ?_⟩
      rintro ⟨rfl | hx, hv⟩
      · obtain ⟨g, hg, hcovers⟩ := hcarries
        have hshares : g.shares revoke = true := by
          rw [Grant.shares, List.any_eq_true]
          exact ⟨v, (Grant.covers_iff.1 hcovers).1, by simpa using hv⟩
        rw [hnone g hg] at hshares
        cases hshares
      · exact ⟨hx, hv⟩
    unfold revokeLoop
    cases hgrant : r.grant with
    | none => exact hskip fun g hg => by rw [hgrant] at hg; cases hg
    | some existing =>
      dsimp only
      cases hshares : existing.shares revoke with
      | false =>
        exact hskip fun g hg => by
          rw [hgrant] at hg
          cases hg
          exact hshares
      | true =>
        have hscope := hwithin.1 existing hgrant hshares
        have hread := GrantRow.grant_eq_some.1 hgrant
        obtain ⟨hmem, -, hpr⟩ := mem_live.1 hgs.1
        have hprincipal : N.Normal q.principal := hpr ▸ (hf.normal r hmem).1
        have hobject := Grant.normal_reduced (hf.normal r hmem).2 hread revoke
        obtain ⟨f₁, hsup, hf₁, hlive⟩ := hf.supersede hinj hgs.1
          (q.replacement N existing revoke (clock touched)) hprincipal (N.idem _)
        simp only [Bool.not_true, Bool.false_eq_true, if_false, hscope, hsup]
        have hfresh := hf.successor_fresh hinj hgs.1
          (q.replacement N existing revoke (clock touched))
        have hrest : ∀ x ∈ rest, x ∈ f₁.live q.principal := fun x hx =>
          (hlive _ x).2 (.inl ⟨hgs.2 x hx, fun h => hnd.1 (h ▸ hx)⟩)
        obtain ⟨k, f', hrun, hf', hconv⟩ := ih (touched + 1) hf₁ hrest hnd.2 hwithin.2
        refine ⟨k, f', hrun, hf', fun p v ns => (hconv p v ns).trans ?_⟩
        have hreduced := Grant.reduced_covers hread revoke v ns
        rw [← hobject.eq] at hreduced
        constructor
        · rintro ⟨x, hx, hcarries, hleft⟩
          rcases (hlive p x).1 hx with ⟨hx, hxr⟩ | ⟨rfl, rfl⟩
          · refine ⟨x, hx, hcarries, ?_⟩
            rintro ⟨hmem, hv⟩
            exact hleft ⟨(List.mem_cons.1 hmem).resolve_left hxr, hv⟩
          · obtain ⟨hv, hcovers⟩ := hreduced.1 hcarries
            exact ⟨r, hgs.1, ⟨existing, hgrant, hcovers⟩, fun h => hv h.2⟩
        · rintro ⟨x, hx, ⟨g, hg, hcovers⟩, hleft⟩
          by_cases hxr : x = r
          · subst hxr
            rw [hgrant] at hg
            cases hg
            have hv : v ∉ revoke.verbs := fun hv => hleft ⟨List.mem_cons_self, hv⟩
            have hp : p = q.principal := (mem_live.1 hx).2.2.symm.trans (mem_live.1 hgs.1).2.2
            exact ⟨_, (hlive p _).2 (.inr ⟨rfl, hp⟩), hreduced.2 ⟨hv, hcovers⟩, fun h => hv h.2⟩
          · exact ⟨x, (hlive p x).2 (.inl ⟨hx, hxr⟩), ⟨g, hg, hcovers⟩,
              fun h => hleft ⟨List.mem_cons_of_mem _ h.1, h.2⟩⟩

/-- A loop whose first grant of a revoked verb is wider stops there, before it
has changed anything. -/
theorem revokeLoop_wider (N : Normalizer) (address : GrantFact H → H) (f : AuthzFile H)
    (q : Request)
    (clock : ℕ → ℤ) (touched : ℕ) {gs : List (GrantRow H)} {g : Grant}
    (hfirst : ((gs.filterMap GrantRow.grant).filter fun x => x.shares revoke).head? = some g)
    (hwide : g.withinScope revoke = false) :
    (revokeLoop N address q revoke clock gs touched f).1.isOk = false ∧
      (revokeLoop N address q revoke clock gs touched f).2 = f := by
  induction gs with
  | nil => cases hfirst
  | cons r rest ih =>
    unfold revokeLoop
    cases hgrant : r.grant with
    | none =>
      rw [List.filterMap_cons_none hgrant] at hfirst
      exact ih hfirst
    | some existing =>
      rw [List.filterMap_cons_some hgrant] at hfirst
      cases hshares : existing.shares revoke with
      | false =>
        rw [List.filter_cons_of_neg (by simp [hshares])] at hfirst
        simpa [hshares] using ih hfirst
      | true =>
        rw [List.filter_cons_of_pos (by simpa using hshares)] at hfirst
        cases hfirst
        simp [hshares, hwide, Except.isOk, Except.toBool]

/-- Adding a grant whose content is not that of a closed grain adds what it
carries. -/
theorem Wf.conveys_add (hinj : Function.Injective address) (hf : f.Wf N address)
    (fact : GrantFact H) (hopen : ∀ r ∈ f.rows, r.hash = address fact → r.supersededBy = none)
    (p : String) (v : Verb) (ns : String) :
    (f.add address fact).Conveys p v ns ↔ f.Conveys p v ns ∨
      (p = fact.principal ∧ ∃ g, Grant.fromObjectString fact.object = .ok g ∧
        g.covers v ns = true) := by
  unfold AuthzFile.add
  split_ifs with hhas
  · refine ⟨.inl, ?_⟩
    rintro (h | ⟨rfl, g, hg, hcovers⟩)
    · exact h
    · obtain ⟨r, hr, hhash⟩ := has_iff.1 hhas
      have hfact : r.fact = fact := hinj ((hf.hash r hr).symm.trans hhash)
      refine ⟨r, mem_live.2 ⟨hr, hopen r hr hhash, by rw [hfact]⟩, g, ?_, hcovers⟩
      rw [GrantRow.grant_eq_some, hfact]
      exact hg
  · constructor
    · rintro ⟨r, hr, g, hg, hcovers⟩
      obtain ⟨hmem, hcur, hp⟩ := mem_live.1 hr
      rcases List.mem_append.1 hmem with hmem | hnew
      · exact .inl ⟨r, mem_live.2 ⟨hmem, hcur, hp⟩, g, hg, hcovers⟩
      · rw [List.mem_singleton.1 hnew] at hp hg
        exact .inr ⟨hp.symm, g, GrantRow.grant_eq_some.1 hg, hcovers⟩
    · rintro (⟨r, hr, hcarries⟩ | ⟨rfl, g, hg, hcovers⟩)
      · obtain ⟨hmem, hcur, hp⟩ := mem_live.1 hr
        exact ⟨r, mem_live.2 ⟨List.mem_append_left _ hmem, hcur, hp⟩, hcarries⟩
      · refine ⟨⟨address fact, fact, none⟩, mem_live.2 ⟨?_, rfl, rfl⟩, g,
          GrantRow.grant_eq_some.2 hg, hcovers⟩
        exact List.mem_append_right _ (List.mem_singleton_self _)

end AuthzFile

/-! ## Calls -/

/-- **A clean call implements its effect.** -/
theorem AuthzCall.Clean.implements (hinj : Function.Injective address) (hf : f.Wf N address)
    {call : AuthzCall} (hcap : ∀ p, (f.live p).length ≤ authzGrantCap)
    (hcap' : ∀ p, ((call.run N address f).2.live p).length ≤ authzGrantCap)
    (hclean : call.Clean N address f) :
    call.Implements N address f ∧ (call.run N address f).2.Wf N address := by
  cases call with
  | grant q now =>
    cases hparse : q.parse (H := H) with
    | error e =>
      have hrun : (AuthzCall.grant q now).run N address f = (false, f) := by
        simp [AuthzCall.run, calGrant, hparse, Except.isOk, Except.toBool]
      rw [hrun]
      refine ⟨⟨?_, ?_, ?_⟩, hf⟩
      · intro h
        rw [hrun] at h
        cases h
      · intro _
        rw [hrun]
      · intro _ _ _ h
        cases h
    | ok g =>
      have hrun : (AuthzCall.grant q now).run N address f =
          (true, f.add address (q.fact N g now)) := by
        simp [AuthzCall.run, calGrant, hparse, Except.isOk, Except.toBool]
      obtain ⟨hplain, hprincipal, hnamespaces, hopen⟩ := hclean g hparse
      have hobject : N.nfc g.toObjectString = g.toObjectString :=
        Grant.normal_toObjectString hnamespaces
      obtain ⟨⟨g', hread, hcovers⟩, -⟩ := hplain.preserves (Request.parse_verbs hparse)
      rw [hrun] at hcap' ⊢
      refine ⟨⟨?_, ?_, ?_⟩, hf.add _ rfl ⟨N.idem _, N.idem _⟩⟩
      · intro _
        rw [hrun]
        ext ⟨p, v, ns⟩
        rw [AuthzFile.mem_rights (hcap' p), hf.conveys_add hinj _ hopen]
        have heffect : (AuthzCall.grant q now).effect (H := H) f.rights =
            f.rights ∪ g.named q.principal := by
          simp [AuthzCall.effect, hparse]
        rw [heffect, Set.mem_union, AuthzFile.mem_rights (hcap p)]
        refine or_congr_right ?_
        show (p = N.nfc q.principal ∧ ∃ x, Grant.fromObjectString (N.nfc g.toObjectString) = .ok x ∧
          _) ↔ _
        rw [hprincipal.eq, hobject, hread]
        refine and_congr_right fun _ => ?_
        simp only [Except.ok.injEq, exists_eq_left', hcovers]
      · intro h
        rw [hrun] at h
        cases h
      · intro _ _ _ h
        cases h
  | revoke q clock =>
    cases hparse : q.parse (H := H) with
    | error e =>
      have hrun : (AuthzCall.revoke q clock).run N address f = (false, f) := by
        simp [AuthzCall.run, calRevoke, hparse, Except.isOk, Except.toBool]
      rw [hrun]
      refine ⟨⟨?_, ?_, ?_⟩, hf⟩
      · intro h
        rw [hrun] at h
        cases h
      · intro _
        rw [hrun]
      · intro q' clock' revoke h hok
        cases h
        rw [hparse] at hok
        cases hok
    | ok g =>
      have hrecall : f.recallGrants q.principal authzGrantCap = (f.live q.principal).reverse :=
        List.take_of_length_le (by simpa using hcap q.principal)
      have hcall : calRevoke N address q clock f =
          revokeLoop N address q g clock (f.live q.principal).reverse 0 f := by
        rw [calRevoke, hparse]
        dsimp only
        rw [hrecall]
      have hmem : ∀ r ∈ (f.live q.principal).reverse, ∀ x, r.grant = some x →
          x.shares g = true → x ∈ f.concerned q.principal g := by
        intro r hr x hx hshares
        refine List.mem_filter.2 ⟨List.mem_filterMap.2 ⟨r, ?_, hx⟩, hshares⟩
        rw [hrecall]
        exact hr
      rcases hclean g hparse with hwithin | ⟨⟨x, hx, hwide⟩, y, hy, hoverlaps, hywide⟩
      · obtain ⟨k, f', hloop, hf', hconv⟩ := AuthzFile.Wf.revokes q clock hinj 0 hf
          (fun r hr => List.mem_reverse.1 hr) (List.nodup_reverse.2 (hf.live_nodup _))
          fun r hr x hx hs => hwithin x (hmem r hr x hx hs)
        have hrun : (AuthzCall.revoke q clock).run N address f = (true, f') := by
          simp [AuthzCall.run, hcall, hloop, Except.isOk, Except.toBool]
        rw [hrun] at hcap' ⊢
        refine ⟨⟨?_, ?_, ?_⟩, hf'⟩
        · intro _
          rw [hrun]
          ext ⟨p, v, ns⟩
          have heffect : (AuthzCall.revoke q clock).effect (H := H) f.rights =
              f.rights \ g.named q.principal := by
            simp [AuthzCall.effect, hparse]
          rw [AuthzFile.mem_rights (hcap' p), hconv, heffect, Set.mem_sdiff,
            AuthzFile.mem_rights (hcap p)]
          constructor
          · rintro ⟨r, hr, hcarries, hleft⟩
            refine ⟨⟨r, hr, hcarries⟩, ?_⟩
            rintro ⟨hp, hcovers⟩
            have hp' : p = q.principal := hp
            subst hp'
            exact hleft ⟨List.mem_reverse.2 hr, (Grant.covers_iff.1 hcovers).1⟩
          · rintro ⟨⟨r, hr, x, hx, hcovers⟩, hnot⟩
            refine ⟨r, hr, ⟨x, hx, hcovers⟩, ?_⟩
            rintro ⟨hgs, hv⟩
            have hp : p = q.principal :=
              (AuthzFile.mem_live.1 hr).2.2.symm.trans
                (AuthzFile.mem_live.1 (List.mem_reverse.1 hgs)).2.2
            have hshares : x.shares g = true := by
              rw [Grant.shares, List.any_eq_true]
              exact ⟨v, (Grant.covers_iff.1 hcovers).1, by simpa using hv⟩
            have hne := Grant.namespaces_ne_nil (GrantRow.grant_eq_some.1 hx)
            exact hnot ⟨hp, Grant.withinScope_covers hne
              (hwithin x (hmem r hgs x hx hshares)) hcovers hv⟩
        · intro h
          rw [hrun] at h
          cases h
        · intro _ _ _ _ _ _
          rw [hrun]
      · have hfirst : (((f.live q.principal).reverse.filterMap GrantRow.grant).filter
            fun x => x.shares g).head? = some x := by
          rw [← hrecall]
          exact hx
        obtain ⟨hfails, hsame⟩ := AuthzFile.revokeLoop_wider N address f q clock 0 hfirst hwide
        rw [← hcall] at hfails hsame
        have hrun : (AuthzCall.revoke q clock).run N address f = (false, f) :=
          Prod.ext hfails hsame
        rw [hrun]
        refine ⟨⟨?_, ?_, ?_⟩, hf⟩
        · intro h
          rw [hrun] at h
          cases h
        · intro _
          rw [hrun]
        · intro q' clock' revoke h hok hall
          cases h
          rw [hparse] at hok
          cases hok
          rw [hall y hy hoverlaps] at hywide
          cases hywide

/-! ## Histories -/

/-- From any file, a history of clean calls keeps the rights of the file in step
with the set of rights. -/
theorem AuthzFile.Wf.rights_after (hinj : Function.Injective address) {calls : List AuthzCall}
    {f : AuthzFile H} {R : Set Right} (hf : f.Wf N address) (hR : f.rights = R)
    (hcap : ∀ done, done <+: calls → ∀ p, ((f.after N address done).live p).length ≤ authzGrantCap)
    (hclean : ∀ done call rest, calls = done ++ call :: rest →
      call.Clean N address (f.after N address done)) :
    (f.after N address calls).rights = referenceRights N address calls f R ∧
      ∀ done call rest, calls = done ++ call :: rest →
        call.Implements N address (f.after N address done) := by
  induction calls generalizing f R with
  | nil =>
    refine ⟨hR, fun done call rest h => ?_⟩
    cases done <;> cases h
  | cons call calls ih =>
    have hcall := (hclean [] call calls rfl).implements hinj hf
      (hcap [] (List.nil_prefix)) (hcap [call] ⟨calls, rfl⟩)
    obtain ⟨himpl, hf'⟩ := hcall
    have hR' : (call.run N address f).2.rights =
        if (call.run N address f).1 then call.effect (H := H) R else R := by
      cases hok : (call.run N address f).1 with
      | true =>
        rw [himpl.succeeded hok, hR]
        rfl
      | false =>
        rw [himpl.failed hok, hR]
        rfl
    obtain ⟨hafter, hall⟩ := ih hf' hR'
      (fun done hd => hcap (call :: done) (List.cons_prefix_cons.2 ⟨rfl, hd⟩))
      (fun done c rest h => hclean (call :: done) c rest (by rw [h]; rfl))
    refine ⟨hafter, fun done c rest h => ?_⟩
    cases done with
    | nil =>
      cases h
      exact himpl
    | cons d done =>
      obtain ⟨rfl, hrest⟩ := List.cons.inj h
      exact hall done c rest hrest

/-- **Grants and revokes implement a set of rights** in every history of clean
calls on a new file, with no principal over the cap: the file conveys the rights
of the set, and every call succeeds and changes them as it should. -/
theorem rights_of_clean_history (hinj : Function.Injective address) (calls : List AuthzCall)
    (hcap : ∀ done, done <+: calls → ∀ p,
      ((AuthzFile.empty.after N address done).live p).length ≤ authzGrantCap)
    (hclean : ∀ done call rest, calls = done ++ call :: rest →
      call.Clean N address (AuthzFile.empty.after N address done)) :
    (AuthzFile.empty.after N address calls).rights = referenceRights N address calls .empty ∅ ∧
      ∀ done call rest, calls = done ++ call :: rest →
        call.Implements N address (AuthzFile.empty.after N address done) := by
  refine AuthzFile.wf_empty.rights_after hinj ?_ hcap hclean
  ext t
  simp [AuthzFile.rights, AuthzFile.authzGrants, AuthzFile.recallGrants, AuthzFile.live,
    AuthzFile.empty, AuthzSet.allows_restricted]

end File

/-! ## Two grants and a revoke -/

/-- The contents of a grant grain and of those it replaced. -/
abbrev Lineage := List (GrantFact Unit)

/-- An address that tells every content from every other. -/
def lineage (fact : GrantFact Lineage) : Lineage :=
  { fact with derivedFrom := fact.derivedFrom.map fun _ => () } :: fact.derivedFrom.getD []

theorem lineage_injective : Function.Injective lineage := by
  rintro ⟨p, o, c, g, b, r, d⟩ ⟨p', o', c', g', b', r', d'⟩ h
  obtain ⟨hhead, htail⟩ := List.cons.inj h
  cases d <;> cases d' <;> simp at hhead htail ⊢ <;> simp_all

/-- A normalizer for texts that are in normal form as they are. -/
def asciiForm : Normalizer :=
  ⟨id, fun _ => rfl, fun _ _ _ _ => rfl, fun _ _ _ _ => ⟨rfl, rfl⟩, fun _ _ => rfl⟩

/-- The owner's request about what `alice` may read. -/
def aliceReads (namespaces : List String) : Request :=
  ⟨⟨"root@localhost", true, []⟩, "alice", ["read"], namespaces, none⟩

/-- One `GRANT` of a plain namespace. -/
theorem rights_after_grant :
    (AuthzFile.empty.after asciiForm lineage [.grant (aliceReads ["caller"]) 1]).rights =
      referenceRights asciiForm lineage [.grant (aliceReads ["caller"]) 1] .empty ∅ := by
  refine (rights_of_clean_history lineage_injective [.grant (aliceReads ["caller"]) 1] ?_ ?_).1
  · intro done hd p
    have hlen : (AuthzFile.empty.after asciiForm lineage done).rows.length ≤ 1 := by
      rcases List.prefix_cons_iff.1 hd with rfl | ⟨rest, rfl, hrest⟩
      · decide
      · rw [List.prefix_nil.1 hrest]
        decide +kernel
    exact (List.length_filter_le _ _).trans (hlen.trans (by decide))
  · intro done call rest h
    cases done with
    | cons d done => cases done <;> cases h
    | nil =>
      cases h
      intro g hg
      have hparse : (aliceReads ["caller"]).parse (H := Lineage) = .ok ⟨[.read], ["caller"]⟩ := by
        rfl
      rw [hparse] at hg
      cases hg
      exact ⟨.inr (by decide), rfl, fun _ _ => rfl, fun r hr => nomatch hr⟩

/-- `GRANT read ON a` and `GRANT read ON b`. -/
def grantsOnTwo : List AuthzCall := [.grant (aliceReads ["a"]) 1, .grant (aliceReads ["b"]) 2]

/-- `REVOKE read ON a` fails on the grant on `b`, which it does not overlap. -/
theorem revoke_one_of_two :
    ¬ ∀ (calls : List AuthzCall) (call : AuthzCall),
      (∀ p, ((AuthzFile.empty.after asciiForm lineage calls).live p).length ≤ authzGrantCap) →
        call.Implements asciiForm lineage (AuthzFile.empty.after asciiForm lineage calls) := by
  intro h
  have hcap : ∀ p, ((AuthzFile.empty.after asciiForm lineage grantsOnTwo).live p).length ≤
      authzGrantCap := by
    intro p
    have hlen : (AuthzFile.empty.after asciiForm lineage grantsOnTwo).rows.length ≤ 2 := by
      decide +kernel
    exact (List.length_filter_le _ _).trans (hlen.trans (by decide))
  have hrevoke := h grantsOnTwo (.revoke (aliceReads ["a"]) fun _ => 3) hcap
  have hconcerned : (AuthzFile.empty.after asciiForm lineage grantsOnTwo).concerned "alice"
      ⟨[.read], ["a"]⟩ = [⟨[.read], ["b"]⟩, ⟨[.read], ["a"]⟩] := by decide +kernel
  have hok := hrevoke.accepted (aliceReads ["a"]) _ ⟨[.read], ["a"]⟩ rfl rfl fun g hg hover => by
    have hg' : g ∈ [(⟨[.read], ["b"]⟩ : Grant), ⟨[.read], ["a"]⟩] := hconcerned ▸ hg
    rcases List.mem_cons.1 hg' with rfl | hg'
    · obtain ⟨ns, hb, ha⟩ := hover
      simp at hb ha
      subst hb
      revert ha
      decide
    · rw [List.mem_singleton.1 hg']
      decide
  revert hok
  decide +kernel

end Deja.Authz
