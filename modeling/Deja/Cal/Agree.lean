import Deja.Cal.Registry

/-!
# The registries and the file

After a history the host's registries should be what a fresh host loads from
the same file.  The saved queries are, where their rows are read.  A template is loaded
only after the template it extends, and the scan of the rows promises no order; and a
template outlives, in the running host, the template it extends.

* `Host.Mirrored` — the rows are the image of the host's own entries.
* `InOrder` — the order of the rows in which every template can be loaded.
* `registries_agree_iff` — a history keeps the two views equal exactly when its
  rows stay in order and readable.
-/

namespace Deja.Cal

open Deja.Authz

variable (L : Shipped) (scan : ScanOrder)

/-! ## What a reader sees -/

/-- The text of a saved query of the user. -/
def QueryRegistry.saved (reg : QueryRegistry) (name : String) : Option String :=
  ((reg.lookup name).filter (!·.builtin)).map QueryEntry.body

/-- The text of a template of the user, and what it resolves to. -/
def TemplateRegistry.resolved (reg : TemplateRegistry) (name : String) :
    Option (String × Template) :=
  ((reg.lookup name).filter (!·.builtin)).map fun e => (e.template.source, resolveInheritance e reg)

/-- The host shows what a fresh host over its file would. -/
def Host.Agrees (h : Host) : Prop :=
  ∀ name, (h.liveQueries L scan).saved name = (rehydrateQueries L scan h.file.queries).saved name ∧
    (h.liveTemplates L scan).resolved name =
      (rehydrateTemplates L scan h.file.templates).resolved name

/-- The two hosts show the same. -/
def Host.Alike (h h' : Host) : Prop :=
  ∀ name, (h.liveQueries L scan).saved name = (h'.liveQueries L scan).saved name ∧
    (h.liveTemplates L scan).resolved name = (h'.liveTemplates L scan).resolved name

/-- The event went as it should: the views agree, and a refusal changed nothing. -/
def Host.Kept (h : Host) (ev : Event) : Prop :=
  (ev.run L scan h).2.Agrees L scan ∧
    ((ev.run L scan h).1.isOk = false → h.Alike L scan (ev.run L scan h).2)

/-- The template extends nothing, a built-in one, or a row that extends nothing
and is among `seen`. -/
def extendsEarlier (seen : List (String × PersistedTemplate)) (p : PersistedTemplate) : Bool :=
  match p.parent with
  | none => true
  | some q => builtinTemplateNames.contains q || seen.any fun r => r.1 == q && r.2.parent.isNone

/-- Every row comes after the row it extends. -/
def InOrderAfter : List (String × PersistedTemplate) → List (String × PersistedTemplate) → Prop
  | _, [] => True
  | seen, x :: rest => extendsEarlier seen x.2 = true ∧ InOrderAfter (seen ++ [x]) rest

/-- Every row of the file, in the order of the scan, comes after the row it
extends. -/
def Host.InOrder (h : Host) : Prop := InOrderAfter [] (scan.rows h.file.templates)

/-- Every row of a saved query is read: no default is a number out of range. -/
def Host.Readable (h : Host) : Prop := ∀ x ∈ h.file.queries, x.2.readable = true

theorem TemplateRegistry.resolved_congr {reg reg' : TemplateRegistry}
    (h : ∀ k, reg.lookup k = reg'.lookup k) (name : String) :
    reg.resolved name = reg'.resolved name := by
  have hr : (fun e => (e.template.source, resolveInheritance e reg)) =
      fun e => (e.template.source, resolveInheritance e reg') := by
    funext e
    simp only [resolveInheritance, h]
  rw [TemplateRegistry.resolved, TemplateRegistry.resolved, hr, h]

theorem QueryRegistry.saved_congr {reg reg' : QueryRegistry}
    (h : ∀ k, reg.lookup k = reg'.lookup k) (name : String) : reg.saved name = reg'.saved name := by
  rw [QueryRegistry.saved, QueryRegistry.saved, h]

/-! ## Saved queries -/

/-- A query entry the registry accepts. -/
structure QueryEntry.Sound (name : String) (e : QueryEntry) : Prop where
  custom : e.builtin = false
  name : isValidQueryName name = true
  body : e.body.utf8ByteSize ≤ maxQueryBodySize
  params : e.params.length ≤ maxQueryParams

/-- The rows are the image of the registry's own queries, within the cap. -/
def QueriesMirror (reg : QueryRegistry) (rows : List (String × PersistedQuery)) : Prop :=
  ∃ users,
    Assoc.Mirrors (QueryRegistry.new L) QueryEntry.persisted QueryEntry.Sound users reg rows ∧
    reg.length ≤ maxQueries

theorem QueryRegistry.builtin_of_mem_new {x : String × QueryEntry}
    (h : x ∈ QueryRegistry.new L) : x.2.builtin = true := by
  obtain ⟨n, -, rfl⟩ := List.mem_map.1 h
  rfl

theorem QueryRegistry.nodup_new : ((QueryRegistry.new L).map Prod.fst).Nodup := by
  have h : (QueryRegistry.new L).map Prod.fst = builtinQueryNames := by
    simp [QueryRegistry.new, Function.comp_def]
  rw [h]
  decide

/-- The registrations that go through. -/
theorem QueryRegistry.register_eq_ok {reg reg' : QueryRegistry} {name : String}
    {p : PersistedQuery} : reg.register name p = .ok reg' ↔
    QueryEntry.Sound name ⟨p.body, p.description, p.params, false⟩ ∧
      (reg.lookup name).any (·.builtin) = false ∧ reg.length < maxQueries ∧
      reg' = Assoc.insert name ⟨p.body, p.description, p.params, false⟩ reg := by
  unfold QueryRegistry.register
  constructor
  · intro h
    split_ifs at h with h₁ h₂ h₃ h₄ h₅
    · cases h
      refine ⟨⟨rfl, by simpa using h₁, ?_, ?_⟩, by simpa using h₄, by omega, rfl⟩
      · exact Nat.le_of_not_lt h₂
      · exact Nat.le_of_not_lt h₃
  · rintro ⟨⟨-, hn, hb, hp⟩, hbuiltin, hlen, rfl⟩
    rw [if_neg (by simp [hn]), if_neg (by simpa using hb), if_neg (by simpa using hp),
      if_neg (by simp [hbuiltin]), if_neg (by omega)]

variable {L}

theorem restoreQuery_perm {users : List (String × QueryEntry)} {reg : QueryRegistry}
    {rows : List (String × PersistedQuery)} {name : String}
    (m : Assoc.Mirrors (QueryRegistry.new L) QueryEntry.persisted QueryEntry.Sound users reg rows)
    (hlen : reg.length ≤ maxQueries) (hb : (reg.lookup name).any (·.builtin) = false) :
    (restoreQuery (Assoc.erase name reg) name (snapshotQuery reg name)).Perm reg := by
  cases hl : reg.lookup name with
  | none =>
    have hs : snapshotQuery reg name = none := by simp [snapshotQuery, hl]
    rw [hs, restoreQuery, Assoc.erase_eq_self (Assoc.lookup_eq_none_iff.1 hl)]
  | some e =>
    have hcustom : e.builtin = false := by simpa [hl] using hb
    have hmem : (name, e) ∈ users :=
      m.mem_users_of_unmarked (·.builtin)
        (fun x hx => QueryRegistry.builtin_of_mem_new L hx) hl hcustom
    have hreg : (name, e) ∈ reg := m.map.mem_iff.2 (List.mem_append_right _ hmem)
    have hsound := m.sound _ hmem
    have hentry : (⟨e.body, e.description, e.params, false⟩ : QueryEntry) = e := by
      rw [← hcustom]
    -- with the entry gone there is room for it
    have hroom : (Assoc.erase name reg).length < maxQueries := by
      have := Assoc.length_erase_of_mem m.nodup_map hreg
      omega
    have hok : QueryRegistry.register (Assoc.erase name reg) name e.persisted =
        .ok (Assoc.insert name e (Assoc.erase name reg)) := by
      rw [QueryRegistry.register_eq_ok]
      refine ⟨?_, by simp, hroom, ?_⟩
      · simpa [QueryEntry.persisted, hentry] using hsound
      · simp [QueryEntry.persisted, hentry]
    have hs : snapshotQuery reg name = some e.persisted := by simp [snapshotQuery, hl]
    rw [hs, restoreQuery, loadQuery, hok]
    exact m.insert_erase_perm hmem

/-- What an operation on the saved queries does to a host: the templates stay,
the rows keep mirroring the registry, and a refusal changes no binding. -/
structure QueriesKept (L : Shipped) (scan : ScanOrder) (h : Host)
    (out : Except HostError Unit × Host) : Prop where
  templates : out.2.templates = h.templates
  rows : out.2.file.templates = h.file.templates
  mirror : QueriesMirror L (out.2.liveQueries L scan) out.2.file.queries
  refused : out.1.isOk = false →
    ∀ k, (h.liveQueries L scan).lookup k = (out.2.liveQueries L scan).lookup k

section Steps

variable {h : Host} {scan} (s : AuthzSet) (name : String) (disk : Option DejaDbError)

theorem defineQuery_kept (hm : QueriesMirror L (h.liveQueries L scan) h.file.queries)
    (body : String) (description : Option String) (params : List QueryParam) :
    QueriesKept L scan h (defineQuery L scan s name body description params disk h) := by
  unfold defineQuery
  cases s.check .admin "*" with
  | error d => exact ⟨rfl, rfl, hm, fun _ _ => rfl⟩
  | ok _ =>
    dsimp only
    cases hr : (h.liveQueries L scan).register name ⟨body, description.getD "", params⟩ with
    | error e => exact ⟨rfl, rfl, hm, fun _ _ => rfl⟩
    | ok reg₁ =>
      obtain ⟨users, m, hlen⟩ := hm
      obtain ⟨hsound, hb, hroom, rfl⟩ := QueryRegistry.register_eq_ok.1 hr
      have hfixed := m.not_fixed_of_unmarked (·.builtin)
        (fun x hx => QueryRegistry.builtin_of_mem_new L hx) hb
      have hs : snapshotQuery (Assoc.insert name
          (⟨body, description.getD "", params, false⟩ : QueryEntry) (h.liveQueries L scan)) name =
          some ⟨body, description.getD "", params⟩ := by
        simp [snapshotQuery, QueryEntry.persisted]
      dsimp only
      rw [hs]
      cases disk with
      | none =>
        refine ⟨rfl, rfl, ⟨_, m.insert hfixed hsound, ?_⟩, fun hok => by cases hok⟩
        have := Assoc.length_erase_le name (h.liveQueries L scan)
        simp only [Host.liveQueries, Option.getD_some, Assoc.insert_eq, List.length_cons]
        simp only [Host.liveQueries] at this hroom
        omega
      | some e =>
        have hdrop : dropped QueryRegistry.delete (Assoc.insert name
            (⟨body, description.getD "", params, false⟩ : QueryEntry) (h.liveQueries L scan)) name =
            Assoc.erase name (h.liveQueries L scan) := by
          simp [dropped, QueryRegistry.delete]
        have hp := restoreQuery_perm m hlen hb
        dsimp only
        rw [hdrop]
        refine ⟨rfl, rfl, ⟨users, m.of_perm hp, ?_⟩, fun _ k => m.lookup_eq hp.symm k⟩
        exact hp.length_eq.trans_le hlen

theorem dropQuery_kept (hm : QueriesMirror L (h.liveQueries L scan) h.file.queries) :
    QueriesKept L scan h (dropQuery L scan s name disk h) := by
  unfold dropQuery
  cases s.check .admin "*" with
  | error d => exact ⟨rfl, rfl, hm, fun _ _ => rfl⟩
  | ok _ =>
    dsimp only
    cases hl : (h.liveQueries L scan).lookup name with
    | none =>
      have hd : (h.liveQueries L scan).delete name = .error (.notFound name) := by
        simp [QueryRegistry.delete, hl]
      rw [hd]
      exact ⟨rfl, rfl, hm, fun _ _ => rfl⟩
    | some entry =>
      by_cases hb : entry.builtin = true
      · have hd : (h.liveQueries L scan).delete name = .error (.cannotDeleteBuiltin name) := by
          simp [QueryRegistry.delete, hl, hb]
        rw [hd]
        exact ⟨rfl, rfl, hm, fun _ _ => rfl⟩
      · have hd : (h.liveQueries L scan).delete name =
            .ok (Assoc.erase name (h.liveQueries L scan)) := by
          simp [QueryRegistry.delete, hl, hb]
        have hany : ((h.liveQueries L scan).lookup name).any (·.builtin) = false := by
          simp [hl, hb]
        rw [hd]
        obtain ⟨users, m, hlen⟩ := hm
        have hfixed := m.not_fixed_of_unmarked (·.builtin)
          (fun x hx => QueryRegistry.builtin_of_mem_new L hx) hany
        cases disk with
        | none =>
          refine ⟨rfl, rfl, ⟨_, m.erase hfixed, ?_⟩, fun hok => by cases hok⟩
          exact (Assoc.length_erase_le name _).trans hlen
        | some e =>
          have hp := restoreQuery_perm m hlen hany
          refine ⟨rfl, rfl, ⟨users, m.of_perm hp, ?_⟩, fun _ k => m.lookup_eq hp.symm k⟩
          exact hp.length_eq.trans_le hlen

end Steps

/-- Rows that all are read are loaded one after the other. -/
theorem foldl_readQuery {rows : List (String × PersistedQuery)}
    (h : ∀ x ∈ rows, x.2.readable = true) (reg : QueryRegistry) :
    rows.foldl readQuery reg = rows.foldl loadQuery reg := by
  induction rows generalizing reg with
  | nil => rfl
  | cons x rows ih =>
    rw [List.forall_mem_cons] at h
    rw [List.foldl_cons, List.foldl_cons, readQuery, if_pos h.1, ih h.2]

/-- What the rows that are read do not name stays as it was. -/
theorem lookup_foldl_readQuery {k : String} {rows : List (String × PersistedQuery)}
    (h : ∀ x ∈ rows, x.1 = k → x.2.readable = false) (reg : QueryRegistry) :
    (rows.foldl readQuery reg).lookup k = reg.lookup k := by
  induction rows generalizing reg with
  | nil => rfl
  | cons x rows ih =>
    rw [List.forall_mem_cons] at h
    rw [List.foldl_cons, ih h.2, readQuery]
    split_ifs with hread
    · have hne : k ≠ x.1 := fun heq => by
        rw [h.1 heq.symm] at hread
        cases hread
      rw [loadQuery]
      cases hr : QueryRegistry.register reg x.1 x.2 with
      | error e => rfl
      | ok reg' =>
        obtain ⟨-, -, -, rfl⟩ := QueryRegistry.register_eq_ok.1 hr
        exact Assoc.lookup_insert_of_ne hne ..
    · rfl

/-- A fresh host loads every saved query back, where all of them are read. -/
theorem rehydrateQueries_lookup (scan : ScanOrder) {reg : QueryRegistry}
    {rows : List (String × PersistedQuery)} (hm : QueriesMirror L reg rows)
    (hread : ∀ x ∈ rows, x.2.readable = true) (k : String) :
    (rehydrateQueries L scan rows).lookup k = reg.lookup k := by
  obtain ⟨users, m, hlen⟩ := hm
  obtain ⟨users', hp, hrows⟩ := m.exists_users (scan.perm rows)
  have hperm : (QueryRegistry.new L ++ users').Perm (QueryRegistry.new L ++ users) :=
    hp.append_left _
  have hload : (rehydrateQueries L scan rows).Perm (QueryRegistry.new L ++ users') := by
    rw [rehydrateQueries, foldl_readQuery fun x hx => hread x ((scan.perm rows).subset hx), hrows]
    refine Assoc.foldl_load_perm ((hperm.map _).nodup_iff.2 m.nodup) ?_
    rintro seen ⟨name, e⟩ rest d hu hd
    have hx : (name, e) ∈ users' := by simp [hu]
    have hsound := m.sound _ (hp.mem_iff.1 hx)
    have hentry : (⟨e.body, e.description, e.params, false⟩ : QueryEntry) = e := by
      rw [← hsound.custom]
    have hfresh : d.lookup name = none := by
      have hn := (hperm.map Prod.fst).nodup_iff.2 m.nodup
      rw [hu, ← List.append_assoc, List.map_append, List.nodup_append] at hn
      rw [Assoc.lookup_eq_none_iff, (hd.map _).mem_iff]
      intro hname
      exact hn.2.2 _ hname _ (by simp) rfl
    have hroom : d.length < maxQueries := by
      have h₁ := hd.length_eq
      have h₂ := m.length_map
      have h₃ := hp.length_eq
      rw [hu] at h₃
      simp only [List.length_append, List.length_cons] at h₁ h₃
      omega
    have hok : QueryRegistry.register d name e.persisted = .ok (Assoc.insert name e d) := by
      rw [QueryRegistry.register_eq_ok]
      refine ⟨?_, by simp [hfresh], hroom, ?_⟩
      · simpa [QueryEntry.persisted, hentry] using hsound
      · simp [QueryEntry.persisted, hentry]
    simp only [loadQuery, hok]
  exact (m.lookup_eq (m.map.trans (hload.trans hperm).symm) k).symm

/-! ## Templates -/

/-- A template entry the registry accepts, its parent aside. -/
structure TemplateEntry.Sound (L : Shipped) (name : String) (e : TemplateEntry) : Prop where
  custom : e.builtin = false
  name : isValidTemplateName name = true
  parsed : parseTemplateAny L e.template.source = .ok e.template
  parent : ∀ p ∈ e.parent, eqIgnoreAsciiCase p "data" = false

/-- The rows are the image of the registry's own templates, within the cap. -/
def TemplatesMirror (L : Shipped) (reg : TemplateRegistry)
    (rows : List (String × PersistedTemplate)) : Prop :=
  ∃ users, Assoc.Mirrors (TemplateRegistry.new L) TemplateEntry.persisted
    (TemplateEntry.Sound L) users reg rows ∧ users.length ≤ maxTemplates

theorem TemplateRegistry.of_mem_new {x : String × TemplateEntry}
    (h : x ∈ TemplateRegistry.new L) :
    x.1 ∈ builtinTemplateNames ∧ x.2.builtin = true ∧ x.2.parent = none := by
  obtain ⟨n, hn, rfl⟩ := List.mem_map.1 h
  exact ⟨hn, rfl, rfl⟩

theorem TemplateRegistry.keys_new :
    (TemplateRegistry.new L).map Prod.fst = builtinTemplateNames := by
  simp [TemplateRegistry.new, Function.comp_def]

/-- The built-in template of a name. -/
theorem TemplateRegistry.mem_new {q : String} (h : q ∈ builtinTemplateNames) :
    ∃ e, (q, e) ∈ TemplateRegistry.new L ∧ e.parent = none :=
  ⟨_, List.mem_map.2 ⟨q, h, rfl⟩, rfl⟩

/-- The parents `register` takes. -/
theorem TemplateRegistry.checkParent_eq_ok {reg : TemplateRegistry} {name : String}
    {parent : Option String} : reg.checkParent name parent = .ok () ↔
    ∀ p ∈ parent, eqIgnoreAsciiCase p "data" = false ∧
      ∃ e, reg.lookup p = some e ∧ e.parent = none := by
  cases parent with
  | none => simp [TemplateRegistry.checkParent]
  | some p =>
    by_cases hd : eqIgnoreAsciiCase p "data" = true
    · simp [TemplateRegistry.checkParent, hd]
    · cases hl : reg.lookup p with
      | none => simp [TemplateRegistry.checkParent, hd, hl]
      | some e =>
        cases hp : e.parent with
        | none => simp [TemplateRegistry.checkParent, hd, hl, hp]
        | some q => simp [TemplateRegistry.checkParent, hd, hl, hp]

/-- The registrations that go through. -/
theorem TemplateRegistry.register_eq_ok {reg reg' : TemplateRegistry} {name : String}
    {p : PersistedTemplate} : reg.register L name p = .ok reg' ↔
    isValidTemplateName name = true ∧ (reg.lookup name).any (·.builtin) = false ∧
      reg.checkParent name p.parent = .ok () ∧
      (reg.lookup name = none → reg.customCount < maxTemplates) ∧
      ∃ t, parseTemplateAny L p.source = .ok t ∧
        reg' = Assoc.insert name ⟨t, false, p.parent, p.description, p.grainTypes⟩ reg := by
  unfold TemplateRegistry.register
  by_cases hn : isValidTemplateName name = true
  swap
  · simp [hn]
  rw [if_neg (by simp [hn])]
  by_cases hb : (reg.lookup name).any (·.builtin) = true
  · simp [hn, hb]
  rw [if_neg hb]
  cases hc : reg.checkParent name p.parent with
  | error e => simp
  | ok _ =>
    dsimp only
    by_cases hcap : ((reg.lookup name).isNone && maxTemplates ≤ reg.customCount) = true
    · rw [if_pos hcap]
      simp only [Bool.and_eq_true, Option.isNone_iff_eq_none, decide_eq_true_eq] at hcap
      constructor
      · intro h
        cases h
      · rintro ⟨-, -, -, hroom, -⟩
        have := hroom hcap.1
        omega
    · rw [if_neg hcap]
      have hroom : reg.lookup name = none → reg.customCount < maxTemplates := by
        intro hl
        simpa [hl] using hcap
      cases ht : parseTemplateAny L p.source with
      | error e => simp [Except.map]
      | ok t =>
        constructor
        · intro h
          cases h
          exact ⟨hn, by simpa using hb, rfl, hroom, t, rfl, rfl⟩
        · rintro ⟨-, -, -, -, t', ht', rfl⟩
          cases ht'
          rfl

/-- The custom templates of a registry are those of the user. -/
theorem TemplateRegistry.customCount_eq {reg : TemplateRegistry}
    {users : List (String × TemplateEntry)} (hp : reg.Perm (TemplateRegistry.new L ++ users))
    (hu : ∀ x ∈ users, x.2.builtin = false) : reg.customCount = users.length := by
  rw [TemplateRegistry.customCount, (hp.filter _).length_eq, List.filter_append]
  have hnew : (TemplateRegistry.new L).filter (fun x => !x.2.builtin) = [] := by
    refine List.filter_eq_nil_iff.2 fun x hx => ?_
    simp [(TemplateRegistry.of_mem_new hx).2.1]
  have hall : users.filter (fun x => !x.2.builtin) = users :=
    List.filter_eq_self.2 fun x hx => by simp [hu x hx]
  rw [hnew, hall, List.nil_append]

/-! ## Rows in order -/

/-- A row between the rows before it and the rows after it. -/
theorem InOrderAfter.at {seen pre rest : List (String × PersistedTemplate)}
    {x : String × PersistedTemplate} (h : InOrderAfter seen (pre ++ x :: rest)) :
    extendsEarlier (seen ++ pre) x.2 = true := by
  induction pre generalizing seen with
  | nil => simpa using h.1
  | cons y pre ih =>
    have := ih h.2
    simpa using this

/-- The parent of a row in order is built in, or an earlier row that extends
nothing. -/
theorem extendsEarlier_iff {seen : List (String × PersistedTemplate)} {p : PersistedTemplate} :
    extendsEarlier seen p = true ↔ ∀ q ∈ p.parent,
      q ∈ builtinTemplateNames ∨ ∃ r, (q, r) ∈ seen ∧ r.parent = none := by
  cases hp : p.parent with
  | none => simp [extendsEarlier, hp]
  | some q => simp [extendsEarlier, hp]

/-- In a registry with the built-in templates and `seen`, such a parent passes
the check. -/
theorem checkParent_of_extendsEarlier {d : TemplateRegistry}
    {seen : List (String × TemplateEntry)} {name : String} {e : TemplateEntry}
    (hd : d.Perm (TemplateRegistry.new L ++ seen)) (hnodup : (d.map Prod.fst).Nodup)
    (hsound : e.Sound L name)
    (h : extendsEarlier (seen.map (Prod.map id TemplateEntry.persisted)) e.persisted = true) :
    d.checkParent name e.parent = .ok () := by
  rw [TemplateRegistry.checkParent_eq_ok]
  intro q hq
  refine ⟨hsound.parent q hq, ?_⟩
  rcases extendsEarlier_iff.1 h q hq with hb | ⟨r, hr, hroot⟩
  · obtain ⟨b, hb, hroot⟩ := TemplateRegistry.mem_new (L := L) hb
    refine ⟨b, Assoc.lookup_of_mem hnodup ?_, hroot⟩
    exact hd.mem_iff.2 (List.mem_append_left _ hb)
  · obtain ⟨⟨n, e'⟩, hx, heq⟩ := List.mem_map.1 hr
    cases heq
    refine ⟨e', Assoc.lookup_of_mem hnodup ?_, hroot⟩
    exact hd.mem_iff.2 (List.mem_append_right _ hx)

/-- A fresh host loads the rows in order back. -/
theorem rehydrateTemplates_lookup (scan : ScanOrder) {reg : TemplateRegistry}
    {rows : List (String × PersistedTemplate)} (hm : TemplatesMirror L reg rows)
    (horder : InOrderAfter [] (scan.rows rows)) (k : String) :
    (rehydrateTemplates L scan rows).lookup k = reg.lookup k := by
  obtain ⟨users, m, hlen⟩ := hm
  obtain ⟨users', hp, hrows⟩ := m.exists_users (scan.perm rows)
  have hperm : (TemplateRegistry.new L ++ users').Perm (TemplateRegistry.new L ++ users) :=
    hp.append_left _
  have hload : (rehydrateTemplates L scan rows).Perm (TemplateRegistry.new L ++ users') := by
    rw [rehydrateTemplates, hrows]
    refine Assoc.foldl_load_perm ((hperm.map _).nodup_iff.2 m.nodup) ?_
    rintro seen ⟨name, e⟩ rest d hu hd
    have hx : (name, e) ∈ users' := by simp [hu]
    have hsound := m.sound _ (hp.mem_iff.1 hx)
    have hnodup : (((TemplateRegistry.new L ++ seen) ++ (name, e) :: rest).map Prod.fst).Nodup := by
      have hn := (hperm.map Prod.fst).nodup_iff.2 m.nodup
      rwa [hu, ← List.append_assoc] at hn
    rw [List.map_append, List.nodup_append] at hnodup
    have hfresh : d.lookup name = none := by
      rw [Assoc.lookup_eq_none_iff, (hd.map _).mem_iff]
      intro hname
      exact hnodup.2.2 _ hname _ (by simp) rfl
    have hseen : ∀ x ∈ seen, x.2.builtin = false := fun x hx =>
      (m.sound x (hp.mem_iff.1 (by simp [hu, hx]))).custom
    have hroom : TemplateRegistry.customCount d < maxTemplates := by
      rw [TemplateRegistry.customCount_eq hd hseen]
      have := hp.length_eq
      rw [hu] at this
      simp only [List.length_append, List.length_cons] at this
      omega
    have hext : extendsEarlier (seen.map (Prod.map id TemplateEntry.persisted))
        e.persisted = true := by
      rw [hrows, hu, List.map_append, List.map_cons] at horder
      exact horder.at
    have hok : TemplateRegistry.register L d name e.persisted = .ok (Assoc.insert name e d) := by
      rw [TemplateRegistry.register_eq_ok]
      refine ⟨hsound.name, by simp [hfresh], ?_, fun _ => hroom, e.template, hsound.parsed, ?_⟩
      · exact checkParent_of_extendsEarlier hd ((hd.map _).nodup_iff.2 hnodup.1) hsound hext
      · rw [← hsound.custom]
        rfl
    simp only [loadTemplate, hok]
  exact (m.lookup_eq (m.map.trans (hload.trans hperm).symm) k).symm

/-! ## Operations on the templates -/

/-- A template dropped and put back: the template it extends is still there. -/
theorem restoreTemplate_perm (scan : ScanOrder) {users : List (String × TemplateEntry)}
    {reg : TemplateRegistry} {rows : List (String × PersistedTemplate)} {name : String}
    (m : Assoc.Mirrors (TemplateRegistry.new L) TemplateEntry.persisted (TemplateEntry.Sound L)
      users reg rows)
    (hlen : users.length ≤ maxTemplates) (horder : InOrderAfter [] (scan.rows rows))
    (hb : (reg.lookup name).any (·.builtin) = false) :
    (restoreTemplate L (Assoc.erase name reg) name (snapshotTemplate reg name)).Perm reg := by
  have hmark : ∀ x ∈ TemplateRegistry.new L, x.2.builtin = true := fun x hx =>
    (TemplateRegistry.of_mem_new hx).2.1
  cases hl : reg.lookup name with
  | none =>
    have hs : snapshotTemplate reg name = none := by simp [snapshotTemplate, hl]
    rw [hs, restoreTemplate, Assoc.erase_eq_self (Assoc.lookup_eq_none_iff.1 hl)]
  | some e =>
    have hcustom : e.builtin = false := by simpa [hl] using hb
    have hmem : (name, e) ∈ users :=
      m.mem_users_of_unmarked (·.builtin) hmark hl hcustom
    have hsound := m.sound _ hmem
    have hfixed : name ∉ (TemplateRegistry.new L).map Prod.fst := m.not_fixed hmem
    have hperm := Assoc.perm_erase_beside m.map hfixed
    have hnodup : ((Assoc.erase name reg).map Prod.fst).Nodup :=
      Assoc.nodup_keys_erase m.nodup_map
    have hparent : TemplateRegistry.checkParent (Assoc.erase name reg) name e.parent =
        .ok () := by
      -- the row's place in the scan, and the rows before it
      have hrow : (name, e.persisted) ∈ scan.rows rows := by
        rw [(scan.perm rows).mem_iff, m.rows]
        exact List.mem_map.2 ⟨_, hmem, rfl⟩
      obtain ⟨pre, rest, hsplit⟩ := List.append_of_mem hrow
      have hext : extendsEarlier pre e.persisted = true := by
        rw [hsplit] at horder
        exact horder.at
      have hkeys : ((scan.rows rows).map Prod.fst).Nodup := by
        rw [((scan.perm rows).map _).nodup_iff, m.rows]
        simpa [List.map_map, Function.comp_def] using m.nodup_users
      rw [TemplateRegistry.checkParent_eq_ok]
      intro q hq
      refine ⟨hsound.parent q hq, ?_⟩
      rcases extendsEarlier_iff.1 hext q hq with hbuiltin | ⟨r, hr, hroot⟩
      · obtain ⟨b, hnew, hroot⟩ := TemplateRegistry.mem_new (L := L) hbuiltin
        refine ⟨b, Assoc.lookup_of_mem hnodup ?_, hroot⟩
        exact hperm.mem_iff.2 (List.mem_append_left _ hnew)
      · have hne : q ≠ name := by
          rintro rfl
          rw [hsplit, List.map_append, List.nodup_append] at hkeys
          exact hkeys.2.2 _ (List.mem_map.2 ⟨_, hr, rfl⟩) _ (by simp) rfl
        have hin : (q, r) ∈ rows := by
          rw [← (scan.perm rows).mem_iff, hsplit]
          exact List.mem_append_left _ hr
        rw [m.rows] at hin
        obtain ⟨⟨n, e'⟩, hx, heq⟩ := List.mem_map.1 hin
        cases heq
        refine ⟨e', Assoc.lookup_of_mem hnodup ?_, hroot⟩
        exact hperm.mem_iff.2 (List.mem_append_right _ (Assoc.mem_erase.2 ⟨hx, hne⟩))
    have hroom : TemplateRegistry.customCount (Assoc.erase name reg) < maxTemplates := by
      rw [TemplateRegistry.customCount_eq hperm fun x hx =>
        (m.sound x (Assoc.mem_erase.1 hx).1).custom]
      have := Assoc.length_erase_of_mem m.nodup_users hmem
      omega
    have hok : TemplateRegistry.register L (Assoc.erase name reg) name e.persisted =
        .ok (Assoc.insert name e (Assoc.erase name reg)) := by
      rw [TemplateRegistry.register_eq_ok]
      refine ⟨hsound.name, by simp, hparent, fun _ => hroom, e.template, hsound.parsed, ?_⟩
      rw [← hcustom]
      rfl
    have hs : snapshotTemplate reg name = some e.persisted := by
      simp [snapshotTemplate, hl, hcustom]
    rw [hs, restoreTemplate, loadTemplate, hok]
    exact m.insert_erase_perm hmem

/-- What an operation on the templates does to a host: the saved queries stay,
the rows keep mirroring the registry, and a refusal changes no binding. -/
structure TemplatesKept (L : Shipped) (scan : ScanOrder) (h : Host)
    (out : Except HostError Unit × Host) : Prop where
  queries : out.2.queries = h.queries
  rows : out.2.file.queries = h.file.queries
  mirror : TemplatesMirror L (out.2.liveTemplates L scan) out.2.file.templates
  refused : out.1.isOk = false →
    ∀ k, (h.liveTemplates L scan).lookup k = (out.2.liveTemplates L scan).lookup k

section Steps

variable {h : Host} {scan} (s : AuthzSet) (name : String) (disk : Option DejaDbError)

theorem defineTemplate_kept (hm : TemplatesMirror L (h.liveTemplates L scan) h.file.templates)
    (horder : h.InOrder scan) (source : String) (description parent : Option String)
    (grainTypes : List String) : TemplatesKept L scan h
      (defineTemplate L scan s name source description parent grainTypes disk h) := by
  unfold defineTemplate
  cases s.check .admin "*" with
  | error d => exact ⟨rfl, rfl, hm, fun _ _ => rfl⟩
  | ok _ =>
    dsimp only
    cases hr : (h.liveTemplates L scan).register L name
        ⟨source, description.getD "", parent, grainTypes⟩ with
    | error e => exact ⟨rfl, rfl, hm, fun _ _ => rfl⟩
    | ok reg₁ =>
      obtain ⟨users, m, hlen⟩ := hm
      obtain ⟨hname, hb, hparent, hroom, t, ht, rfl⟩ := TemplateRegistry.register_eq_ok.1 hr
      have hmark : ∀ x ∈ TemplateRegistry.new L, x.2.builtin = true := fun x hx =>
        (TemplateRegistry.of_mem_new hx).2.1
      have hfixed := m.not_fixed_of_unmarked (·.builtin) hmark hb
      have hsource : t.source = source := by
        unfold parseTemplateAny at ht
        cases hp : L.parse source with
        | error e => simp [hp, Except.map] at ht
        | ok b =>
          simp only [hp, Except.map, Except.ok.injEq] at ht
          rw [← ht]
      have hsound : TemplateEntry.Sound L name
          ⟨t, false, parent, description.getD "", grainTypes⟩ := by
        refine ⟨rfl, hname, ?_, ?_⟩
        · rw [hsource]
          exact ht
        · intro p hp
          exact (TemplateRegistry.checkParent_eq_ok.1 hparent p hp).1
      dsimp only
      cases disk with
      | none =>
        have hrow : TemplateEntry.persisted ⟨t, false, parent, description.getD "", grainTypes⟩ =
            ⟨source, description.getD "", parent, grainTypes⟩ := by
          rw [TemplateEntry.persisted, hsource]
        have hins := m.insert hfixed hsound
        rw [hrow] at hins
        refine ⟨rfl, rfl, ⟨_, hins, ?_⟩, fun hok => by cases hok⟩
        rw [Assoc.insert_eq, List.length_cons]
        by_cases hu : ∃ e, (name, e) ∈ users
        · obtain ⟨e, he⟩ := hu
          have := Assoc.length_erase_of_mem m.nodup_users he
          omega
        · have hl : (h.liveTemplates L scan).lookup name = none := by
            cases hl : (h.liveTemplates L scan).lookup name with
            | none => rfl
            | some e =>
              have hcustom : e.builtin = false := by simpa [hl] using hb
              exact absurd ⟨e, m.mem_users_of_unmarked (·.builtin) hmark hl hcustom⟩ hu
          have h₁ := hroom hl
          rw [TemplateRegistry.customCount_eq m.map fun x hx => (m.sound x hx).custom] at h₁
          have h₂ := Assoc.length_erase_le name users
          omega
      | some e =>
        have hdrop : dropped TemplateRegistry.delete (Assoc.insert name
            (⟨t, false, parent, description.getD "", grainTypes⟩ : TemplateEntry)
            (h.liveTemplates L scan)) name = Assoc.erase name (h.liveTemplates L scan) := by
          simp [dropped, TemplateRegistry.delete]
        have hp := restoreTemplate_perm scan m hlen horder hb
        dsimp only
        rw [hdrop]
        exact ⟨rfl, rfl, ⟨users, m.of_perm hp, hlen⟩, fun _ k => m.lookup_eq hp.symm k⟩

theorem dropTemplate_kept (hm : TemplatesMirror L (h.liveTemplates L scan) h.file.templates)
    (horder : h.InOrder scan) : TemplatesKept L scan h (dropTemplate L scan s name disk h) := by
  unfold dropTemplate
  cases s.check .admin "*" with
  | error d => exact ⟨rfl, rfl, hm, fun _ _ => rfl⟩
  | ok _ =>
    dsimp only
    cases hl : (h.liveTemplates L scan).lookup name with
    | none =>
      have hd : (h.liveTemplates L scan).delete name = .error (.notFound name) := by
        simp [TemplateRegistry.delete, hl]
      rw [hd]
      exact ⟨rfl, rfl, hm, fun _ _ => rfl⟩
    | some entry =>
      by_cases hb : entry.builtin = true
      · have hd : (h.liveTemplates L scan).delete name = .error (.builtinImmutable name) := by
          simp [TemplateRegistry.delete, hl, hb]
        rw [hd]
        exact ⟨rfl, rfl, hm, fun _ _ => rfl⟩
      · have hd : (h.liveTemplates L scan).delete name =
            .ok (Assoc.erase name (h.liveTemplates L scan)) := by
          simp [TemplateRegistry.delete, hl, hb]
        have hany : ((h.liveTemplates L scan).lookup name).any (·.builtin) = false := by
          simp [hl, hb]
        rw [hd]
        obtain ⟨users, m, hlen⟩ := hm
        have hfixed := m.not_fixed_of_unmarked (·.builtin)
          (fun x hx => (TemplateRegistry.of_mem_new hx).2.1) hany
        cases disk with
        | none =>
          refine ⟨rfl, rfl, ⟨_, m.erase hfixed, ?_⟩, fun hok => by cases hok⟩
          exact (Assoc.length_erase_le name _).trans hlen
        | some e =>
          have hp := restoreTemplate_perm scan m hlen horder hany
          exact ⟨rfl, rfl, ⟨users, m.of_perm hp, hlen⟩, fun _ k => m.lookup_eq hp.symm k⟩

end Steps

/-! ## Rows a fresh host has loaded are in order -/

/-- A row is skipped, or its parent passed the check and it is bound. -/
theorem loadTemplate_cases (d : TemplateRegistry) (x : String × PersistedTemplate) :
    loadTemplate L d x = d ∨ d.checkParent x.1 x.2.parent = .ok () ∧
      ∃ t, loadTemplate L d x =
        Assoc.insert x.1 ⟨t, false, x.2.parent, x.2.description, x.2.grainTypes⟩ d := by
  unfold loadTemplate
  cases hr : TemplateRegistry.register L d x.1 x.2 with
  | error e => exact Or.inl rfl
  | ok d' =>
    obtain ⟨-, -, hparent, -, t, -, rfl⟩ := TemplateRegistry.register_eq_ok.1 hr
    exact Or.inr ⟨hparent, t, rfl⟩

theorem lookup_foldl_loadTemplate {k : String} {rest : List (String × PersistedTemplate)}
    (h : k ∉ rest.map Prod.fst) (d : TemplateRegistry) :
    (rest.foldl (loadTemplate L) d).lookup k = d.lookup k := by
  induction rest generalizing d with
  | nil => rfl
  | cons x rest ih =>
    simp only [List.map_cons, List.mem_cons, not_or] at h
    rw [List.foldl_cons, ih h.2]
    rcases loadTemplate_cases (L := L) d x with hd | ⟨-, t, hd⟩
    · rw [hd]
    · rw [hd, Assoc.lookup_insert_of_ne h.1]

/-- Where every row is bound in the end, every row came after its parent. -/
theorem inOrder_of_loaded {rest seen : List (String × PersistedTemplate)} {d : TemplateRegistry}
    (hd : ∀ q e, d.lookup q = some e →
      q ∈ builtinTemplateNames ∨ ∃ r, (q, r) ∈ seen ∧ r.parent = e.parent)
    (hnodup : ((seen ++ rest).map Prod.fst).Nodup)
    (hnames : ∀ x ∈ rest, x.1 ∉ builtinTemplateNames)
    (hall : ∀ x ∈ rest, (rest.foldl (loadTemplate L) d).lookup x.1 ≠ none) :
    InOrderAfter seen rest := by
  induction rest generalizing seen d with
  | nil => trivial
  | cons x rest ih =>
    have hsplit := hnodup
    rw [List.map_append, List.nodup_append] at hsplit
    have hlater : x.1 ∉ rest.map Prod.fst := by
      have := hsplit.2.1
      rw [List.map_cons, List.nodup_cons] at this
      exact this.1
    have hbound : (loadTemplate L d x).lookup x.1 ≠ none := by
      have := hall x (by simp)
      rwa [List.foldl_cons, lookup_foldl_loadTemplate hlater] at this
    have hfresh : d.lookup x.1 = none := by
      cases hx : d.lookup x.1 with
      | none => rfl
      | some e =>
        rcases hd _ _ hx with hb | ⟨r, hr, -⟩
        · exact absurd hb (hnames x (by simp))
        · exact absurd rfl (hsplit.2.2 _ (List.mem_map.2 ⟨_, hr, rfl⟩) _ (by simp))
    rcases loadTemplate_cases (L := L) d x with hskip | ⟨hparent, t, hload⟩
    · rw [hskip, hfresh] at hbound
      exact absurd rfl hbound
    refine ⟨?_, ih (d := loadTemplate L d x) ?_ (by simpa using hnodup)
      (fun y hy => hnames y (by simp [hy])) fun y hy => ?_⟩
    · rw [extendsEarlier_iff]
      intro q hq
      obtain ⟨-, e, hl, hroot⟩ := TemplateRegistry.checkParent_eq_ok.1 hparent q hq
      rcases hd q e hl with hb | ⟨r, hr, hre⟩
      · exact Or.inl hb
      · exact Or.inr ⟨r, hr, hre.trans hroot⟩
    · intro q e hq
      rw [hload, Assoc.lookup_insert] at hq
      split_ifs at hq with hqx
      · cases hq
        exact Or.inr ⟨x.2, by simp [hqx], rfl⟩
      · rcases hd q e hq with hb | ⟨r, hr, hre⟩
        · exact Or.inl hb
        · exact Or.inr ⟨r, by simp [hr], hre⟩
    · have := hall y (by simp [hy])
      rwa [List.foldl_cons] at this

/-! ## Histories -/

/-- The rows of the file are the image of the host's own entries. -/
structure Host.Mirrored (L : Shipped) (scan : ScanOrder) (h : Host) : Prop where
  queries : QueriesMirror L (h.liveQueries L scan) h.file.queries
  templates : TemplatesMirror L (h.liveTemplates L scan) h.file.templates

section History

variable {scan} {h : Host}

theorem QueriesKept.mirrored {out : Except HostError Unit × Host}
    (k : QueriesKept L scan h out) (hm : h.Mirrored L scan) : out.2.Mirrored L scan := by
  refine ⟨k.mirror, ?_⟩
  have hlive : out.2.liveTemplates L scan = h.liveTemplates L scan := by
    rw [Host.liveTemplates, Host.liveTemplates, k.templates, k.rows]
  rw [hlive, k.rows]
  exact hm.templates

theorem QueriesKept.alike {out : Except HostError Unit × Host}
    (k : QueriesKept L scan h out) (hok : out.1.isOk = false) : h.Alike L scan out.2 := by
  have hlive : out.2.liveTemplates L scan = h.liveTemplates L scan := by
    rw [Host.liveTemplates, Host.liveTemplates, k.templates, k.rows]
  intro name
  exact ⟨QueryRegistry.saved_congr (k.refused hok) name, by rw [hlive]⟩

theorem TemplatesKept.mirrored {out : Except HostError Unit × Host}
    (k : TemplatesKept L scan h out) (hm : h.Mirrored L scan) : out.2.Mirrored L scan := by
  refine ⟨?_, k.mirror⟩
  have hlive : out.2.liveQueries L scan = h.liveQueries L scan := by
    rw [Host.liveQueries, Host.liveQueries, k.queries, k.rows]
  rw [hlive, k.rows]
  exact hm.queries

theorem TemplatesKept.alike {out : Except HostError Unit × Host}
    (k : TemplatesKept L scan h out) (hok : out.1.isOk = false) : h.Alike L scan out.2 := by
  have hlive : out.2.liveQueries L scan = h.liveQueries L scan := by
    rw [Host.liveQueries, Host.liveQueries, k.queries, k.rows]
  intro name
  exact ⟨by rw [hlive], TemplateRegistry.resolved_congr (k.refused hok) name⟩

/-- One event over rows in order: the rows go on mirroring the host, and a
refusal changes nothing a reader sees. -/
theorem Event.run_kept (ev : Event) (hm : h.Mirrored L scan) (ho : h.InOrder scan) :
    (ev.run L scan h).2.Mirrored L scan ∧
      ((ev.run L scan h).1.isOk = false → h.Alike L scan (ev.run L scan h).2) := by
  obtain ⟨s, call, disk⟩ := ev
  cases call with
  | defineQuery name body description params =>
    have k : QueriesKept L scan h _ :=
      defineQuery_kept s name disk hm.queries body description params
    exact ⟨k.mirrored hm, k.alike⟩
  | dropQuery name =>
    have k : QueriesKept L scan h _ := dropQuery_kept s name disk hm.queries
    exact ⟨k.mirrored hm, k.alike⟩
  | defineTemplate name source description parent grainTypes =>
    have k := defineTemplate_kept s name disk hm.templates ho source description parent grainTypes
    exact ⟨k.mirrored hm, k.alike⟩
  | dropTemplate name =>
    have k := dropTemplate_kept s name disk hm.templates ho
    exact ⟨k.mirrored hm, k.alike⟩

theorem Host.agrees_of_inOrder (hm : h.Mirrored L scan) (ho : h.InOrder scan)
    (hr : h.Readable) : h.Agrees L scan := by
  intro name
  constructor
  · exact QueryRegistry.saved_congr
      (fun k => (rehydrateQueries_lookup scan hm.queries hr k).symm) name
  · exact TemplateRegistry.resolved_congr
      (fun k => (rehydrateTemplates_lookup scan hm.templates ho k).symm) name

/-- A fresh host that shows every saved query has read every row. -/
theorem Host.readable_of_agrees (hm : h.Mirrored L scan) (ha : h.Agrees L scan) :
    h.Readable := by
  obtain ⟨users, m, -⟩ := hm.queries
  intro x hx
  by_contra hbad
  rw [Bool.not_eq_true] at hbad
  have huser := hx
  rw [m.rows] at huser
  obtain ⟨⟨name, e⟩, he, rfl⟩ := List.mem_map.1 huser
  have hnodup : (h.file.queries.map Prod.fst).Nodup := by
    rw [m.rows, List.map_map]
    exact m.nodup_users
  have honly : ∀ y ∈ scan.rows h.file.queries, y.1 = name → y.2.readable = false := by
    intro y hy hyname
    have hsame := List.inj_on_of_nodup_map hnodup ((scan.perm _).subset hy) hx hyname
    rw [hsame]
    exact hbad
  have hnew : (QueryRegistry.new L).lookup name = none :=
    Assoc.lookup_eq_none_iff.2 (m.not_fixed he)
  have hfresh : (rehydrateQueries L scan h.file.queries).lookup name = none := by
    rw [rehydrateQueries, lookup_foldl_readQuery honly, hnew]
  have hlive : (h.liveQueries L scan).lookup name = some e := m.lookup_iff.2 (Or.inr he)
  have hcustom : e.builtin = false := (m.sound _ he).custom
  have hsame := (ha name).1
  rw [QueryRegistry.saved, QueryRegistry.saved, hlive, hfresh] at hsame
  simp [Option.filter, hcustom] at hsame

/-- A fresh host that shows every template has loaded every row. -/
theorem Host.inOrder_of_agrees (hm : h.Mirrored L scan) (ha : h.Agrees L scan) :
    h.InOrder scan := by
  obtain ⟨users, m, -⟩ := hm.templates
  have hp := scan.perm h.file.templates
  have hkeys : (h.file.templates).map Prod.fst = users.map Prod.fst := by
    rw [m.rows, List.map_map]
    rfl
  have hrow : ∀ x ∈ scan.rows h.file.templates, ∃ e, (x.1, e) ∈ users := by
    intro x hx
    have hin := hp.mem_iff.1 hx
    rw [m.rows] at hin
    obtain ⟨y, hy, rfl⟩ := List.mem_map.1 hin
    exact ⟨y.2, hy⟩
  refine inOrder_of_loaded (L := L) (d := TemplateRegistry.new L) ?_ ?_ ?_ ?_
  · intro q e hq
    exact Or.inl (TemplateRegistry.of_mem_new (Assoc.mem_of_lookup hq)).1
  · rw [List.nil_append, (hp.map _).nodup_iff, hkeys]
    exact m.nodup_users
  · intro x hx hb
    obtain ⟨e, he⟩ := hrow x hx
    rw [← TemplateRegistry.keys_new (L := L)] at hb
    exact m.not_fixed he hb
  · intro x hx hnone
    obtain ⟨e, he⟩ := hrow x hx
    have hlive : (h.liveTemplates L scan).lookup x.1 = some e := m.lookup_iff.2 (Or.inr he)
    have hcustom : e.builtin = false := (m.sound _ he).custom
    have hsame := (ha x.1).2
    rw [TemplateRegistry.resolved, TemplateRegistry.resolved, hlive, rehydrateTemplates, hnone]
      at hsame
    simp [Option.filter, hcustom] at hsame

/-- A new file mirrors the host over it. -/
theorem Host.create_mirrored : Host.create.Mirrored L scan := by
  have hq : scan.rows ([] : List (String × PersistedQuery)) = [] :=
    List.Perm.eq_nil (scan.perm [])
  have ht : scan.rows ([] : List (String × PersistedTemplate)) = [] :=
    List.Perm.eq_nil (scan.perm [])
  refine ⟨⟨[], ⟨?_, rfl, ?_, by simp⟩, ?_⟩, ⟨[], ⟨?_, rfl, ?_, by simp⟩, by simp⟩⟩
  · simp [Host.liveQueries, Host.create, rehydrateQueries, hq]
  · rw [List.append_nil]
    exact QueryRegistry.nodup_new L
  · simp [Host.liveQueries, Host.create, rehydrateQueries, hq, QueryRegistry.new,
      builtinQueryNames, maxQueries]
  · simp [Host.liveTemplates, Host.create, rehydrateTemplates, ht]
  · rw [List.append_nil, TemplateRegistry.keys_new]
    decide

theorem Host.create_inOrder : Host.create.InOrder scan := by
  have ht : scan.rows ([] : List (String × PersistedTemplate)) = [] :=
    List.Perm.eq_nil (scan.perm [])
  rw [Host.InOrder, Host.create, ht]
  trivial

/-- As long as the rows are in order they mirror the host. -/
theorem Host.after_mirrored {evs : List Event}
    (h : ∀ done, done <+: evs → (Host.create.after L scan done).InOrder scan) :
    (Host.create.after L scan evs).Mirrored L scan := by
  induction evs using List.reverseRecOn with
  | nil => exact Host.create_mirrored
  | append_singleton evs ev ih =>
    have hm := ih fun done hdone => h done (hdone.trans (List.prefix_append _ _))
    rw [Host.after_concat]
    exact (ev.run_kept hm (h evs (List.prefix_append _ _))).1

end History

/-- **The registries and the file.**  Over a new file, a history of definitions
and drops keeps the host's saved queries and templates equal to what a fresh
host would load, with every refusal changing neither, exactly when after each
of its operations every template row comes, in the order of the scan, after the
row it extends, which extends nothing itself, and every row of a saved query is read. -/
theorem registries_agree_iff (L : Shipped) (scan : ScanOrder) (evs : List Event) :
    (∀ done ev rest, evs = done ++ ev :: rest → (Host.create.after L scan done).Kept L scan ev) ↔
      ∀ done, done <+: evs → (Host.create.after L scan done).InOrder scan ∧
        (Host.create.after L scan done).Readable := by
  constructor
  · intro hkept
    suffices h : ∀ done, done <+: evs → ∀ done', done' <+: done →
        (Host.create.after L scan done').InOrder scan ∧
          (Host.create.after L scan done').Readable from
      fun done hdone => h done hdone done (List.prefix_refl _)
    intro done
    induction done using List.reverseRecOn with
    | nil =>
      intro _ done' hd
      rw [List.prefix_nil.1 hd]
      exact ⟨Host.create_inOrder, fun _ hx => nomatch hx⟩
    | append_singleton done ev ih =>
      rintro ⟨rest, hrest⟩ done' hd
      have hsplit : evs = done ++ ev :: rest := by rw [← hrest]; simp
      have hbefore := ih ⟨ev :: rest, hsplit.symm⟩
      rcases List.prefix_concat_iff.1 hd with rfl | hd
      · have hstep := ev.run_kept (Host.after_mirrored fun done' hd => (hbefore done' hd).1)
          (hbefore done (List.prefix_refl _)).1
        have hagrees := (hkept done ev rest hsplit).1
        rw [Host.after_concat]
        exact ⟨Host.inOrder_of_agrees hstep.1 hagrees, Host.readable_of_agrees hstep.1 hagrees⟩
      · exact hbefore done' hd
  · rintro horder done ev rest rfl
    have hbefore : ∀ done', done' <+: done → (Host.create.after L scan done').InOrder scan :=
      fun done' hd => (horder done' (hd.trans (List.prefix_append _ _))).1
    have hm := Host.after_mirrored hbefore
    have hstep := ev.run_kept hm (hbefore done (List.prefix_refl _))
    have hafter := horder (done ++ [ev]) ⟨rest, by simp⟩
    rw [Host.after_concat] at hafter
    exact ⟨Host.agrees_of_inOrder hstep.1 hafter.1 hafter.2, hstep.2⟩

/-! ## A template that outlives its parent -/

/-- Texts that parse to themselves. -/
def plainTexts : Shipped where
  query _ := ⟨"", "", []⟩
  template _ := (⟨"", [], none⟩, "")
  parse source := .ok ([.text source], none)

/-- The rows as the table keeps them. -/
def storedOrder : ScanOrder := ⟨fun l => l, fun l => List.Perm.refl l⟩

/-- An owner's call whose write succeeds. -/
def ownerCall (call : Call) : Event := ⟨⟨"root@localhost", true, []⟩, call, none⟩

/-- `DEFINE TEMPLATE "base"`, then `DEFINE TEMPLATE "card" EXTENDS "base"`. -/
def baseAndCard : List Event :=
  [ownerCall (.defineTemplate "base" "b" none none []),
    ownerCall (.defineTemplate "card" "c" none (some "base") [])]

/-- After `DROP TEMPLATE "base"` the host still shows `card`; a fresh host over
the same file does not. -/
theorem orphan_breaks_agreement :
    ¬ (Host.create.after plainTexts storedOrder baseAndCard).Kept plainTexts storedOrder
      (ownerCall (.dropTemplate "base")) := by
  intro h
  have hsame := (h.1 "card").2
  have hisSome := congrArg Option.isSome hsame
  revert hisSome
  decide

end Deja.Cal
