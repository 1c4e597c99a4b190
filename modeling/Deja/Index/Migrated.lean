import Deja.Index.Coherent
import Deja.Index.Reopened
import Deja.Lib.Prog

/-!
# Bulk imports

A bulk import defers the text index, parses its payload, runs the importer of its
source and rebuilds the index.  What an importer does is a program of store calls;
the laws hold of every importer.

* `rebuildTextIndex_keeps` — a rebuild leaves an index that later writes keep whole.
* `migratePayload_serves_iff` — when an import leaves the index in order.
-/

namespace Deja

open Run

variable {G : Type} {C : Core G} {st : DejaDB}

/-! ## The importers -/

/-- The store calls of an importer. -/
inductive ImportCall (G : Type) where
  | get (hash : Hash)
  | history (ns subject relation : String)
  | add (g : Grain G)
  | supersede (old : Hash) (g : Grain G)
  | forget (hash : Hash)

/-- What a call answers. -/
def ImportCall.Reply : ImportCall G → Type
  | .get _ => DeserializedGrain
  | .history .. => List DejaDB.HistoryEntry
  | .add _ | .supersede .. => Hash
  | .forget _ => Unit

/-- An importer, a program of store calls. -/
abbrev Import (G R : Type) := Prog (ImportCall G) ImportCall.Reply DejaDbError R

/-- The answer of a program, its error among them, and the handle it leaves. -/
def settled {α : Type} (x : StoreM α) (st : DejaDB) : Except DejaDbError α × DejaDB :=
  match x st with
  | .ok a st' => (.ok a, st')
  | .error e st' => (.error e, st')

theorem settled_snd {α : Type} (x : StoreM α) (st : DejaDB) : (settled x st).2 = st.after x := by
  unfold settled DejaDB.after after
  cases x st <;> rfl

/-- The store answers a call. -/
def ImportCall.answer (C : Core G) (c : ImportCall G) (st : DejaDB) :
    Except DejaDbError c.Reply × DejaDB :=
  match c with
  | .get hash => (st.get C hash, st)
  | .history ns s r => (st.history C ns s r, st)
  | .add g => settled (Deja.add C g) st
  | .supersede old g => settled (Deja.supersede C old g) st
  | .forget hash => settled (Deja.forget hash) st

/-- Run an importer; its error is kept for the end. -/
def runImport {R : Type} (C : Core G) (p : Import G R) : StoreM (Except DejaDbError R) := fun st =>
  .ok (p.exec (ImportCall.answer C) st).1 (p.exec (ImportCall.answer C) st).2

/-- The importers: of parsed payloads, or of texts read line by line. -/
structure Importers (G J R : Type) where
  /-- `migrate_mem0`, of an export and of a history -/
  mem0 : String → Option J → Option J → Import G R
  langgraph : String → String → Import G R
  letta : String → J → Import G R
  lettaArchival : String → String → Import G R
  zep : String → J → Import G R
  jsonl : String → String → Import G R

section Migrate

variable {J R : Type} (fromStr : String → Except String J) (I : Importers G J R)

/-- The closure `parse` of `migrate_payload`. -/
def parsePayload (s : String) : Except DejaDbError J :=
  (fromStr s).mapError fun e => .validation ("bad JSON payload: " ++ e)

/-- The match of `migrate_payload` on its source; an error stands for a `?` that
leaves the function. -/
def selectImport (ns source payload : String) (history : Option String) :
    Except DejaDbError (Import G R) :=
  match source with
  | "mem0" => do
    let x ← parsePayload fromStr payload
    let h ← history.mapM (parsePayload fromStr)
    pure (I.mem0 ns (some x) h)
  | "mem0-history" => do
    let h ← parsePayload fromStr payload
    pure (I.mem0 ns none (some h))
  | "langgraph" | "langmem" => pure (I.langgraph ns payload)
  | "letta" => do
    let af ← parsePayload fromStr payload
    pure (I.letta ns af)
  | "letta-archival" => pure (I.lettaArchival ns payload)
  | "zep" | "graphiti" => do
    let v ← parsePayload fromStr payload
    pure (I.zep ns v)
  | "jsonl" => pure (I.jsonl ns payload)
  | other => pure (Prog.fail (.validation ("unknown migrate source '" ++ other ++
      "' — mem0, mem0-history, langgraph, letta, letta-archival, zep, jsonl " ++
      "(basic-memory is CLI-only: deja migrate)")))

/-- `migrate_payload`. -/
def migratePayload (C : Core G) (ns source payload : String) (history : Option String) :
    StoreM R := do
  let deferred ← deferTextIndex
  let p ← lift (selectImport fromStr I ns source payload history)
  let rep ← runImport C p
  if deferred then
    let _ ← rebuildTextIndex C
    lift rep
  else lift rep

/-- The payload, and the history where it is read, parse. -/
def Parses (source payload : String) (history : Option String) : Prop :=
  (source ∈ ["mem0", "mem0-history", "letta", "zep", "graphiti"] → (fromStr payload).isOk) ∧
    (source = "mem0" → ∀ h ∈ history, (fromStr h).isOk)

end Migrate

/-! ## Writes -/

/-- The operations that write grains or erase them, grain by grain. -/
def Op.Edits : Op G → Prop
  | .importBundle .. | .deferTextIndex | .rebuildTextIndex | .setEmbedder _ | .reopen .. => False
  | _ => True

theorem Op.Edits.inline {op : Op G} (h : op.Edits) : op.Inline := by
  cases op <;> first | exact trivial | exact h.elim

/-- A text index in order: nothing is deferred, every text is covered, and later
writes are found with the rest. -/
structure DejaDB.Serves (C : Core G) (st : DejaDB) : Prop where
  inline : st.ftsDeferred = false
  covers : st.db.Covers C
  finds : ∀ ops : List (Op G), (∀ op ∈ ops, op.Edits) → (st.steps C ops).FindsTexts C

/-- **An importer is a run of writes**: what its calls leave behind. -/
theorem import_steps {R : Type} (p : Import G R) (st : DejaDB) :
    ∃ ops : List (Op G), (∀ op ∈ ops, op.Edits) ∧
      (p.exec (ImportCall.answer C) st).2 = st.steps C ops := by
  induction p generalizing st with
  | ret x => exact ⟨[], List.forall_mem_nil _, rfl⟩
  | call c k ih =>
    have hcall : ∃ ops : List (Op G), (∀ op ∈ ops, op.Edits) ∧
        (c.answer C st).2 = st.steps C ops := by
      have hone : ∀ op : Op G, op.Edits → ∀ op' ∈ [op], op'.Edits := fun op hop =>
        List.forall_mem_singleton.2 hop
      have hquiet : ∀ {α : Type} (x : StoreM α), (settled x st).2 = st.after (quiet x) := by
        intro α x
        rw [settled_snd]
        unfold quiet DejaDB.after after
        rw [bind_apply]
        cases x st <;> rfl
      cases c with
      | get hash => exact ⟨[], List.forall_mem_nil _, rfl⟩
      | history ns s r => exact ⟨[], List.forall_mem_nil _, rfl⟩
      | add g => exact ⟨[.add g], hone _ trivial, hquiet _⟩
      | supersede old g => exact ⟨[.supersede old g], hone _ trivial, hquiet _⟩
      | forget hash => exact ⟨[.forget hash], hone _ trivial, settled_snd _ _⟩
    obtain ⟨ops₁, hops₁, h₁⟩ := hcall
    obtain ⟨ops₂, hops₂, h₂⟩ := ih (c.answer C st).1 (c.answer C st).2
    refine ⟨ops₁ ++ ops₂, ?_, ?_⟩
    · intro op hop
      rcases List.mem_append.1 hop with hop | hop
      · exact hops₁ op hop
      · exact hops₂ op hop
    · show ((k (c.answer C st).1).exec (ImportCall.answer C) (c.answer C st).2).2 = _
      rw [h₂, h₁, DejaDB.steps, DejaDB.steps, DejaDB.steps, List.foldl_append]

/-! ## Sequence numbers in use -/

variable {t t' : Tables}

/-- The grains are numbered below `n`. -/
def Tables.Below (n : ℤ) (t : Tables) : Prop := ∀ g ∈ t.grains, g.seq < n

namespace Tables.Below

variable {n : ℤ}

theorem mono {m : ℤ} (h : t.Below n) (hnm : n ≤ m) : t.Below m := fun g hg =>
  (h g hg).trans_le hnm

theorem of_subset (h : t.Below n) (hsub : ∀ g' ∈ t'.grains, ∃ g ∈ t.grains, g.seq = g'.seq) :
    t'.Below n := by
  intro g' hg'
  obtain ⟨g, hg, hseq⟩ := hsub g' hg'
  rw [← hseq]
  exact h g hg

theorem congr (h : t.Below n) (hview : t'.textView = t.textView) : t'.Below n := by
  refine h.of_subset fun g' hg' => ?_
  have hgrains : t'.grains.map (fun g => (g.seq, g.ns, g.blob)) =
      t.grains.map fun g => (g.seq, g.ns, g.blob) := congrArg Prod.fst hview
  have hmem := List.mem_map_of_mem (f := fun g : GrainRow => (g.seq, g.ns, g.blob)) hg'
  rw [hgrains] at hmem
  obtain ⟨g, hg, heq⟩ := List.mem_map.1 hmem
  exact ⟨g, hg, congrArg Prod.fst heq⟩

theorem insert {pr : GrainPrep} (h : t.Below n) (hins : t.Inserts pr n t') : t'.Below (n + 1) := by
  intro g hg
  rw [hins.grains] at hg
  rcases List.mem_append.1 hg with hg | hg
  · exact (h g hg).trans (lt_add_one n)
  · rw [List.mem_singleton.1 hg]
    exact lt_add_one n

theorem insertPrepped {preps : List GrainPrep} {op hlc : ℤ} (h : t.Below n)
    (htxn : t.insertPrepped preps n op hlc = .ok t') : t'.Below (n + preps.length) := by
  induction preps generalizing t n op hlc with
  | nil =>
    cases htxn
    exact h.mono (by simp)
  | cons pr preps ih =>
    obtain ⟨t₁, hone, hrest⟩ := except_bind_ok htxn
    refine (ih (h.insert (Tables.insertPreppedOne_ok hone).1) hrest).mono ?_
    rw [List.length_cons]
    push_cast
    omega

end Tables.Below

/-- A commit numbers its grains from the next number on. -/
theorem Commit.below {ev : Event} {a b : DejaDB} (h : Commit C ev a b)
    (hI : a.db.Below a.nextSeq) : b.db.Below b.nextSeq := by
  cases h with
  | insert prepared txn => exact hI.insertPrepped txn
  | @supersede _ old pr row _ now _ _ _ _ written prepared found txn =>
    obtain ⟨-, t₁, hins, rfl⟩ := Tables.supersedeTxn_ok found txn
    refine (hI.insert (Tables.insertPreppedOne_ok hins).1).congr ?_
    refine ((Tables.retireTip_frame (t₁.flipped row.seq old pr.hash now) row.key
      row.seq).textView).trans ?_
    show (((t₁.markSuperseded row.seq pr.hash now).markSupersedes pr.hash old).clearCur
      row.seq).textView = _
    rw [Tables.textView_clearCur, Tables.textView_markSupersedes, Tables.textView_markSuperseded]
  | merge written prepared tips txn =>
    obtain ⟨t₁, hins, rfl⟩ := Tables.mergeTxn_ok txn
    exact (hI.insert (Tables.insertPreppedOne_ok hins).1).congr (Tables.textView_closeTips _ _ _)
  | @forget _ _ row t len _ found txn =>
    obtain ⟨-, ht⟩ := Tables.forgetTxn_ok found txn
    have hkept : (a.db.deleteSeq row.seq).Below a.nextSeq :=
      hI.of_subset fun g hg => ⟨g, List.mem_of_mem_filter hg, rfl⟩
    have ht' : t.Below a.nextSeq := by
      rw [ht]
      exact hkept.congr (Tables.retireTip_frame _ row.key row.seq).textView
    cases len <;> exact ht'.mono (add_zero _).ge
  | @erase _ _ _ _ t _ txn =>
    obtain ⟨dead, hgrains, -⟩ := Tables.eraseTxn_texts txn
    have ht : t.Below a.nextSeq := hI.of_subset fun g hg => by
      rw [hgrains] at hg
      exact ⟨g, List.mem_of_mem_filter hg, rfl⟩
    exact ht.mono (add_zero _).ge
  | scrub txn =>
    refine hI.congr ?_
    simp only [DejaDB.evicted, DejaDB.dropped]
    rw [(Tables.scrubTerms_ok txn).file]
    rfl
  | insertBlob prepared txn => exact hI.insert (Tables.insertBlobTxn_ok txn).1
  | flip => exact hI.congr (Tables.textView_flipTxn _ _ _)
  | log txn =>
    obtain ⟨rfl, -⟩ := Tables.insertOp_ok txn
    exact (hI.congr rfl).mono (add_zero _).ge
  | @rebuildText _ b _ docs len on inline txn =>
    obtain ⟨grains, rows, c, hgrains, -, hlooks, rfl, -, -⟩ := rebuildTextBody_ok txn
    have hnext : c.nextSeq = a.nextSeq := by rw [hlooks.rest]
    show Tables.Below c.nextSeq _
    rw [hnext]
    refine hI.of_subset fun g (hg : g ∈ grains) => ?_
    rw [mapM_retext hgrains] at hg
    obtain ⟨g₀, hg₀, rfl⟩ := List.mem_map.1 hg
    exact ⟨g₀, hg₀, rfl⟩
  | @reopen _ explicit clock =>
    intro g hg
    have hle : ∀ (l : List ℤ) (m : ℤ), m ≤ l.foldl max m ∧ ∀ x ∈ l, x ≤ l.foldl max m := by
      intro l
      induction l with
      | nil => exact fun m => ⟨le_rfl, List.forall_mem_nil _⟩
      | cons y l ih =>
        intro m
        obtain ⟨h₁, h₂⟩ := ih (max m y)
        exact ⟨(le_max_left m y).trans h₁,
          List.forall_mem_cons.2 ⟨(le_max_right m y).trans h₁, h₂⟩⟩
    exact Int.lt_add_one_of_le ((hle _ 0).2 g.seq (List.mem_map_of_mem hg))
  | defer | undefer | setEmbedder => exact hI

/-- In every reachable state the next sequence number is unused. -/
theorem Reachable.below (h : Reachable C st) : st.db.Below st.nextSeq := by
  obtain ⟨explicit, clock, ops, rfl⟩ := h
  refine (run_keeps (I := fun st => st.db.Below st.nextSeq) (fun a b _ hidle hI => ?_)
    (fun _ _ _ _ _ hcommit hI => hcommit.below hI) ?_ (meets_true _ ops)).2
  · refine (hI.of_subset fun g hg => ⟨g, ?_, rfl⟩).mono hidle.nextSeq
    rw [hidle.file] at hg
    exact hg
  · rw [createStore_eq]
    exact List.forall_mem_nil _

/-! ## After a rebuild -/

/-- **A rebuild leaves an index that writes keep whole.** -/
theorem rebuildTextIndex_keeps (h : Reachable C st) (hon : st.indexText = true) :
    ∃ n st', rebuildTextIndex C st = .ok n st' ∧ st'.db.Covers C ∧
      st'.Keeps C (fun _ => False) st'.nextSeq := by
  obtain ⟨n, st', hrun, hcovers, hon'⟩ := rebuildTextIndex_covers h.good h.textOk hon
  refine ⟨n, st', hrun, hcovers, ?_⟩
  have hstep : st.step C .rebuildTextIndex = st' := after_of_ok (bind_eq_ok.2 ⟨n, st', hrun, rfl⟩)
  have hreach : Reachable C st' := by
    rw [← hstep]
    exact h.steps [.rebuildTextIndex]
  obtain ⟨a, hwarm, hi, htokens⟩ := warmVocab_spec st.db.grains h.good.vocabOk fun g hg =>
    ⟨h.good.decodes g hg, h.textOk.column g hg⟩
  have ha : a.db.grains = st.db.grains := by rw [hi.file]
  have hgood : a.Good C := (Idle.of_interns hi).good h.good
  have htexts : TextOk C (fun _ => True) a.db := by
    refine h.textOk.congr ?_ ?_ ?_ ?_ hi.vocab.subset <;> rw [hi.file]
  unfold rebuildTextIndex at hrun
  obtain ⟨s, s₁, hget, hrest⟩ := bind_eq_ok.1 hrun
  cases hget
  rw [hon] at hrest
  obtain ⟨u, s₂, hwarm', hrest⟩ := bind_eq_ok.1 hrest
  rw [hwarm] at hwarm'
  cases hwarm'
  obtain ⟨u, s₃, hset, hrest⟩ := bind_eq_ok.1 hrest
  cases hset
  obtain ⟨⟨k, docs, len⟩, b, htxn, hend⟩ := bind_eq_ok.1 hrest
  have hbody : rebuildTextBody C { a with ftsDeferred := false } = .ok (k, docs, len) b := by
    unfold atomically at htxn
    cases hout : rebuildTextBody C { a with ftsDeferred := false } with
    | ok out c =>
      rw [hout] at htxn
      exact htxn
    | error e c =>
      rw [hout] at htxn
      cases htxn
  obtain ⟨u, s₄, hset, hend⟩ := bind_eq_ok.1 hend
  cases hset
  cases hend
  have hbelow : a.db.Below a.nextSeq := by
    refine (h.below.of_subset fun g hg => ⟨g, ?_, rfl⟩).mono (Idle.of_interns hi).nextSeq
    rw [← ha]
    exact hg
  have hundefer : Commit C .undefer a { a with ftsDeferred := false } := .undefer
  have hindex := rebuildTextBody_keeps (a := { a with ftsDeferred := false }) htexts
    (hundefer.good hgood) hbelow
    (fun g hg => htokens g (by rw [← ha]; exact hg)) hbody
  obtain ⟨grains, rows, c, -, -, hlooks, rfl, -, -⟩ := rebuildTextBody_ok hbody
  have hnext : c.nextSeq = a.nextSeq := by rw [hlooks.rest]
  refine ⟨⟨hreach.textOk, fun _ _ => trivial⟩, hon', ?_, le_rfl, ?_⟩
  · show c.ftsDeferred = false
    rw [hlooks.rest]
  · show Tables.KeepsIndex C _ c.nextSeq (docs, len) _
    rw [hnext]
    exact hindex

theorem DejaDB.Keeps.finds {n : ℤ} (h : st.Keeps C (fun _ => False) n) : st.FindsTexts C := by
  refine finds_of_covers h.texts.texts h.on fun g hg s hs token htoken => ?_
  rcases h.index.rowed g hg with hexact | ⟨hfalse, -⟩
  · obtain ⟨word, hword, rfl⟩ := mem_tokenFreqs.1 htoken
    rw [← wordsOf_of_text hs] at hword
    obtain ⟨x, hx, hspells⟩ := forall₂_exists_right hexact.posts word hword
    obtain ⟨hx, hxs⟩ := List.mem_filter.1 hx
    refine ⟨⟨x, hx, of_decide_eq_true hxs, hspells.2.1, hspells.1⟩, ?_⟩
    have hne : (wordsOf C g.blob).1.isEmpty = false := by
      rw [List.isEmpty_eq_false_iff_exists_mem]
      exact ⟨word, hword⟩
    have hdoc : (⟨g.seq, (wordsOf C g.blob).2⟩ : DocRow) ∈ st.db.docsAt g.seq := by
      rw [hexact.docs, docRows, hne]
      exact List.mem_singleton_self _
    exact ⟨_, (List.mem_filter.1 hdoc).1, rfl⟩
  · exact hfalse.elim

/-- Writes import no bundle. -/
theorem importedSince_writes {ops : List (Op G)} (h : ∀ op ∈ ops, op.Edits) (st : DejaDB) :
    importedSince C st ops [] = [] := by
  induction ops generalizing st with
  | nil => rfl
  | cons op ops ih =>
    rw [List.forall_mem_cons] at h
    unfold importedSince
    cases op with
    | importBundle | deferTextIndex | rebuildTextIndex | setEmbedder | reopen => exact h.1.elim
    | add | addBatch | addIfNovel | supersede | mergeHeads | forget | forgetSubject
    | forgetOlderThan => exact ih h.2 _

/-- An index whose every grain is indexed exactly serves. -/
theorem DejaDB.Keeps.serves {n : ℤ} (h : st.Keeps C (fun _ => False) n) (hgood : st.Good C)
    (hcovers : st.db.Covers C) : st.Serves C := by
  refine ⟨h.inline, hcovers, fun ops hops => ?_⟩
  have hrun : (st.steps C ops).Keeps C (· ∈ importedSince C st ops []) n :=
    (h.mono (fun _ hs => hs.elim) h.floor).steps hgood fun op hop => (hops op hop).inline
  rw [importedSince_writes hops] at hrun
  exact DejaDB.Keeps.finds (hrun.mono (fun _ hs => nomatch hs) hrun.floor)

/-! ## A bulk import -/

section Migrate

variable {J R : Type} {fromStr : String → Except String J} {I : Importers G J R}
  {ns source payload : String} {history : Option String}

/-- The commits of writes. -/
def Event.Edits : Event → Prop
  | .insert _ | .supersede .. | .merge .. | .forget _ | .erase _ | .scrub => True
  | _ => False

theorem Op.Edits.meets {op : Op G} (h : op.Edits) (st : DejaDB) :
    op.Meets C (fun ev _ => ev.Edits) st := by
  have happend : ∀ x ∈ op.commits C st, op.Appends → x.1.Edits := by
    intro x hx hop
    have hev : x.1.Appends := hop.meets st x hx
    revert hev
    cases x.1 <;> first | exact fun _ => trivial | exact fun hev => hev.elim
  intro x hx
  cases op with
  | add | addBatch | addIfNovel | supersede | mergeHeads => exact happend x hx trivial
  | forget hash =>
    rw [List.mem_singleton.1 hx]
    trivial
  | forgetSubject | forgetOlderThan =>
    rcases Op.bulk_commits hx trivial with hev | ⟨seqs, hev⟩ <;>
    · rw [hev]
      trivial
  | importBundle | deferTextIndex | rebuildTextIndex | setEmbedder | reopen => exact h.elim

/-- The two flags of the text index. -/
def DejaDB.flags (st : DejaDB) : Bool × Bool := (st.ftsDeferred, st.indexText)

theorem Commit.flags {ev : Event} {a b : DejaDB} (h : Commit C ev a b) (hev : ev.Edits) :
    b.flags = a.flags := by
  cases h with
  | insert | supersede | merge | erase | scrub => rfl
  | @forget _ _ _ _ len _ found txn => cases len <;> rfl
  | insertBlob | flip | log | defer | undefer | rebuildText | setEmbedder | reopen =>
    exact hev.elim

/-- **Writes leave the deferral as it is**, and text indexing too. -/
theorem steps_flags {ops : List (Op G)} (hgood : st.Good C) (hops : ∀ op ∈ ops, op.Edits) :
    (st.steps C ops).flags = st.flags := by
  induction ops generalizing st with
  | nil => rfl
  | cons op ops ih =>
    rw [List.forall_mem_cons] at hops
    obtain ⟨hgood', hflags⟩ := (op.path hgood.toSound (hops.1.meets st)).keeps_good
      (I := fun a => a.flags = st.flags)
      (fun a b _ hidle hI => by
        have hrest : b.flags = a.flags := by rw [hidle.rest]; rfl
        exact hrest.trans hI)
      (fun ev a b _ hΓ hcommit hI => (hcommit.flags hΓ).trans hI) hgood rfl
    exact (ih hgood' hops.2).trans hflags

/-- The `?` operators let an import through exactly when its payload parses. -/
theorem selectImport_isOk_iff :
    (selectImport fromStr I ns source payload history).isOk = true ↔
      Parses fromStr source payload history := by
  have hparse : ∀ {α : Type} (s : String) (f : J → Except DejaDbError α),
      (parsePayload fromStr s >>= f).isOk = true ↔ ∃ x, fromStr s = .ok x ∧ (f x).isOk = true := by
    intro α s f
    unfold parsePayload
    cases fromStr s with
    | error e => simp [Except.mapError, Except.isOk, Except.toBool, bind, Except.bind]
    | ok x => simp [Except.mapError, bind, Except.bind]
  have hok : ∀ s, (∃ x, fromStr s = .ok x) ↔ (fromStr s).isOk = true := by
    intro s
    cases fromStr s <;> simp [Except.isOk, Except.toBool]
  have hmap : ∀ {α : Type} (s : String) (f : J → α),
      (f <$> parsePayload fromStr s).isOk = (fromStr s).isOk := by
    intro α s f
    unfold parsePayload
    cases fromStr s <;> rfl
  have hpure : ∀ {α : Type} (x : α), (pure x : Except DejaDbError α).isOk = true := fun _ => rfl
  unfold selectImport Parses
  split
  · cases history with
    | none => simp [hmap]
    | some h => simp [hparse, hmap, hok]
  all_goals simp_all

/-- The handle with its text index deferred. -/
def DejaDB.deferring (st : DejaDB) : DejaDB := { st with ftsDeferred := true }

theorem deferTextIndex_apply (hon : st.indexText = true) :
    deferTextIndex st = .ok (!st.ftsDeferred) st.deferring := by
  unfold deferTextIndex
  rw [bind_apply, get_apply]
  simp only
  cases hdeferred : st.ftsDeferred with
  | true =>
    have hsame : st.deferring = st := by
      unfold DejaDB.deferring
      rw [← hdeferred]
    rw [if_pos (.inr rfl), hsame]
    rfl
  | false =>
    rw [if_neg (by simp [hon])]
    rfl

/-- The handle an import leaves: a `?` that leaves the function leaves the deferral
behind it. -/
theorem migratePayload_after (hon : st.indexText = true) :
    st.after (migratePayload fromStr I C ns source payload history) =
      match selectImport fromStr I ns source payload history with
      | .error _ => st.deferring
      | .ok p =>
        if st.ftsDeferred then (p.exec (ImportCall.answer C) st.deferring).2
        else (p.exec (ImportCall.answer C) st.deferring).2.after (rebuildTextIndex C) := by
  have hlift : ∀ (x : Except DejaDbError R) (s : DejaDB), after (lift x) s = s := by
    intro x s
    cases x <;> rfl
  unfold DejaDB.after after migratePayload
  rw [bind_apply, deferTextIndex_apply hon]
  simp only
  cases selectImport fromStr I ns source payload history with
  | error e => rfl
  | ok p =>
    simp only [lift, bind_apply, pure_apply, runImport]
    cases st.ftsDeferred with
    | true => exact hlift _ _
    | false =>
      simp only [Bool.not_false, if_true, bind_apply, Bool.false_eq_true, if_false]
      cases rebuildTextIndex C (p.exec (ImportCall.answer C) st.deferring).2 with
      | error e s => rfl
      | ok n s => exact hlift _ s

/-- **When an import leaves the index in order**: when nothing was deferred before
it, and the payload, and the history where it is read, parse. -/
theorem migratePayload_serves_iff (h : Reachable C st) (hon : st.indexText = true) :
    (st.after (migratePayload fromStr I C ns source payload history)).Serves C ↔
      st.ftsDeferred = false ∧ Parses fromStr source payload history := by
  have hdefer : st.step C .deferTextIndex = st.deferring :=
    after_of_ok (bind_eq_ok.2 ⟨_, _, deferTextIndex_apply hon, rfl⟩)
  have hreach : Reachable C st.deferring := by
    rw [← hdefer]
    exact h.steps [.deferTextIndex]
  have hparses : (selectImport fromStr I ns source payload history).isOk = true ↔
      Parses fromStr source payload history := selectImport_isOk_iff
  rw [migratePayload_after hon, ← hparses]
  cases selectImport fromStr I ns source payload history with
  | error e =>
    -- the deferral stays
    constructor
    · intro hserves
      cases hserves.inline
    · rintro ⟨-, hok⟩
      cases hok
  | ok p =>
    obtain ⟨ops, hops, hsteps⟩ := import_steps (C := C) p st.deferring
    have hflags := steps_flags hreach.good hops
    simp only [hsteps]
    cases hdeferred : st.ftsDeferred with
    | true =>
      refine ⟨fun hserves => ?_, fun hfalse => nomatch hfalse.1⟩
      have hkept : (st.deferring.steps C ops).ftsDeferred = true := congrArg Prod.fst hflags
      rw [if_pos rfl] at hserves
      rw [hserves.inline] at hkept
      cases hkept
    | false =>
      refine iff_of_true ?_ ⟨rfl, rfl⟩
      have hon' : (st.deferring.steps C ops).indexText = true :=
        (congrArg Prod.snd hflags).trans hon
      obtain ⟨n, st', hrun, hcovers, hkeeps⟩ := rebuildTextIndex_keeps (hreach.steps ops) hon'
      have hreach' : Reachable C st' := by
        have hstep : (st.deferring.steps C ops).step C .rebuildTextIndex = st' :=
          after_of_ok (bind_eq_ok.2 ⟨n, st', hrun, rfl⟩)
        rw [← hstep]
        exact (hreach.steps ops).steps [.rebuildTextIndex]
      rw [if_neg (by decide), DejaDB.after, after_of_ok hrun]
      exact hkeeps.serves hreach'.good hcovers

end Migrate

/-- A reader of the two payloads used here. -/
def sampleFromStr (s : String) : Except String Unit :=
  if s = "null" then .ok () else .error "expected ident at line 1 column 2"

/-- An importer of texts adds one grain, one of objects adds none. -/
def sampleImporters : Importers SampleBody Unit Unit where
  mem0 _ _ _ := .ret (.ok ())
  langgraph _ _ := .call (.add (sampleFact 1 5 1 2 3)) fun r => .ret (r.map fun _ => ())
  letta _ _ := .ret (.ok ())
  lettaArchival _ _ := .call (.add (sampleFact 1 5 1 2 3)) fun r => .ret (r.map fun _ => ())
  zep _ _ := .ret (.ok ())
  jsonl _ _ := .call (.add (sampleFact 1 5 1 2 3)) fun r => .ret (r.map fun _ => ())

/-- The handle after an import of a text. -/
theorem migratePayload_serves_text : (sampleStore.after (migratePayload sampleFromStr
    sampleImporters sampleCore "shared" "langgraph" "one line" none)).Serves sampleCore :=
  (migratePayload_serves_iff sampleStore_reachable rfl).2
    ⟨rfl, fun h => absurd h (by decide), fun h => absurd h (by decide)⟩

/-- A payload that does not parse leaves the deferral behind. -/
theorem bad_payload_leaves_deferral : ¬ ∀ (st : DejaDB) (source payload : String)
    (history : Option String), Reachable sampleCore st → st.indexText = true →
      (st.after (migratePayload sampleFromStr sampleImporters sampleCore "shared" source payload
        history)).Serves sampleCore := by
  intro h
  have hserves := h sampleStore "letta" "not json" none sampleStore_reachable rfl
  rw [migratePayload_after rfl] at hserves
  cases hserves.inline

end Deja
