import Deja.Clock.Hlc
import Deja.Import.Idempotent
import Deja.Lib.Journal

/-!
# The op-log as a journal

Every transaction of the store appends its ops in the transaction that moves the
grains.  So the op-log is a journal of the grain table: an `ADD` and a
`SUPERSEDE` put a grain under its address, a `FORGET` drops it, and nothing else
adds or removes a grain.  `Commit.records` says so of one transaction, and two
results follow for every reachable store:

* an address is stored exactly when its last op is not a `FORGET`
  (`hasGrain_iff_lastOp`);
* the op-log only grows, in the order of its op numbers, and whatever is written
  after an export gets a number past the cursor it returned
  (`changesSince_lastOpSeq`).
-/

namespace Deja

open Run Journal

variable {G : Type} {C : Core G}

/-! ## What is stored, and what the op-log says of it -/

/-- The bytes stored under an address. -/
def Tables.contents (t : Tables) (h : Hash) : Option Bytes := (t.grainByHash h).map GrainRow.blob

/-- The address of an op and whether it leaves a grain there. -/
def OpRow.mark (r : OpRow) : Hash × Bool := (r.hash, r.op ≠ .forget)

/-- The same of a change. -/
def changeMark (c : Change Hash Bytes) : Hash × Bool := (c.key, c.keeps)

/-- The ops are numbered in order, from 1 on and below `n`. -/
def Numbered (n : ℤ) (log : List OpRow) : Prop :=
  (log.map OpRow.opSeq).Pairwise (· < ·) ∧ ∀ r ∈ log, 1 ≤ r.opSeq ∧ r.opSeq < n

/-- `t'` is `t` after the changes `cs`, its op-log longer by their ops; `n` and
`m` are the next op numbers before and after. -/
structure Records (n : ℤ) (t : Tables) (cs : List (Change Hash Bytes)) (m : ℤ) (t' : Tables) :
    Prop where
  log : ∃ new, t'.oplog = t.oplog ++ new ∧ new.map OpRow.mark = cs.map changeMark
  contents : t'.contents = replay cs t.contents
  le : n ≤ m
  numbered : Numbered n t.oplog → Numbered m t'.oplog

theorem Numbered.mono {n m : ℤ} {log : List OpRow} (h : Numbered n log) (hle : n ≤ m) :
    Numbered m log :=
  ⟨h.1, fun r hr => ⟨(h.2 r hr).1, (h.2 r hr).2.trans_le hle⟩⟩

theorem Numbered.push {n : ℤ} {log : List OpRow} (h : Numbered n log) (hn : 1 ≤ n) (hlc : ℤ)
    (op : OpKind) (hash : Hash) : Numbered (n + 1) (log ++ [⟨n, hlc, op, hash⟩]) := by
  refine ⟨?_, fun r hr => ?_⟩
  · rw [List.map_append, List.pairwise_append]
    refine ⟨h.1, List.pairwise_singleton _ _, fun x hx y hy => ?_⟩
    obtain ⟨r, hr, rfl⟩ := List.mem_map.1 hx
    rw [List.map_singleton, List.mem_singleton] at hy
    rw [hy]
    exact (h.2 r hr).2
  · rcases List.mem_append.1 hr with hr | hr
    · have hr := h.2 r hr
      omega
    · rw [List.mem_singleton.1 hr]
      simp only
      omega

/-! ## The changes of a transaction -/

namespace Records

variable {n m k : ℤ} {t t' t'' : Tables} {cs ds : List (Change Hash Bytes)}

theorem trans (h : Records n t cs m t') (h' : Records m t' ds k t'') :
    Records n t (cs ++ ds) k t'' where
  log := by
    obtain ⟨new, hlog, hmark⟩ := h.log
    obtain ⟨new', hlog', hmark'⟩ := h'.log
    exact ⟨new ++ new', by rw [hlog', hlog, List.append_assoc],
      by rw [List.map_append, List.map_append, hmark, hmark']⟩
  contents := by rw [h'.contents, h.contents, replay_append]
  le := h.le.trans h'.le
  numbered hn := h'.numbered (h.numbered hn)

/-- A transaction that touches neither. -/
theorem same (hlog : t'.oplog = t.oplog) (hcontents : t'.contents = t.contents) (hle : n ≤ m) :
    Records n t [] m t' where
  log := ⟨[], by rw [hlog, List.append_nil], rfl⟩
  contents := hcontents
  le := hle
  numbered hn := by
    rw [hlog]
    exact hn.mono hle

theorem refl (n : ℤ) (t : Tables) : Records n t [] n t := same rfl rfl (le_refl n)

end Records

theorem Tables.contents_congr {t t' : Tables}
    (h : t'.grains.map (fun g => (g.hash, g.blob)) = t.grains.map fun g => (g.hash, g.blob)) :
    t'.contents = t.contents := by
  have hfind : ∀ (gs : List GrainRow) (x : Hash), (gs.find? fun g => g.hash = x).map GrainRow.blob =
      ((gs.map fun g => (g.hash, g.blob)).find? fun y => y.1 = x).map Prod.snd := by
    intro gs x
    rw [List.find?_map, Option.map_map]
    rfl
  funext x
  rw [contents, contents, grainByHash, grainByHash, hfind, hfind, h]

theorem Tables.contents_of_map {t t' : Tables} {f : GrainRow → GrainRow}
    (h : t'.grains = t.grains.map f) (hf : ∀ g, (f g).hash = g.hash ∧ (f g).blob = g.blob) :
    t'.contents = t.contents := by
  refine contents_congr ?_
  rw [h, List.map_map]
  refine List.map_congr_left fun g _ => ?_
  rw [Function.comp_apply, (hf g).1, (hf g).2]

theorem Tables.contents_of_eq {t t' : Tables} (h : t'.grains = t.grains) :
    t'.contents = t.contents :=
  contents_congr (by rw [h])

/-- A grain inserted under a free address. -/
theorem Tables.Inserts.contents {t t' : Tables} {pr : GrainPrep} {seq : ℤ}
    (h : t.Inserts pr seq t') : t'.contents = (Change.put pr.hash pr.blob).on t.contents := by
  have hfree : t.contents pr.hash = none := by rw [Tables.contents, h.freshHash, Option.map_none]
  funext x
  rw [Tables.contents, Tables.grainByHash, h.grains, List.find?_append]
  by_cases hx : x = pr.hash
  · subst hx
    have hnone : (t.grains.find? fun g => g.hash = pr.hash) = none := h.freshHash
    rw [Change.on, Function.update_self, hfree, hnone]
    simp [GrainPrep.grainRow]
  · have hrow : ([pr.grainRow seq].find? fun g => g.hash = x) = none := by
      simp [GrainPrep.grainRow, Ne.symm hx]
    rw [Change.on, Function.update_of_ne hx, hrow, Option.or_none]
    rfl

/-- A selection erased: its addresses are empty, the others as before. -/
theorem Tables.contents_of_erase {t t' : Tables} {L : GrainPrep → Prop} (hrows : t.rows.Ok L)
    {keep : GrainRow → Bool} {ks : List Hash} (h : t'.grains = t.grains.filter keep)
    (hks : ∀ x, x ∈ ks ↔ ∃ g ∈ t.grains, keep g = false ∧ g.hash = x) :
    t'.contents = replay (ks.map Change.drop) t.contents := by
  funext x
  rw [replay_drops, contents, contents, grainByHash, grainByHash, h, List.find?_filter]
  split_ifs with hx
  · obtain ⟨g, hg, hgone, rfl⟩ := (hks x).1 hx
    rw [List.find?_eq_none.2 fun g' hg' heq => ?_, Option.map_none]
    simp only [decide_eq_true_eq] at heq
    have hsame : g' = g := hrows.eq_of_hash hg' hg heq.2
    rw [hsame, hgone] at heq
    cases heq.1
  · congr 1
    refine List.find?_congr fun g hg => ?_
    by_cases hhash : g.hash = x
    · have hkept : keep g = true := by
        by_contra hno
        exact hx ((hks x).2 ⟨g, hg, by simpa using hno, hhash⟩)
      simp [hkept, hhash]
    · simp [hhash]

/-- An op that leaves a grain where it puts one. -/
theorem Records.put {n : ℤ} {t t' : Tables} {hlc : ℤ} {op : OpKind} {h : Hash} {v : Bytes}
    (hn : 1 ≤ n) (hop : op ≠ .forget) (hlog : t'.oplog = t.oplog ++ [⟨n, hlc, op, h⟩])
    (hcontents : t'.contents = (Change.put h v).on t.contents) :
    Records n t [.put h v] (n + 1) t' where
  log := ⟨_, hlog, by simp [OpRow.mark, changeMark, Change.key, Change.keeps, hop]⟩
  contents := hcontents
  le := by omega
  numbered hnum := by
    rw [hlog]
    exact hnum.push hn hlc op h

/-- A grain inserted and logged, then the closing op that names it. -/
theorem Records.close {n : ℤ} {t t₁ t' : Tables} {pr : GrainPrep} {seq hlc hlcClose : ℤ}
    (hn : 1 ≤ n) (hins : t.insertPreppedOne pr seq n hlc = .ok t₁)
    (hlog : t'.oplog = t₁.oplog ++ [⟨n + 1, hlcClose, .supersede, pr.hash⟩])
    (hcontents : t'.contents = t₁.contents) :
    Records n t [.put pr.hash pr.blob, .put pr.hash pr.blob] (n + 2) t' := by
  obtain ⟨hins, -, -, -, -, hadd, -⟩ := Tables.insertPreppedOne_ok hins
  have hfirst : Records n t [.put pr.hash pr.blob] (n + 1) t₁ :=
    .put hn (by decide) hadd hins.contents
  have hstored : t₁.contents pr.hash = some ((t.contents pr.hash).getD pr.blob) := by
    rw [hins.contents, Change.on, Function.update_self]
    cases t.contents pr.hash <;> rfl
  have hclose : Records (n + 1) t₁ [.put pr.hash pr.blob] (n + 1 + 1) t' :=
    .put (by omega) (by decide) hlog (by rw [hcontents, Change.on_put_of_some hstored])
  rw [add_assoc] at hclose
  exact hfirst.trans hclose

/-- A list of tombstones. -/
theorem numbered_tombstones (targets : List GrainRow) {log : List OpRow} {n : ℤ} (hlc : ℤ)
    (hn : 1 ≤ n) (h : Numbered n log) :
    Numbered (n + targets.length) (log ++ Tables.tombstones targets n hlc) := by
  induction targets generalizing log n hlc with
  | nil => simpa [Tables.tombstones] using h
  | cons g gs ih =>
    have hrest := ih (hlc + 1) (by omega) (h.push hn hlc .forget g.hash)
    rw [List.append_assoc] at hrest
    rw [List.length_cons]
    push_cast
    rw [← add_assoc, add_right_comm]
    exact hrest

theorem map_mark_tombstones (targets : List GrainRow) (n hlc : ℤ) :
    (Tables.tombstones targets n hlc).map OpRow.mark =
      ((targets.map GrainRow.hash).map Change.drop).map changeMark := by
  induction targets generalizing n hlc with
  | nil => rfl
  | cons g gs ih =>
    rw [Tables.tombstones, List.map_cons, ih]
    rfl

theorem Tables.insertPrepped_records {preps : List GrainPrep} {t t' : Tables} {seq op hlc : ℤ}
    (hop : 1 ≤ op) (h : t.insertPrepped preps seq op hlc = .ok t') :
    Records op t (preps.map fun pr => .put pr.hash pr.blob) (op + preps.length) t' := by
  induction preps generalizing t seq op hlc with
  | nil =>
    cases h
    simpa using Records.refl op _
  | cons pr preps ih =>
    obtain ⟨t₁, hone, hrest⟩ := except_bind_ok h
    obtain ⟨hins, -, -, -, -, hlog, -⟩ := insertPreppedOne_ok hone
    have hfirst : Records op t [.put pr.hash pr.blob] (op + 1) t₁ :=
      .put hop (by decide) hlog hins.contents
    rw [List.length_cons]
    push_cast
    rw [← add_assoc, add_right_comm]
    exact hfirst.trans (ih (by omega) hrest)

theorem Tables.flipped_contents (t : Tables) (seq : ℤ) (old new : Hash) (now : ℤ) :
    (t.flipped seq old new now).contents = t.contents := by
  have hmark : (t.markSuperseded seq new now).contents = t.contents := by
    refine contents_of_map rfl fun g => ?_
    split_ifs <;> exact ⟨rfl, rfl⟩
  rw [← hmark]
  refine contents_of_map
    (f := fun g => if g.hash = new then { g with supersedes := some old } else g) rfl fun g => ?_
  split_ifs <;> exact ⟨rfl, rfl⟩

theorem Tables.closeTips_contents (tips : List Hash) (merge : Hash) (now : ℤ) (t : Tables) :
    (tips.foldl (fun t tip => t.closeTip tip merge now) t).contents = t.contents := by
  induction tips generalizing t with
  | nil => rfl
  | cons tip tips ih =>
    rw [List.foldl_cons, ih]
    unfold closeTip
    cases t.grainByHash tip with
    | none => rfl
    | some g =>
      simp only
      split_ifs
      · refine contents_of_map (f := fun x => if x.seq = g.seq then
          { x with supersededBy := some merge, svt := some now } else x) rfl fun x => ?_
        split_ifs <;> exact ⟨rfl, rfl⟩
      · rfl

theorem Tables.flipTxn_contents (t : Tables) (old new : Hash) (now : ℤ) :
    (t.flipTxn old new now).2.contents = t.contents := by
  unfold flipTxn
  cases t.grainByHash old with
  | none => rfl
  | some row =>
    simp only
    split_ifs
    · rfl
    · exact contents_of_eq (registerFork_frame t new).grains
    · rw [← t.flipped_contents row.seq old new now]
      refine contents_of_eq ?_
      unfold flipLinear flipped
      cases row.key <;> rfl

/-- A forget drops its grain and no other. -/
theorem Tables.forgetTxn_contents {t t' : Tables} {L : GrainPrep → Prop} (hrows : t.rows.Ok L)
    {hash : Hash} {row : GrainRow} {op hlc : ℤ} {len : Option ℤ}
    (found : t.grainByHash hash = some row)
    (h : t.forgetTxn hash row.key op hlc = .ok (len, t')) :
    t'.contents = (Change.drop hash).on t.contents := by
  obtain ⟨-, rfl⟩ := forgetTxn_ok found h
  obtain ⟨hmem, hhash⟩ := grainByHash_some found
  have hkey : ∀ x, x ∈ [hash] ↔
      ∃ g ∈ t.grains, decide (g.seq ≠ row.seq) = false ∧ g.hash = x := by
    intro x
    rw [List.mem_singleton, ← hhash]
    constructor
    · rintro rfl
      exact ⟨row, hmem, by simp, rfl⟩
    · rintro ⟨g, hg, hseq, rfl⟩
      rw [hrows.eq_of_seq hg hmem (by simpa using hseq)]
  exact contents_of_erase hrows (retireTip_frame (t.deleteSeq row.seq) row.key row.seq).grains hkey

/-! ## One commit -/

/-- What the log events of a replay meet: a closing op is written for a stored
grain, and no grain comes in under a tombstone. -/
def Logged (ev : Event) (a : DejaDB) : Prop :=
  match ev with
  | .insertBlob op _ => op ≠ .forget
  | .log hash _ => (a.db.contents hash).isSome
  | _ => True

theorem Tables.contents_isSome {t : Tables} {h : Hash} :
    (t.contents h).isSome ↔ t.hasGrain h = true := by
  rw [contents, Option.isSome_map, hasGrain_eq_isSome]

/-- **One commit.**  What it changes of the grain table it logs, in order. -/
theorem Commit.records {L : GrainPrep → Prop} {ev : Event} {a b : DejaDB} (h : Commit C ev a b)
    (hrows : a.db.rows.Ok L) (hlogged : Logged ev a) (hop : 1 ≤ a.nextOp) :
    (∃ cs, Records a.nextOp a.db cs b.nextOp b.db) ∨ ∃ explicit, ev = .reopen explicit := by
  cases h with
  | insert prepared txn => exact .inl ⟨_, Tables.insertPrepped_records hop txn⟩
  | @supersede _ old pr row _ now _ _ _ _ written prepared found txn =>
    obtain ⟨-, t₁, hins, rfl⟩ := Tables.supersedeTxn_ok found txn
    have hframe := Tables.retireTip_frame (t₁.flipped row.seq old pr.hash now) row.key row.seq
    refine .inl ⟨_, .close hop hins rfl ?_⟩
    rw [← t₁.flipped_contents row.seq old pr.hash now]
    exact Tables.contents_of_eq hframe.grains
  | merge written prepared tips txn =>
    obtain ⟨t₁, hins, rfl⟩ := Tables.mergeTxn_ok txn
    exact .inl ⟨_, .close hop hins rfl (Tables.closeTips_contents _ _ _ t₁)⟩
  | @forget _ hash row _ len _ found txn =>
    have hcontents := Tables.forgetTxn_contents hrows found txn
    obtain ⟨-, rfl⟩ := Tables.forgetTxn_ok found txn
    have hrec : Records a.nextOp a.db [.drop hash] (a.nextOp + 1)
        { (a.db.deleteSeq row.seq).retireTip row.key row.seq with
          oplog := a.db.oplog ++ [⟨a.nextOp, a.nextHlcValue, .forget, hash⟩] } :=
      ⟨⟨_, rfl, rfl⟩, hcontents, by omega, fun hnum => hnum.push hop _ _ _⟩
    cases len <;> exact .inl ⟨_, hrec⟩
  | @erase _ seqs ids out t _ txn =>
    have hlog := Tables.eraseTxn_oplog txn
    have hlen : ((a.db.grains.filter fun g => g.seq ∈ seqs).length : ℤ) ≤ seqs.length := by
      exact_mod_cast hrows.length_filter_le seqs
    have hgrains : t.grains = a.db.grains.filter fun g =>
        g.seq ∉ (a.db.grains.filter fun g => g.seq ∈ seqs).map GrainRow.seq := by
      obtain ⟨t₁, t₂, htargets, rfl, hscrub, -⟩ := Tables.eraseTxn_ok txn
      rw [hscrub.file]
      exact (Tables.reconcile_frame t₁ seqs _).grains.trans
        (Tables.eraseTargets_ok htargets).1.grains
    have hkeys : ∀ x, x ∈ (a.db.grains.filter fun g => g.seq ∈ seqs).map GrainRow.hash ↔
        ∃ g ∈ a.db.grains, decide (g.seq ∉ (a.db.grains.filter fun g =>
          g.seq ∈ seqs).map GrainRow.seq) = false ∧ g.hash = x := by
      intro x
      rw [List.mem_map]
      constructor
      · rintro ⟨g, hg, rfl⟩
        exact ⟨g, List.mem_of_mem_filter hg,
          decide_eq_false (not_not.2 (List.mem_map_of_mem hg)), rfl⟩
      · rintro ⟨g, hg, hgone, rfl⟩
        obtain ⟨g', hg', hseq⟩ := List.mem_map.1 (not_not.1 (of_decide_eq_false hgone))
        exact ⟨g', hg', by rw [hrows.eq_of_seq (List.mem_of_mem_filter hg') hg hseq]⟩
    refine .inl ⟨_, ⟨_, hlog, map_mark_tombstones _ _ _⟩,
      Tables.contents_of_erase hrows hgrains hkeys, by show _ ≤ a.nextOp + _; omega, fun hnum => ?_⟩
    have hnum' := numbered_tombstones (a.db.grains.filter fun g => g.seq ∈ seqs) a.nextHlcValue
      hop hnum
    rw [← hlog] at hnum'
    exact hnum'.mono (by show _ ≤ a.nextOp + _; omega)
  | @scrub _ _ _ t txn =>
    have hfile := (Tables.scrubTerms_ok txn).file
    exact .inl ⟨[], .same (by show t.oplog = _; rw [hfile])
      (Tables.contents_of_eq (by show t.grains = _; rw [hfile])) (le_refl _)⟩
  | insertBlob prepared txn =>
    obtain ⟨hins, -, -, -, -, hlog, -⟩ := Tables.insertBlobTxn_ok txn
    exact .inl ⟨_, .put hop hlogged hlog hins.contents⟩
  | @flip _ old new now tick =>
    exact .inl ⟨[], .same (a.db.flipTxn_oplog old new now) (a.db.flipTxn_contents old new now)
      (le_refl _)⟩
  | log txn =>
    obtain ⟨rfl, -⟩ := Tables.insertOp_ok txn
    obtain ⟨v, hv⟩ := Option.isSome_iff_exists.1 hlogged
    exact .inl ⟨_, .put (v := v) hop (by decide) rfl (Change.on_put_of_some hv).symm⟩
  | defer on => exact .inl ⟨[], .refl _ _⟩
  | undefer => exact .inl ⟨[], .refl _ _⟩
  | rebuildText on inline txn =>
    obtain ⟨grains, rows, c, hmap, -, hlooks, rfl, -, -⟩ := rebuildTextBody_ok txn
    have hlog : c.db.oplog = a.db.oplog := by rw [hlooks.rest]
    have hnext : c.nextOp = a.nextOp := by rw [hlooks.rest]
    exact .inl ⟨[], .same hlog (Tables.contents_of_map (mapM_retext hmap) fun g => ⟨rfl, rfl⟩)
      hnext.ge⟩
  | setEmbedder => exact .inl ⟨[], .refl _ _⟩
  | reopen => exact .inr ⟨_, rfl⟩

/-! ## Along a run -/

/-- The op-log is numbered, and the next number is free. -/
structure DejaDB.LogOk (st : DejaDB) : Prop where
  numbered : Numbered st.nextOp st.db.oplog
  pos : 1 ≤ st.nextOp

/-- `b` is `a` some changes later, all of them logged. -/
def Follows (a b : DejaDB) : Prop :=
  ∃ cs new, b.db.oplog = a.db.oplog ++ new ∧ new.map OpRow.mark = cs.map changeMark ∧
    b.db.contents = replay cs a.db.contents

theorem Follows.refl (a : DejaDB) : Follows a a := ⟨[], [], (List.append_nil _).symm, rfl, rfl⟩

theorem Follows.trans {a b c : DejaDB} (hab : Follows a b) (hbc : Follows b c) : Follows a c := by
  obtain ⟨cs, new, hlog, hmark, hcontents⟩ := hab
  obtain ⟨ds, new', hlog', hmark', hcontents'⟩ := hbc
  exact ⟨cs ++ ds, new ++ new', by rw [hlog', hlog, List.append_assoc],
    by rw [List.map_append, List.map_append, hmark, hmark'],
    by rw [hcontents', hcontents, replay_append]⟩

theorem Idle.follows {a b : DejaDB} (h : Idle a b) (hok : a.LogOk) : b.LogOk ∧ Follows a b := by
  have hlog : b.db.oplog = a.db.oplog := by rw [h.file]
  refine ⟨⟨?_, hok.pos.trans h.nextOp⟩, [], [], by rw [hlog, List.append_nil], rfl,
    Tables.contents_of_eq (by rw [h.file])⟩
  rw [hlog]
  exact hok.numbered.mono h.nextOp

theorem Commit.follows {L : GrainPrep → Prop} {ev : Event} {a b : DejaDB} (h : Commit C ev a b)
    (hrows : a.db.rows.Ok L) (hlogged : Logged ev a) (hok : a.LogOk) :
    b.LogOk ∧ Follows a b := by
  rcases h.records hrows hlogged hok.pos with ⟨cs, hrec⟩ | ⟨explicit, rfl⟩
  · obtain ⟨new, hlog, hmark⟩ := hrec.log
    exact ⟨⟨hrec.numbered hok.numbered, hok.pos.trans hrec.le⟩, cs, new, hlog, hmark,
      hrec.contents⟩
  · cases h with
    | reopen =>
      -- the next number is read off the file
      obtain ⟨hzero, hmax⟩ := @le_foldl_max (a.db.oplog.map OpRow.opSeq) 0
      refine ⟨⟨⟨hok.numbered.1, fun r hr => ⟨(hok.numbered.2 r hr).1, ?_⟩⟩, ?_⟩, .refl a⟩
      · have hr := hmax _ (List.mem_map_of_mem hr)
        show r.opSeq < (a.db.oplog.map OpRow.opSeq).foldl max 0 + 1
        omega
      · show 1 ≤ (a.db.oplog.map OpRow.opSeq).foldl max 0 + 1
        omega

theorem blobCommits_no_log {op : OpKind} {blob : Bytes} {hash : Hash} {st : DejaDB} :
    ∀ x ∈ blobCommits C op blob hash st, ∀ h hlc, x.1 ≠ .log h hlc := by
  intro x hx h hlc heq
  unfold blobCommits at hx
  cases hprep : prepFromBlob C blob hash st with
  | error e s =>
    rw [hprep] at hx
    cases hx
  | ok pr s =>
    rw [hprep] at hx
    rw [List.mem_singleton.1 hx] at heq
    cases heq

theorem flipCommits_no_log {hash : Hash} {olds : List Hash} {st : DejaDB} :
    ∀ x ∈ flipCommits hash olds st, ∀ h hlc, x.1 ≠ .log h hlc := by
  induction olds generalizing st with
  | nil => exact fun x hx => absurd hx List.not_mem_nil
  | cons old olds ih =>
    intro x hx h hlc heq
    rcases List.mem_cons.1 hx with rfl | hx
    · cases heq
    · exact ih x hx h hlc heq

theorem supersededCommits_no_log {blob : Bytes} {hash : Hash} {st : DejaDB} :
    ∀ x ∈ supersededCommits C blob hash st, ∀ h hlc, x.1 ≠ .log h hlc := by
  intro x hx
  unfold supersededCommits at hx
  cases hview : C.deserializeBlob blob with
  | error e =>
    rw [hview] at hx
    exact absurd hx List.not_mem_nil
  | ok view =>
    rw [hview] at hx
    exact flipCommits_no_log x hx

/-- The grain an imported closing op names is stored. -/
theorem recordCommits_logged {r : BundleRecord} {st : DejaDB} :
    ∀ x ∈ recordCommits C r st, Logged x.1 x.2 := by
  intro x hx
  have himported := recordCommits_imported x hx
  cases hev : x.1 with
  | insertBlob op pr =>
    rw [hev] at himported
    exact himported
  | log hash hlc =>
    unfold recordCommits at hx
    split_ifs at hx
    · unfold importAddCommits at hx
      split_ifs at hx
      · exact absurd hx List.not_mem_nil
      · exact absurd hev (blobCommits_no_log x hx hash hlc)
    · unfold importSupersedeCommits at hx
      cases hg : st.db.grainByHash r.hash with
      | some g =>
        rw [hg] at hx
        rcases List.mem_append.1 hx with hx | hx
        · exact absurd hev (supersededCommits_no_log x hx hash hlc)
        · rw [List.mem_singleton.1 hx] at hev ⊢
          cases hev
          obtain ⟨hmem, hhash⟩ := Tables.grainByHash_some hg
          show ((st.after _).db.contents r.hash).isSome
          rw [Tables.contents_isSome, Tables.hasGrain_iff]
          have haddr : r.hash ∈ st.db.addresses := by
            rw [← hhash]
            exact List.mem_map_of_mem hmem
          have hsame : (st.after (flipSuperseded C (if r.blob.isEmpty then g.blob else r.blob)
            r.hash)).db.addresses = st.db.addresses := leads_flipSuperseded C _ _ st
          rwa [hsame]
      | none =>
        simp only [hg] at hx
        split_ifs at hx
        · exact absurd hx List.not_mem_nil
        · rcases List.mem_append.1 hx with hx | hx
          · exact absurd hev (blobCommits_no_log x hx hash hlc)
          · exact absurd hev (supersededCommits_no_log x hx hash hlc)
    · rw [List.mem_singleton.1 hx] at hev
      cases hev
    · exact absurd hx List.not_mem_nil
  | insert | supersede | merge | forget | erase | scrub | flip | defer | undefer | rebuildText
  | setEmbedder | reopen => trivial

theorem recordsCommits_logged {maxHlc : Option ℤ} {rs : List BundleRecord} {st : DejaDB} :
    ∀ x ∈ recordsCommits C maxHlc rs st, Logged x.1 x.2 := by
  induction rs generalizing st with
  | nil => exact fun x hx => absurd hx List.not_mem_nil
  | cons r rs ih =>
    intro x hx
    unfold recordsCommits at hx
    split_ifs at hx
    · exact ih x hx
    · rcases List.mem_append.1 hx with hx | hx
      · exact recordCommits_logged x hx
      · cases hrec : importRecord C r st with
        | error e s =>
          rw [hrec] at hx
          exact absurd hx List.not_mem_nil
        | ok applied s =>
          rw [hrec] at hx
          exact ih x hx

theorem Event.logged_of_local {ev : Event} (h : ev.Local) (a : DejaDB) : Logged ev a := by
  cases ev with
  | insertBlob | log => exact h.elim
  | insert | supersede | merge | forget | erase | scrub | flip | defer | undefer | rebuildText
  | setEmbedder | reopen => trivial

theorem Op.meets_logged (op : Op G) (st : DejaDB) : op.Meets C Logged st := by
  intro x hx
  have hissued := op.commits_issued x hx
  cases op with
  | importBundle data maxHlc =>
    simp only [Op.commits] at hx
    cases hparse : parseBundle data with
    | error e =>
      rw [hparse] at hx
      exact absurd hx List.not_mem_nil
    | ok out =>
      rw [hparse] at hx
      exact recordsCommits_logged x hx
  | setEmbedder e =>
    rw [show x.1 = .setEmbedder e from hissued]
    trivial
  | add | addBatch | addIfNovel | supersede | mergeHeads | forget | forgetSubject
  | forgetOlderThan | deferTextIndex | rebuildTextIndex | reopen =>
    exact Event.logged_of_local hissued _

theorem meets_logged (st : DejaDB) (ops : List (Op G)) : Meets C Logged st ops := by
  induction ops generalizing st with
  | nil => trivial
  | cons op ops ih => exact ⟨op.meets_logged st, ih _⟩

/-- **Whole runs.**  Whatever the operations, what they change of the grain table
they log, in order. -/
theorem steps_follows {st : DejaDB} (hgood : st.Good C) (hok : st.LogOk) (ops : List (Op G)) :
    (st.steps C ops).Good C ∧ (st.steps C ops).LogOk ∧ Follows st (st.steps C ops) := by
  refine (steps_path hgood.toSound (meets_logged st ops)).keeps_good
    (I := fun b => b.LogOk ∧ Follows st b) ?_ ?_ hgood ⟨hok, .refl st⟩
  · rintro a b - hidle ⟨hok, hfollows⟩
    have hnext := hidle.follows hok
    exact ⟨hnext.1, hfollows.trans hnext.2⟩
  · rintro ev a b hgood hlogged hcommit ⟨hok, hfollows⟩
    have hnext := hcommit.follows hgood.rowsOk hlogged hok
    exact ⟨hnext.1, hfollows.trans hnext.2⟩

theorem createStore_logOk (C : Core G) (explicit : Option DejaDbOptions) (clock : ℕ → ℤ) :
    (createStore C explicit clock).LogOk := by
  rw [createStore_eq]
  exact ⟨⟨List.Pairwise.nil, fun r hr => absurd hr List.not_mem_nil⟩, le_refl _⟩

theorem Reachable.logOk {st : DejaDB} (h : Reachable C st) : st.LogOk := by
  obtain ⟨explicit, clock, ops, rfl⟩ := h
  exact (steps_follows (createStore_good C explicit clock) (createStore_logOk C explicit clock)
    ops).2.1

/-- The last mark of an address. -/
theorem getLast?_filter_marks {α : Type} (f : α → Hash × Bool) (l : List α) (h : Hash) :
    ((l.filter fun a => (f a).1 = h).getLast?).map (fun a => (f a).2) =
      (((l.map f).filter fun x => x.1 = h).getLast?).map Prod.snd := by
  rw [List.filter_map, List.getLast?_map, Option.map_map]
  rfl

/-- **The op-log decides what is stored.**  In every reachable store an address is
stored exactly when there is an op on it and the last one is not a `FORGET`. -/
theorem hasGrain_iff_lastOp {st : DejaDB} (h : Reachable C st) (hash : Hash) :
    st.db.hasGrain hash = true ↔
      ∃ r, (st.db.oplog.filter fun r => r.hash = hash).getLast? = some r ∧ r.op ≠ .forget := by
  obtain ⟨explicit, clock, ops, rfl⟩ := h
  obtain ⟨-, -, cs, new, hlog, hmark, hcontents⟩ := steps_follows
    (createStore_good C explicit clock) (createStore_logOk C explicit clock) ops
  have hempty : (createStore C explicit clock).db.contents = (fun _ => none) ∧
      (createStore C explicit clock).db.oplog = [] := by
    rw [createStore_eq]
    exact ⟨rfl, rfl⟩
  rw [hempty.1] at hcontents
  rw [hempty.2, List.nil_append] at hlog
  have hlast := getLast?_filter_marks changeMark cs hash
  rw [← hmark, ← getLast?_filter_marks] at hlast
  have hsome := isSome_replay cs (fun _ => none) hash
  rw [show (cs.filter fun c => c.key = hash).getLast?.map Change.keeps =
    (cs.filter fun c => (changeMark c).1 = hash).getLast?.map (fun c => (changeMark c).2) from rfl,
    hlast] at hsome
  rw [← Tables.contents_isSome, hcontents, hsome, hlog]
  have hfilter : (new.filter fun r => (OpRow.mark r).1 = hash) =
      new.filter fun r => r.hash = hash := rfl
  rw [hfilter]
  cases (new.filter fun r => r.hash = hash).getLast? with
  | none => simp
  | some r => simp [OpRow.mark]

/-- A fact forgotten, and one forgotten and added again. -/
theorem forgotten_lastOp :
    (∃ r, ((sampleStore.steps sampleCore [.add (sampleFact 1 1 1 2 3), .forget (Hash.ofByte 1),
        .add (sampleFact 1 1 1 2 3)]).db.oplog.filter
          fun r => r.hash = Hash.ofByte 1).getLast? = some r ∧ r.op ≠ .forget) ∧
      ¬∃ r, ((sampleStore.steps sampleCore [.add (sampleFact 1 1 1 2 3),
        .forget (Hash.ofByte 1)]).db.oplog.filter
          fun r => r.hash = Hash.ofByte 1).getLast? = some r ∧ r.op ≠ .forget :=
  ⟨(hasGrain_iff_lastOp (sampleStore_reachable.steps _) (Hash.ofByte 1)).1 (by decide +kernel),
    fun h => absurd ((hasGrain_iff_lastOp (sampleStore_reachable.steps _) (Hash.ofByte 1)).2 h)
      (by decide +kernel)⟩

/-! ## What the exports ship -/

/-- The op-log is in the order of its numbers already. -/
theorem DejaDB.LogOk.changesSince_eq {st : DejaDB} (h : st.LogOk) (afterOpSeq : ℤ) :
    st.db.changesSince afterOpSeq = st.db.oplog.filter fun r => afterOpSeq < r.opSeq := by
  refine List.Pairwise.insertionSort_eq ?_
  refine List.Pairwise.filter _ ?_
  exact (List.pairwise_map.1 h.numbered.1).imp fun hlt => hlt.le

/-- `c` is the cursor of an export that shipped the whole op-log: its last op
number, or 0 when there is none. -/
structure AtCursor (log : List OpRow) (c : ℤ) : Prop where
  shipped : ∀ r ∈ log, r.opSeq ≤ c
  known : c = 0 ∨ ∃ r ∈ log, r.opSeq = c

theorem atCursor_nil : AtCursor [] 0 := ⟨fun _ hr => absurd hr List.not_mem_nil, .inl rfl⟩

/-- **What is written after an export comes past its cursor**, and the next export
ships just that. -/
theorem AtCursor.changesSince {log new : List OpRow} {st : DejaDB} {c : ℤ} (hcur : AtCursor log c)
    (hok : st.LogOk) (hlog : st.db.oplog = log ++ new) :
    st.db.changesSince c = new ∧ AtCursor st.db.oplog (st.lastOpSeq c) := by
  have hsorted := List.pairwise_map.1 hok.numbered.1
  have hnew : ∀ r ∈ new, c < r.opSeq := by
    intro r hr
    rcases hcur.known with rfl | ⟨x, hx, rfl⟩
    · have hpos := (hok.numbered.2 r (by rw [hlog]; exact List.mem_append_right _ hr)).1
      omega
    · rw [hlog] at hsorted
      exact (List.pairwise_append.1 hsorted).2.2 x hx r hr
  have hchanges : st.db.changesSince c = new := by
    rw [hok.changesSince_eq, hlog, List.filter_append, List.filter_eq_nil_iff.2 fun r hr => ?_,
      List.filter_eq_self.2 fun r hr => decide_eq_true (hnew r hr), List.nil_append]
    have hle := hcur.shipped r hr
    simp only [decide_eq_true_eq]
    omega
  refine ⟨hchanges, ?_⟩
  unfold DejaDB.lastOpSeq
  rw [hchanges]
  cases hlast : new.getLast? with
  | none =>
    rw [List.getLast?_eq_none_iff.1 hlast, List.append_nil] at hlog
    rw [hlog]
    exact hcur
  | some r =>
    obtain ⟨init, hinit⟩ := List.getLast?_eq_some_iff.1 hlast
    rw [Option.map_some, Option.getD_some]
    rw [hinit, ← List.append_assoc] at hlog
    rw [hlog] at hsorted ⊢
    refine ⟨fun x hx => ?_, .inr ⟨r, List.mem_append_right _ (List.mem_singleton_self r), rfl⟩⟩
    rcases List.mem_append.1 hx with hx | hx
    · exact ((List.pairwise_append.1 hsorted).2.2 x hx r (List.mem_singleton_self r)).le
    · rw [List.mem_singleton.1 hx]

/-- The ops a sequence of incremental exports ships: each round runs operations,
exports from the cursor, and moves the cursor to the last op it shipped. -/
def shipments (C : Core G) : DejaDB → ℤ → List (List (Op G)) → List OpRow
  | _, _, [] => []
  | st, c, ops :: rounds =>
    (st.steps C ops).db.changesSince c ++
      shipments C (st.steps C ops) ((st.steps C ops).lastOpSeq c) rounds

/-- The rows of a run beyond those an export has shipped. -/
theorem shipments_eq {st : DejaDB} {c : ℤ} (hgood : st.Good C) (hok : st.LogOk)
    (hcur : AtCursor st.db.oplog c) (rounds : List (List (Op G))) :
    (st.steps C rounds.flatten).db.oplog = st.db.oplog ++ shipments C st c rounds := by
  induction rounds generalizing st c with
  | nil => simp [shipments, DejaDB.steps]
  | cons ops rounds ih =>
    obtain ⟨hgood', hok', -, new, hlog, -⟩ := steps_follows hgood hok ops
    obtain ⟨hchanges, hcur'⟩ := hcur.changesSince hok' hlog
    have hsteps : st.steps C (ops :: rounds).flatten = (st.steps C ops).steps C rounds.flatten := by
      rw [DejaDB.steps, DejaDB.steps, DejaDB.steps, List.flatten_cons, List.foldl_append]
    rw [hsteps, ih hgood' hok' hcur', shipments, hchanges, hlog, List.append_assoc]

/-- **Incremental exports ship every op once, in order**: wherever a run is cut,
through reopens, imports and erasures, what the exports from cursor 0 on ship
together is the op-log. -/
theorem shipments_oplog (C : Core G) (explicit : Option DejaDbOptions) (clock : ℕ → ℤ)
    (rounds : List (List (Op G))) :
    shipments C (createStore C explicit clock) 0 rounds =
      ((createStore C explicit clock).steps C rounds.flatten).db.oplog := by
  have hempty : (createStore C explicit clock).db.oplog = [] := by
    rw [createStore_eq]
    rfl
  rw [shipments_eq (createStore_good C explicit clock) (createStore_logOk C explicit clock)
    (by rw [hempty]; exact atCursor_nil), hempty, List.nil_append]

end Deja
