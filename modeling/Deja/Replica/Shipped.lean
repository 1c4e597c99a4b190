import Deja.Import.Records
import Deja.Replica.Logged

/-!
# What a bundle carries over

`bundle_since` writes the ops without the bytes they put at the time: a record
carries the bytes its address has when the bundle is written, and none when the
grain is gone by then.  `import_bundle` replays the records one by one.

`Carries.imported` puts the two together: a store whose grains are those the
source had at some point of the shipped ops, or before them, ends up with the
grains the source has when it writes the bundle, byte for byte.
-/

namespace Deja

open Run Journal

variable {G : Type} (C : Core G)

/-- What replaying a record changes of the grains. -/
def BundleRecord.change (r : BundleRecord) : Option (Change Hash Bytes) :=
  if r.op = 3 then some (.drop r.hash)
  else if r.blob = [] then none
  else some (.put r.hash r.blob)

/-! ## One record -/

/-- `b` stores the same grains as `a`. -/
def SameContents (a b : DejaDB) : Prop := b.db.contents = a.db.contents

instance : Std.Refl SameContents := ⟨fun _ => rfl⟩

instance : IsTrans DejaDB SameContents := ⟨fun _ _ _ hab hbc => hbc.trans hab⟩

theorem leads_flipParents_contents (hash : Hash) (olds : List Hash) :
    Leads SameContents (flipParents hash olds) := by
  induction olds with
  | nil => exact leads_pure _
  | cons old olds ih =>
    refine leads_bind (fun st => ?_) fun _ => leads_bind ih fun _ => leads_pure _
    obtain ⟨now, tick, h⟩ := applySupersedeFlip_apply old hash st
    rw [after_of_ok h]
    exact st.db.flipTxn_contents old hash now

theorem leads_flipSuperseded_contents (blob : Bytes) (hash : Hash) :
    Leads SameContents (flipSuperseded C blob hash) := by
  unfold flipSuperseded
  cases C.deserializeBlob blob with
  | ok view => exact leads_flipParents_contents hash _
  | error e => exact leads_pure _

theorem leads_logOp_contents (op : OpKind) (hash : Hash) (hlc : ℤ) :
    Leads SameContents (logOp op hash hlc) := by
  intro st
  unfold after logOp
  simp only [bind_apply, get_apply, set_apply, withTxn]
  cases htxn : st.db.insertOp ⟨st.nextOp, hlc, op, hash⟩ with
  | error e => rfl
  | ok t =>
    obtain ⟨rfl, -⟩ := Tables.insertOp_ok htxn
    rfl

theorem insertBlob_contents {blob : Bytes} {hash : Hash} {op : OpKind} {hlc : ℤ} {st st' : DejaDB}
    (h : insertBlob C blob hash op hlc st = .ok ⟨⟩ st') :
    st'.db.contents = (Change.put hash blob).on st.db.contents := by
  obtain ⟨pr, s, hprep, h₁⟩ := bind_eq_ok.1 h
  obtain ⟨hblob, hhash, -⟩ := prepFromBlob_bytes hprep
  have hsame : s.db.contents = st.db.contents :=
    Tables.contents_of_eq (by rw [((leads_prepFromBlob _ _).of_ok hprep).file])
  simp only [bind_apply, get_apply, set_apply] at h₁
  obtain ⟨t, htxn, rfl⟩ := withTxn_ok h₁
  cases hins : s.db.insertBlobTxn pr s.nextSeq s.nextOp hlc op with
  | error e =>
    simp only [hins] at htxn
    cases htxn
  | ok t' =>
    simp only [hins] at htxn
    cases htxn
    rw [← hsame, ← hblob, ← hhash]
    exact (Tables.insertBlobTxn_ok hins).1.contents

/-- A forget that returned dropped its grain and no other. -/
theorem forget_contents {hash : Hash} {st st' : DejaDB} (hgood : st.Good C)
    (h : forget hash st = .ok ⟨⟩ st') :
    st'.db.contents = (Change.drop hash).on st.db.contents := by
  unfold forget at h
  rw [bind_apply, get_apply] at h
  simp only at h
  cases hrow : st.db.grainByHash hash with
  | none =>
    rw [hrow] at h
    cases h
  | some row =>
    simp only [hrow] at h
    rw [bind_apply, reserveOp_apply] at h
    obtain ⟨len, s, htxn, h₁⟩ := bind_eq_ok.1 h
    obtain ⟨t, ht, rfl⟩ := withTxn_ok htxn
    have hcontents := Tables.forgetTxn_contents hgood.rowsOk hrow ht
    cases len <;> cases h₁ <;> exact hcontents

/-- **One record** replayed changes what it says. -/
theorem importRecord_contents {r : BundleRecord} {applied : Bool} {st st' : DejaDB}
    (hgood : st.Good C) (h : importRecord C r st = .ok applied st') :
    st'.db.contents = r.change.elim st.db.contents fun c => c.on st.db.contents := by
  unfold importRecord at h
  unfold BundleRecord.change
  split_ifs at h with h1 h2 h3
  · rw [if_neg (by rw [h1]; decide)]
    unfold importAdd at h
    rw [bind_apply, get_apply] at h
    simp only at h
    split_ifs at h with hskip
    · obtain ⟨-, rfl⟩ := pure_eq_ok.1 h
      split_ifs with hblob
      · rfl
      · have hhas : st.db.hasGrain r.hash = true :=
          hskip.resolve_right fun he => hblob (List.isEmpty_iff.1 he)
        obtain ⟨v, hv⟩ := Option.isSome_iff_exists.1 (Tables.contents_isSome.2 hhas)
        exact (Change.on_put_of_some hv).symm
    · obtain ⟨u, s, hins, h₁⟩ := bind_eq_ok.1 h
      obtain ⟨-, rfl⟩ := pure_eq_ok.1 h₁
      rw [if_neg fun hblob => hskip (.inr (List.isEmpty_iff.2 hblob))]
      exact insertBlob_contents C hins
  · rw [if_neg (by rw [h2]; decide)]
    cases hg : st.db.grainByHash r.hash with
    | some g =>
      rw [importSupersede_stored C hg] at h
      obtain ⟨changed, s, hflip, h₁⟩ := bind_eq_ok.1 h
      have hs : s.db.contents = st.db.contents :=
        (leads_flipSuperseded_contents C _ _).of_ok hflip
      have hst : st'.db.contents = st.db.contents := by
        cases changed
        · obtain ⟨-, rfl⟩ := pure_eq_ok.1 h₁
          exact hs
        · obtain ⟨u, s₁, hlog, h₂⟩ := bind_eq_ok.1 h₁
          obtain ⟨-, rfl⟩ := pure_eq_ok.1 h₂
          exact ((leads_logOp_contents _ _ _).of_ok hlog).trans hs
      rw [hst]
      split_ifs
      · rfl
      · have hv : st.db.contents r.hash = some g.blob := by
          rw [Tables.contents, hg, Option.map_some]
        exact (Change.on_put_of_some hv).symm
    | none =>
      rw [importSupersede_missing C hg] at h
      split_ifs at h with hempty
      · obtain ⟨-, rfl⟩ := pure_eq_ok.1 h
        rw [if_pos (List.isEmpty_iff.1 hempty)]
        rfl
      · obtain ⟨u, s₁, hins, h₁⟩ := bind_eq_ok.1 h
        obtain ⟨c, s₂, hflip, h₂⟩ := bind_eq_ok.1 h₁
        obtain ⟨-, rfl⟩ := pure_eq_ok.1 h₂
        rw [if_neg fun hblob => hempty (List.isEmpty_iff.2 hblob)]
        exact ((leads_flipSuperseded_contents C _ _).of_ok hflip).trans (insertBlob_contents C hins)
  · rw [if_pos h3]
    unfold importForget at h
    cases hg : st.db.grainByHash r.hash with
    | none =>
      rw [forget_missing hg] at h
      cases h
      have hnone : st.db.contents r.hash = none := by rw [Tables.contents, hg, Option.map_none]
      rw [Option.elim_some, Change.on, ← hnone, Function.update_eq_self]
    | some row =>
      rcases forget_stored hg with ⟨s, hf⟩ | ⟨m, s, hf⟩
      · rw [hf] at h
        cases h
        exact forget_contents C hgood hf
      · rw [hf] at h
        cases h
  · cases h

/-- The records up to a clock value. -/
def recordsUntil (maxHlc : Option ℤ) (rs : List BundleRecord) : List BundleRecord :=
  rs.filter fun r => !maxHlc.any (· < r.hlc)

theorem importRecords_contents {maxHlc : Option ℤ} {stats stats' : ImportStats}
    {rs : List BundleRecord} {st st' : DejaDB} (hgood : st.Good C)
    (h : importRecords C maxHlc stats rs st = .ok stats' st') :
    st'.Good C ∧ st'.db.contents =
      replay ((recordsUntil maxHlc rs).filterMap BundleRecord.change) st.db.contents := by
  induction rs generalizing stats st with
  | nil =>
    obtain ⟨-, rfl⟩ := pure_eq_ok.1 h
    exact ⟨hgood, rfl⟩
  | cons r rs ih =>
    unfold importRecords at h
    unfold recordsUntil
    rw [List.filter_cons]
    split_ifs at h with hskip
    · rw [if_neg (by simp [hskip])]
      exact ih hgood h
    · obtain ⟨applied, s, hrec, hrest⟩ := bind_eq_ok.1 h
      obtain ⟨hgood', hcontents⟩ := ih (importRecord_good C hgood hrec) hrest
      refine ⟨hgood', ?_⟩
      rw [if_pos (by simp [hskip]), hcontents, importRecord_contents C hgood hrec,
        List.filterMap_cons]
      cases r.change <;> rfl

theorem recordsUntil_none (rs : List BundleRecord) : recordsUntil none rs = rs := by
  simp [recordsUntil]

/-! ## What is exported of a journal -/

/-- A stored grain has bytes. -/
theorem DejaDB.Good.blob_ne_nil {st : DejaDB} (h : st.Good C) {hash : Hash} {b : Bytes}
    (hb : st.db.contents hash = some b) : b ≠ [] := by
  rw [Tables.contents, Option.map_eq_some_iff] at hb
  obtain ⟨g, hg, rfl⟩ := hb
  obtain ⟨pr, ⟨view, hlinked⟩, hof⟩ := h.rowsOk.spelled g (Tables.grainByHash_some hg).1
  have hrow : g.blob = pr.blob := by rw [hof.row]; rfl
  intro hnil
  have hdecodes := hlinked.decodes
  rw [← hrow, hnil] at hdecodes
  simp [Core.deserializeBlob] at hdecodes

/-- The change a mark ships. -/
def shipMark (final : Hash → Option Bytes) (m : Hash × Bool) : Option (Change Hash Bytes) :=
  if m.2 then (final m.1).map (.put m.1) else some (.drop m.1)

theorem ship_eq_shipMark (final : Hash → Option Bytes) (c : Change Hash Bytes) :
    c.ship final = shipMark final (changeMark c) := by
  cases c <;> rfl

theorem change_exportRecord {st : DejaDB} (h : st.Good C) (r : OpRow) :
    (st.db.exportRecord r).change = shipMark st.db.contents r.mark := by
  have hcontents : (st.db.grainByHash r.hash).map GrainRow.blob = st.db.contents r.hash := rfl
  have hcode : ∀ op : OpKind, UInt8.ofNat op.code = 3 ↔ op = .forget := by
    intro op
    cases op <;> decide
  have hmiss : (st.db.exportRecord r).op = 3 ↔ r.op = .forget := hcode r.op
  unfold BundleRecord.change shipMark OpRow.mark
  simp only [hmiss]
  by_cases hop : r.op = .forget
  · simp [hop, Tables.exportRecord]
  · simp only [Tables.exportRecord, hop, if_false, hcontents, ne_eq, not_false_eq_true,
      decide_true, if_true]
    cases hb : st.db.contents r.hash with
    | none => simp
    | some b => simp [h.blob_ne_nil C hb]

/-- The changes a bundle carries are those of the journal it exports, with the
bytes of the exporting store. -/
theorem filterMap_exportRecord {st : DejaDB} (h : st.Good C) {new : List OpRow}
    {cs : List (Change Hash Bytes)} (hmark : new.map OpRow.mark = cs.map changeMark) :
    (new.map st.db.exportRecord).filterMap BundleRecord.change =
      cs.filterMap (Change.ship st.db.contents) := by
  have hleft : (new.map st.db.exportRecord).filterMap BundleRecord.change =
      (new.map OpRow.mark).filterMap (shipMark st.db.contents) := by
    rw [List.filterMap_map, List.filterMap_map]
    exact List.filterMap_congr fun r _ => change_exportRecord C h r
  have hright : cs.filterMap (Change.ship st.db.contents) =
      (cs.map changeMark).filterMap (shipMark st.db.contents) := by
    rw [List.filterMap_map]
    exact List.filterMap_congr fun c _ => ship_eq_shipMark _ c
  rw [hleft, hright, hmark]

/-- The file a store writes fits: its records into their fields, all of them into
memory. -/
def DejaDB.BundleFits (st : DejaDB) (afterOpSeq : ℤ) : Prop :=
  (∀ r ∈ st.db.exportSince afterOpSeq, r.Fits) ∧
    (st.bundleSince afterOpSeq).length ≤ 9223372036854775807

theorem parseBundle_bundleSince {st : DejaDB} {c : ℤ} (h : st.BundleFits c) :
    parseBundle (st.bundleSince c) = .ok (st.db.exportSince c, none) := by
  have hread := readBundle_bundleSince st c h.2 h.1
  have hparse := readBundle_parseBundle ⟨st.bundleSince c, h.2⟩
  rw [hread] at hparse
  cases hp : parseBundle (st.bundleSince c) with
  | error e =>
    rw [hp] at hparse
    cases hparse
  | ok parsed =>
    obtain ⟨rs, e⟩ := parsed
    rw [hp] at hparse
    cases e with
    | none =>
      cases hparse
      rfl
    | some e => cases hparse

/-! ## A bundle as a part of a journal -/

/-- The state a journal leads to from an empty file. -/
def journaled (cs : List (Change Hash Bytes)) : Hash → Option Bytes := replay cs fun _ => none

/-- The file `data` carries the changes `slice`, which came after `before`. -/
def Carries (data : Bytes) (before slice : List (Change Hash Bytes)) : Prop :=
  ∃ rs, parseBundle data = .ok (rs, none) ∧
    rs.filterMap BundleRecord.change = slice.filterMap (Change.ship (journaled (before ++ slice)))

/-- What a store writes of its journal. -/
theorem carries_bundleSince {st : DejaDB} (h : st.Good C) {c : ℤ} (hfits : st.BundleFits c)
    {before slice : List (Change Hash Bytes)}
    (hcontents : st.db.contents = journaled (before ++ slice))
    (hmark : (st.db.changesSince c).map OpRow.mark = slice.map changeMark) :
    Carries (st.bundleSince c) before slice :=
  ⟨_, parseBundle_bundleSince hfits, by
    rw [Tables.exportSince, filterMap_exportRecord C h hmark, hcontents]⟩

/-- **Importing a part of a journal.**  A store that has replayed what came before
the part, and maybe a beginning of it, has replayed all of it afterwards. -/
theorem Carries.imported {data : Bytes} {before p q : List (Change Hash Bytes)}
    (h : Carries data before (p ++ q)) {stats : ImportStats} {st st' : DejaDB}
    (hgood : st.Good C) (hst : st.db.contents = journaled (before ++ p))
    (himport : importBundle C data st = .ok stats st') :
    st'.Good C ∧ st'.db.contents = journaled (before ++ (p ++ q)) := by
  obtain ⟨rs, hparse, hchanges⟩ := h
  obtain ⟨-, hrecords⟩ := (importBundle_ok C).1 himport
  have hrs : bundleRecords data = rs := by rw [bundleRecords, hparse]
  rw [hrs] at hrecords
  obtain ⟨hgood', hcontents⟩ := importRecords_contents C hgood hrecords
  refine ⟨hgood', ?_⟩
  rw [recordsUntil_none] at hcontents
  have hsplit : ∀ cs, journaled (before ++ cs) = replay cs (journaled before) := fun cs =>
    replay_append before cs _
  rw [hcontents, hchanges, hst, hsplit, hsplit, replay_ship]

end Deja
