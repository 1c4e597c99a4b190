import Deja.Replica.Restored

/-!
# Two stores that exchange bundles

A store imports the whole log of another one, and hands its own back: both end up with the same
grains, whatever each had forgotten or added before.
-/

namespace Deja

open Run Journal

variable {G : Type} {C : Core G}

theorem OpRow.until_none (rows : List OpRow) : rows.filter (OpRow.Until none) = rows :=
  List.filter_eq_self.2 fun _ _ => rfl

theorem Tables.hasGrain_eq_contents (t : Tables) (hash : Hash) :
    t.hasGrain hash = (t.contents hash).isSome :=
  Bool.eq_iff_iff.2 Tables.contents_isSome.symm

/-- What a whole log makes of a store: it decides on the addresses it names. -/
theorem imported_hasGrain {source : DejaDB} (hsource : Reachable C source)
    (hfits : source.BundleFits 0) {stats : ImportStats} {st st' : DejaDB} (hgood : st.Good C)
    (himport : importBundle C (source.bundleSince 0) st = .ok stats st') (hash : Hash) :
    st'.db.hasGrain hash = if ∃ r ∈ source.db.oplog, r.hash = hash then source.db.hasGrain hash
      else st.db.hasGrain hash := by
  have hcontents := imported_contents hsource hfits hgood himport
  rw [OpRow.until_none] at hcontents
  simp only [Tables.hasGrain_eq_contents, hcontents]
  split_ifs with hmem
  · refine isSome_replay_ship ?_
    obtain ⟨r, hr, hhash⟩ := hmem
    have hlast : ((source.db.oplog.filter fun r => r.hash = hash).getLast?).isSome := by
      rw [List.getLast?_isSome]
      exact List.ne_nil_of_mem (List.mem_filter.2 ⟨hr, decide_eq_true hhash⟩)
    obtain ⟨last, hlast⟩ := Option.isSome_iff_exists.1 hlast
    rw [getLast?_changes, hlast, Option.map_some, Option.map_some, OpRow.keeps_change]
    refine congrArg some ?_
    have hdecides := hasGrain_iff_lastOp hsource hash
    rw [Tables.hasGrain_eq_contents, hlast] at hdecides
    rw [Bool.eq_iff_iff, hdecides]
    simp
  · refine congrArg Option.isSome (replay_ship_of_not_mem fun c hc => ?_)
    obtain ⟨r, hr, rfl⟩ := List.mem_map.1 hc
    rw [OpRow.key_change]
    exact fun hhash => hmem ⟨r, hr, hhash⟩

/-- An import is an operation of a run. -/
theorem Reachable.imported {data : Bytes} {stats : ImportStats} {st st' : DejaDB}
    (h : Reachable C st) (himport : importBundle C data st = .ok stats st') : Reachable C st' := by
  have hstep : st.steps C [.importBundle data none] = st' := by
    have hrun : (Op.importBundle data none : Op G).run C st = .ok () st' :=
      bind_eq_ok.2 ⟨stats, st', himport, rfl⟩
    exact after_of_ok hrun
  rw [← hstep]
  exact h.steps _

/-- What a store has is in its log, and in the log of whatever comes of it. -/
theorem Reachable.mem_oplog_steps {st : DejaDB} (h : Reachable C st) {hash : Hash}
    (hhas : st.db.hasGrain hash = true) (ops : List (Op G)) :
    ∃ r ∈ (st.steps C ops).db.oplog, r.hash = hash := by
  obtain ⟨r, hlast, -⟩ := (hasGrain_iff_lastOp h hash).1 hhas
  have hr := List.mem_filter.1 (List.mem_of_getLast? hlast)
  obtain ⟨-, -, cs, new, hlog, -⟩ := steps_follows h.good h.logOk ops
  rw [hlog]
  exact ⟨r, List.mem_append_left _ hr.1, of_decide_eq_true hr.2⟩

/-- **An exchange brings two stores together.**  One imports the log of the other, goes on with
whatever operations, and hands its own log back: then both have the same addresses, and the same
bytes where an address they had in common meant the same bytes. -/
theorem exchange_agrees {a a' b b' : DejaDB} (ha : Reachable C a) (hb : Reachable C b)
    (hfits : a.BundleFits 0) {stats stats' : ImportStats}
    (hout : importBundle C (a.bundleSince 0) b = .ok stats b') (ops : List (Op G))
    (hfits' : (b'.steps C ops).BundleFits 0)
    (hback : importBundle C ((b'.steps C ops).bundleSince 0) a = .ok stats' a') :
    (∀ hash, a'.db.hasGrain hash = (b'.steps C ops).db.hasGrain hash) ∧
      ((∀ hash x y, a.db.contents hash = some x → (b'.steps C ops).db.contents hash = some y →
        x = y) → a'.db.contents = (b'.steps C ops).db.contents) := by
  have hb' := hb.imported hout
  have haddresses : ∀ hash, a'.db.hasGrain hash = (b'.steps C ops).db.hasGrain hash := by
    intro hash
    rw [imported_hasGrain (hb'.steps ops) hfits' ha.good hback]
    split_ifs with hmem
    · rfl
    -- the other log does not name the address: neither store has it
    · have hnone : ∀ st : DejaDB, st.db.hasGrain hash ≠ true → st.db.hasGrain hash = false :=
        fun st h => by simpa using h
      rw [hnone a fun hhas => hmem ?_, hnone _ fun hhas => hmem ?_]
      · exact (hb'.steps ops).mem_oplog_steps hhas []
      · have hmeans := imported_hasGrain ha hfits hb.good hout hash
        obtain ⟨r, hr, hhash⟩ := ha.mem_oplog_steps hhas []
        rw [if_pos ⟨r, hr, hhash⟩, hhas] at hmeans
        exact hb'.mem_oplog_steps hmeans ops
  refine ⟨haddresses, fun hsame => ?_⟩
  funext hash
  have hiff := haddresses hash
  rw [Tables.hasGrain_eq_contents, Tables.hasGrain_eq_contents] at hiff
  have hcontents := imported_contents (hb'.steps ops) hfits' ha.good hback
  cases hx : a'.db.contents hash with
  | none =>
    rw [hx] at hiff
    cases hy : (b'.steps C ops).db.contents hash with
    | none => rfl
    | some y =>
      rw [hy] at hiff
      cases hiff
  | some x =>
    rw [hx] at hiff
    obtain ⟨y, hy⟩ := Option.isSome_iff_exists.1 hiff.symm
    rw [hcontents] at hx
    rcases replay_ship_mem hx with h | h
    · rw [hy, hsame hash x y h hy]
    · exact h.symm

/-- Whether a bundle is imported. -/
def importSucceeds (C : Core G) (data : Bytes) (st : DejaDB) : Bool :=
  match importBundle C data st with
  | .ok _ _ => true
  | .error _ _ => false

theorem importSucceeds_ok {data : Bytes} {st : DejaDB} (h : importSucceeds C data st = true) :
    ∃ stats, importBundle C data st = .ok stats (st.after (importBundle C data)) := by
  unfold importSucceeds at h
  cases himport : importBundle C data st with
  | ok stats st' => exact ⟨stats, by rw [DejaDB.after, after_of_ok himport]⟩
  | error e st' =>
    rw [himport] at h
    cases h

/-- A store with the fact that the other one has forgotten. -/
def partner : DejaDB := sampleStore.steps sampleCore [.add (sampleFact 1 1 1 2 3)]

/-- The partner after the bundle of the other store, and after a third fact. -/
def partnerMet : DejaDB :=
  partner.after (importBundle sampleCore (forgottenSource.bundleSince 0))

def partnerGone : DejaDB := partnerMet.steps sampleCore [.add (sampleFact 3 1 1 2 5)]

/-- The other store after the bundle of the partner. -/
def sourceMet : DejaDB :=
  forgottenSource.after (importBundle sampleCore (partnerGone.bundleSince 0))

/-- Both have the second fact and the third, and neither has the first. -/
theorem exchange_sample :
    (∀ hash, sourceMet.db.hasGrain hash = partnerGone.db.hasGrain hash) ∧
      [1, 2, 3].map (fun n => sourceMet.db.hasGrain (Hash.ofByte n)) = [false, true, true] := by
  have ha : Reachable sampleCore forgottenSource := sampleStore_reachable.steps _
  have hb : Reachable sampleCore partner := sampleStore_reachable.steps _
  obtain ⟨stats, hout⟩ := importSucceeds_ok (show importSucceeds sampleCore
    (forgottenSource.bundleSince 0) partner = true by decide +kernel)
  obtain ⟨stats', hback⟩ := importSucceeds_ok (show importSucceeds sampleCore
    (partnerGone.bundleSince 0) forgottenSource = true by decide +kernel)
  refine ⟨?_, by decide +kernel⟩
  exact (exchange_agrees ha hb (by decide +kernel) hout [.add (sampleFact 3 1 1 2 5)]
    (by decide +kernel) hback).1

end Deja
