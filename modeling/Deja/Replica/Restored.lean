import Deja.Replica.Stream

/-!
# Going back in time

`import_bundle_until` replays a bundle up to a clock value.  The bundle was written later: it
knows which ops came by then, and has the bytes of what the source still stores.
-/

namespace Deja

open Run Journal

variable {G : Type} {C : Core G}

/-- Whether an op counts up to a clock value. -/
def OpRow.Until (maxHlc : Option ℤ) (r : OpRow) : Bool := !maxHlc.any (· < r.hlc)

/-- A change with the mark of an op. -/
def OpRow.change (r : OpRow) : Change Hash Bytes :=
  if r.op = .forget then .drop r.hash else .put r.hash []

theorem OpRow.mark_change (r : OpRow) : changeMark r.change = r.mark := by
  unfold OpRow.change OpRow.mark changeMark
  by_cases h : r.op = .forget
  · rw [if_pos h]
    simp [h, Change.key, Change.keeps]
  · rw [if_neg h]
    simp [h, Change.key, Change.keeps]

theorem OpRow.key_change (r : OpRow) : r.change.key = r.hash := congrArg Prod.fst r.mark_change

theorem OpRow.keeps_change (r : OpRow) : r.change.keeps = (r.op ≠ .forget : Bool) :=
  congrArg Prod.snd r.mark_change

theorem importBundleUntil_ok {data : Bytes} {maxHlc : Option ℤ} {rs : List BundleRecord}
    {stats : ImportStats} {st st' : DejaDB} (hparse : parseBundle data = .ok (rs, none))
    (h : importBundleUntil C data maxHlc st = .ok stats st') :
    importRecords C maxHlc ⟨0, 0⟩ rs st = .ok stats st' := by
  unfold importBundleUntil at h
  rw [hparse] at h
  obtain ⟨parsed, s, hlift, h₁⟩ := bind_eq_ok.1 h
  obtain ⟨rfl, rfl⟩ := pure_eq_ok.1 hlift
  obtain ⟨stats', s', hrecords, h₂⟩ := bind_eq_ok.1 h₁
  obtain ⟨rfl, rfl⟩ := pure_eq_ok.1 h₂
  exact hrecords

/-- The records of a bundle up to a clock value are those of the ops up to it. -/
theorem recordsUntil_exportSince {st : DejaDB} (h : st.LogOk) (maxHlc : Option ℤ) :
    recordsUntil maxHlc (st.db.exportSince 0) =
      (st.db.oplog.filter (OpRow.Until maxHlc)).map st.db.exportRecord := by
  have hall : st.db.changesSince 0 = st.db.oplog := by
    rw [h.changesSince_eq]
    exact List.filter_eq_self.2 fun r hr => decide_eq_true (by
      have hr := (h.numbered.2 r hr).1
      omega)
  rw [Tables.exportSince, hall, recordsUntil, List.filter_map]
  rfl

/-- What a whole bundle, replayed up to a clock value, makes of a store. -/
theorem imported_contents {source : DejaDB} (hsource : Reachable C source)
    (hfits : source.BundleFits 0) {maxHlc : Option ℤ} {stats : ImportStats} {st st' : DejaDB}
    (hgood : st.Good C)
    (himport : importBundleUntil C (source.bundleSince 0) maxHlc st = .ok stats st') :
    st'.db.contents = replay (((source.db.oplog.filter (OpRow.Until maxHlc)).map
      OpRow.change).filterMap (Change.ship source.db.contents)) st.db.contents := by
  have hrecords := importBundleUntil_ok (parseBundle_bundleSince hfits) himport
  obtain ⟨-, hcontents⟩ := importRecords_contents C hgood hrecords
  rw [hcontents, recordsUntil_exportSince hsource.logOk]
  refine congrArg (replay · _) (filterMap_exportRecord C hsource.good ?_)
  rw [List.map_map]
  exact List.map_congr_left fun r _ => r.mark_change.symm

/-- The last change of an address is that of its last op. -/
theorem getLast?_changes (rows : List OpRow) (hash : Hash) :
    ((rows.map OpRow.change).filter fun c => c.key = hash).getLast? =
      ((rows.filter fun r => r.hash = hash).getLast?).map OpRow.change := by
  rw [List.filter_map, List.getLast?_map]
  refine congrArg (fun l : List OpRow => Option.map OpRow.change l.getLast?) ?_
  exact List.filter_congr fun r _ => by simp [OpRow.key_change]

/-- **A restore to a point in time** gives, under each address, what the source stores when it
writes the bundle if the last op on the address by then is not a `FORGET`, and nothing otherwise:
a grain that was forgotten since stays forgotten. -/
theorem restored_contents {source : DejaDB} (hsource : Reachable C source)
    (hfits : source.BundleFits 0) (maxHlc : Option ℤ) (explicit : Option DejaDbOptions)
    (clock : ℕ → ℤ) {stats : ImportStats} {restored : DejaDB}
    (himport : importBundleUntil C (source.bundleSince 0) maxHlc (createStore C explicit clock) =
      .ok stats restored) (hash : Hash) :
    restored.db.contents hash =
      if ((source.db.oplog.filter fun r => r.hash = hash ∧ r.Until maxHlc).getLast?).any
          fun r => r.op ≠ .forget
      then source.db.contents hash else none := by
  have hempty : (createStore C explicit clock).db.contents = fun _ => none := by
    rw [createStore_eq]
    rfl
  have hlast : (((source.db.oplog.filter (OpRow.Until maxHlc)).filter
      fun r => r.hash = hash).getLast?).any (fun r => r.change.keeps) =
        ((source.db.oplog.filter fun r => r.hash = hash ∧ r.Until maxHlc).getLast?).any
          fun r => r.op ≠ .forget := by
    rw [List.filter_filter, funext OpRow.keeps_change]
    refine congrArg (fun l : List OpRow => l.getLast?.any _) (List.filter_congr fun r _ => ?_)
    simp
  rw [imported_contents hsource hfits (createStore_good C explicit clock) himport, hempty,
    replay_ship_last _ rfl, getLast?_changes, Option.any_map, ← hlast]

/-- Two facts added, and the first forgotten. -/
def forgottenSource : DejaDB := sampleStore.steps sampleCore
  [.add (sampleFact 1 1 1 2 3), .add (sampleFact 2 1 1 2 4), .forget (Hash.ofByte 1)]

/-- What a restore makes of it. -/
def forgottenRestore (maxHlc : Option ℤ) : Option DejaDB :=
  match importBundleUntil sampleCore (forgottenSource.bundleSince 0) maxHlc
    (createStore sampleCore none fun _ => 9) with
  | .ok _ restored => some restored
  | .error _ _ => none

/-- Before the `FORGET` both facts were there; only the second comes back. -/
theorem restored_without_forgotten : ∃ restored, forgottenRestore (some 589825) = some restored ∧
    restored.db.contents (Hash.ofByte 1) = none ∧
      (restored.db.contents (Hash.ofByte 2)).isSome := by
  have hsource : Reachable sampleCore forgottenSource := sampleStore_reachable.steps _
  have hfits : forgottenSource.BundleFits 0 := by decide +kernel
  have hsome : (forgottenRestore (some 589825)).isSome = true := by decide +kernel
  unfold forgottenRestore at hsome ⊢
  cases himport : importBundleUntil sampleCore (forgottenSource.bundleSince 0) (some 589825)
    (createStore sampleCore none fun _ => 9) with
  | error e s =>
    rw [himport] at hsome
    cases hsome
  | ok stats restored =>
    refine ⟨restored, rfl, ?_, ?_⟩
    · rw [restored_contents hsource hfits (some 589825) none (fun _ => 9) himport]
      decide +kernel
    · rw [restored_contents hsource hfits (some 589825) none (fun _ => 9) himport]
      decide +kernel

end Deja
