import Deja.Heads.Readers

/-!
# Adding a grain that is already stored

A content address is the content, so re-adding a stored grain should change
nothing, whichever of the three entry points it goes through.  `add` and
`add_batch` ask for the address first.  `add_if_novel` asks for the value instead:
where the current head of the key does not hold the object, it goes on to an
insert that the unique index on the address refuses.
-/

namespace Deja

open Run

variable {G : Type} {C : Core G}

/-- The address a grain is stored under. -/
def addressOf (C : Core G) (g : Grain G) : Option Hash :=
  match C.serializeGrain g with
  | .ok (_, hash) => some hash
  | .error _ => none

theorem addressOf_eq_some {g : Grain G} {hash : Hash} :
    addressOf C g = some hash ↔ ∃ blob, C.serializeGrain g = .ok (blob, hash) := by
  unfold addressOf
  cases C.serializeGrain g with
  | error e => simp
  | ok out => simp [Prod.ext_iff]

theorem Interns.has {a b : DejaDB} (h : Interns a b) (x : Hash) : b.has x = a.has x := by
  unfold DejaDB.has
  rw [h.file]
  rfl

/-! ## The two entry points that ask for the address -/

/-- `x` returns the addresses of `gs` and leaves the handle `y` leaves, or fails as
`y` does. -/
def BatchAs (C : Core G) (gs : List (Grain G)) (x y : EStateM.Result DejaDbError DejaDB
    (List Hash)) : Prop :=
  match y with
  | .ok _ st => ∃ hashes, x = .ok hashes st ∧
      List.Forall₂ (fun g hash => addressOf C g = some hash) gs hashes
  | .error e st => x = .error e st

/-- The batch without the grains at `hash`. -/
def without (C : Core G) (hash : Hash) (gs : List (Grain G)) : List (Grain G) :=
  gs.filter fun g => addressOf C g ≠ some hash

/-- One round of the first pass. -/
theorem prepNovel_cons (seen : List Hash) (g : Grain G) (gs : List (Grain G)) (st : DejaDB) :
    prepNovel C seen (g :: gs) st = match C.serializeGrain g with
      | .error e => .error e st
      | .ok (blob, hash) =>
        if hash ∈ seen ∨ st.has hash then
          match prepNovel C (hash :: seen) gs st with
          | .ok (hashes, preps) st' => .ok (hash :: hashes, preps) st'
          | .error e st' => .error e st'
        else
          match prepFromBlob C blob hash st with
          | .error e st' => .error e st'
          | .ok pr st₁ =>
            match prepNovel C (hash :: seen) gs st₁ with
            | .ok (hashes, preps) st' => .ok (hash :: hashes, pr :: preps) st'
            | .error e st' => .error e st' := by
  rw [prepNovel, bind_apply]
  cases C.serializeGrain g with
  | error e => rfl
  | ok out =>
    obtain ⟨blob, hash⟩ := out
    rw [show (lift (.ok (blob, hash)) : StoreM _) st = .ok (blob, hash) st from rfl]
    simp only [bind_apply, get_apply]
    split_ifs with hold
    · rw [bind_apply]
      cases prepNovel C (hash :: seen) gs st <;> rfl
    · rw [bind_apply]
      cases prepFromBlob C blob hash st with
      | error e s => rfl
      | ok pr s =>
        simp only [bind_apply]
        cases prepNovel C (hash :: seen) gs s <;> rfl

/-- The first pass skips a stored grain wherever it stands in the batch. -/
theorem prepNovel_without {hash : Hash} (gs : List (Grain G)) {seen seen' : List Hash}
    {st : DejaDB} (hstored : st.has hash = true)
    (hseen : ∀ x, x ≠ hash → (x ∈ seen' ↔ x ∈ seen)) :
    match prepNovel C seen (without C hash gs) st with
    | .ok (_, preps) st' => ∃ hashes, prepNovel C seen' gs st = .ok (hashes, preps) st' ∧
        List.Forall₂ (fun g x => addressOf C g = some x) gs hashes
    | .error e st' => prepNovel C seen' gs st = .error e st' := by
  induction gs generalizing seen seen' st with
  | nil => exact ⟨[], rfl, .nil⟩
  | cons g gs ih =>
    by_cases hg : addressOf C g = some hash
    · obtain ⟨blob, hser⟩ := addressOf_eq_some.1 hg
      rw [without, List.filter_cons_of_neg (by simpa using hg), ← without, prepNovel_cons, hser]
      simp only [hstored, or_true, if_true]
      have hrest := @ih seen (hash :: seen') st hstored fun x hx => by
        rw [List.mem_cons, hseen x hx, or_iff_right hx]
      cases hprep : prepNovel C seen (without C hash gs) st with
      | error e s =>
        rw [hprep] at hrest
        rw [hrest]
      | ok out s =>
        rw [hprep] at hrest
        obtain ⟨hashes, hrun, haddr⟩ := hrest
        rw [hrun]
        exact ⟨hash :: hashes, rfl, .cons hg haddr⟩
    · rw [without, List.filter_cons_of_pos (by simpa using hg), ← without, prepNovel_cons,
        prepNovel_cons]
      cases hser : C.serializeGrain g with
      | error e => rfl
      | ok out =>
        obtain ⟨blob, x⟩ := out
        have haddr : addressOf C g = some x := addressOf_eq_some.2 ⟨blob, hser⟩
        have hne : x ≠ hash := fun heq => hg (by rw [haddr, heq])
        have hcons : ∀ y, y ≠ hash → (y ∈ x :: seen' ↔ y ∈ x :: seen) := fun y hy => by
          rw [List.mem_cons, List.mem_cons, hseen y hy]
        simp only [hseen x hne]
        split_ifs with hold
        · have hrest := ih hstored hcons
          cases hprep : prepNovel C (x :: seen) (without C hash gs) st with
          | error e s =>
            rw [hprep] at hrest
            rw [hrest]
          | ok out s =>
            rw [hprep] at hrest
            obtain ⟨hashes, hrun, haddrs⟩ := hrest
            rw [hrun]
            exact ⟨x :: hashes, rfl, .cons haddr haddrs⟩
        · cases hpr : prepFromBlob C blob x st with
          | error e s => rfl
          | ok pr s =>
            simp only
            have hkept : s.has hash = true := by
              rw [((leads_prepFromBlob blob x).of_ok hpr).has]
              exact hstored
            have hrest := ih hkept hcons
            cases hprep : prepNovel C (x :: seen) (without C hash gs) s with
            | error e s =>
              rw [hprep] at hrest
              rw [hrest]
            | ok out s =>
              rw [hprep] at hrest
              obtain ⟨hashes, hrun, haddrs⟩ := hrest
              rw [hrun]
              exact ⟨x :: hashes, rfl, .cons haddr haddrs⟩

/-- A batch does what it does without the grain that is stored already. -/
theorem addBatch_without {hash : Hash} {st : DejaDB} (hstored : st.has hash = true)
    (gs : List (Grain G)) :
    BatchAs C gs (addBatch C gs st) (addBatch C (without C hash gs) st) := by
  have hnovel := @prepNovel_without G C hash gs [] [] st hstored fun _ _ => Iff.rfl
  unfold addBatch
  simp only [bind_apply]
  cases hprep : prepNovel C [] (without C hash gs) st with
  | error e s =>
    rw [hprep] at hnovel
    rw [hnovel]
    exact rfl
  | ok out s =>
    rw [hprep] at hnovel
    obtain ⟨hashes, hrun, haddrs⟩ := hnovel
    rw [hrun]
    simp only
    split_ifs with hempty
    · exact ⟨hashes, rfl, haddrs⟩
    · simp only [bind_apply, reserveFor_apply, stampMinReader_apply]
      unfold withTxn
      simp only
      split
      · rename_i heq
        split at heq
        · cases heq
          exact ⟨hashes, rfl, haddrs⟩
        · cases heq
      · rename_i heq
        split at heq
        · cases heq
        · cases heq
          exact rfl

/-! ## The entry point that asks for the value -/

/-- The first pass of `add_if_novel` fails where the bytes of the grain do not
decode. -/
theorem probeView_cases (C : Core G) {g : Grain G} {blob : Bytes} {hash : Hash}
    (hser : C.serializeGrain g = .ok (blob, hash)) (st : DejaDB) :
    (∃ e, C.deserializeBlob blob = .error e ∧ probeView C g st = .error e st) ∨
    ∃ view created st', C.deserializeBlob blob = .ok view ∧
      probeView C g st = .ok (extractView view created) st' ∧ Interns st st' ∧
      st'.db = st.db ∧ st'.dict = st.dict := by
  unfold probeView
  rw [bind_apply, hser]
  rw [show (lift (.ok (blob, hash)) : StoreM _) st = .ok (blob, hash) st from rfl]
  simp only [bind_apply]
  cases hview : C.deserializeBlob blob with
  | error e => exact .inl ⟨e, rfl, rfl⟩
  | ok view =>
    refine .inr ?_
    rw [show (lift (.ok view) : StoreM _) st = .ok view st from rfl]
    simp only
    unfold createdAtOf
    cases view.getI64 "created_at" with
    | some c => exact ⟨view, c, st, rfl, rfl, .refl st, rfl, rfl⟩
    | none => exact ⟨view, _, _, rfl, rfl, .of_tick st (st.tick + 1), rfl, rfl⟩

/-- `e` is the provisional head of the grain's key and holds its object, as the
dictionary spells them. -/
def DejaDB.HeadAt (st : DejaDB) (gv : GrainView) (e : LatestRow) : Prop :=
  e ∈ st.db.entityLatest ∧ ∃ s r o, gv.spo = some (s, r, o) ∧ st.dict.lookup gv.ns = some e.ns ∧
    st.dict.lookup s = some e.s ∧ st.dict.lookup r = some e.p ∧ st.dict.lookup o = some e.o

theorem headHashForObject_some {t : Tables} {k : Key} {o : ℤ} {hash : Hash}
    (h : t.headHashForObject k o = some hash) :
    ∃ e ∈ t.entityLatest, e.key = k ∧ e.o = o ∧ e.hash = hash := by
  obtain ⟨e, he, rfl⟩ := Option.map_eq_some_iff.1 h
  have hkey : e.key = k ∧ e.o = o := by simpa using List.find?_some he
  exact ⟨e, List.mem_of_find?_eq_some he, hkey.1, hkey.2, rfl⟩

theorem headHashForObject_of_mem {t : Tables} {e : LatestRow} (he : e ∈ t.entityLatest) :
    (t.headHashForObject e.key e.o).isSome := by
  unfold Tables.headHashForObject
  rw [Option.isSome_map, List.find?_isSome]
  exact ⟨e, he, by simp⟩

/-- The probe answers a head that holds the value. -/
theorem novelProbe_some {st : DejaDB} {gv : GrainView} {existing : Hash}
    (h : st.novelProbe gv = some existing) : ∃ e, st.HeadAt gv e ∧ e.hash = existing := by
  unfold DejaDB.novelProbe at h
  cases hspo : gv.spo with
  | none =>
    rw [hspo] at h
    cases h
  | some x =>
    obtain ⟨s, r, o⟩ := x
    rw [hspo] at h
    simp only at h
    split at h
    · rename_i k oid hk ho
      obtain ⟨e, he, rfl, rfl, hhash⟩ := headHashForObject_some h
      obtain ⟨hns, hs, hr⟩ := DejaDB.keyOf_eq_some.1 hk
      exact ⟨e, ⟨he, s, r, o, hspo, hns, hs, hr, ho⟩, hhash⟩
    · cases h

/-- The probe finds the value where a head holds it. -/
theorem novelProbe_of_headAt {st : DejaDB} {gv : GrainView} {e : LatestRow}
    (h : st.HeadAt gv e) : (st.novelProbe gv).isSome := by
  obtain ⟨he, s, r, o, hspo, hns, hs, hr, ho⟩ := h
  unfold DejaDB.novelProbe
  rw [hspo]
  simp only
  rw [(DejaDB.keyOf_eq_some (k := e.key)).2 ⟨hns, hs, hr⟩, DejaDB.termLookup, ho]
  exact headHashForObject_of_mem he

/-- The probe inside the transaction. -/
def Tables.novelProbe (t : Tables) (pr : GrainPrep) : Option Hash :=
  match pr.spo with
  | some (s, p, o) => t.headHashForObject ⟨pr.nsId, s, p⟩ o
  | none => none

/-- The probe inside the transaction is the probe of the prepared handle. -/
theorem Prepared.probe {st : DejaDB} {view : DeserializedGrain} {pr : GrainPrep}
    (h : Prepared C st view pr) (created : ℤ) :
    st.db.novelProbe pr = st.novelProbe (extractView view created) := by
  have hspo := h.spo
  unfold DejaDB.EncodesSpo at hspo
  unfold DejaDB.novelProbe Tables.novelProbe
  rw [show (extractView view created).spo = (extractView view pr.created).spo from rfl]
  cases hgv : (extractView view pr.created).spo with
  | none =>
    rw [hgv] at hspo
    simp only [GrainPrep.spo, hspo.1]
  | some x =>
    obtain ⟨s, r, o⟩ := x
    rw [hgv] at hspo
    obtain ⟨si, pi, oi, hs, hp, ho, hls, hlp, hlo⟩ := hspo
    simp only [GrainPrep.spo, hs, hp, ho]
    have hkey : st.keyOf (extractView view created).ns s r = some ⟨pr.nsId, si, pi⟩ :=
      DejaDB.keyOf_eq_some.2 ⟨h.ns, hls, hlp⟩
    rw [hkey, DejaDB.termLookup, hlo]

/-- A stored address is not inserted again. -/
theorem insertPreppedOne_stored {t : Tables} {pr : GrainPrep} (hstored : t.hasGrain pr.hash = true)
    (seq op hlc : ℤ) : ∃ e, t.insertPreppedOne pr seq op hlc = .error e := by
  have hgrain : ∃ e, t.insertGrain (pr.grainRow seq) = .error e := by
    unfold Tables.insertGrain
    split_ifs with hseq hhash
    · exact ⟨_, rfl⟩
    · exact ⟨_, rfl⟩
    · exact absurd hstored hhash
  obtain ⟨e, he⟩ := hgrain
  refine ⟨e, ?_⟩
  unfold Tables.insertPreppedOne
  rw [he]
  rfl

/-- The transaction of `add_if_novel` on a stored address: the value it finds, or an
error. -/
theorem addIfNovelTxn_stored {t : Tables} {pr : GrainPrep} (hstored : t.hasGrain pr.hash = true)
    (seq op hlc : ℤ) : match t.novelProbe pr with
      | some existing => t.addIfNovelTxn pr seq op hlc = .ok (some existing, t)
      | none => ∃ e, t.addIfNovelTxn pr seq op hlc = .error e := by
  rw [show t.addIfNovelTxn pr seq op hlc = match t.novelProbe pr with
    | some hash => .ok (some hash, t)
    | none => (t.insertPreppedOne pr seq op hlc).map fun t => (none, t) from rfl]
  cases t.novelProbe pr with
  | some existing => rfl
  | none =>
    obtain ⟨e, he⟩ := insertPreppedOne_stored hstored seq op hlc
    exact ⟨e, by rw [he]; rfl⟩

theorem stamped_dict (a : DejaDB) (preps : List GrainPrep) : (a.stamped preps).dict = a.dict := by
  unfold DejaDB.stamped DejaDB.after Run.after stampMinReader
  rw [modify_apply]
  simp only
  split_ifs <;> rfl

/-- The current head holds the value of the grain, by the dictionary as it stands
or once the grain is encoded. -/
def DejaDB.ValueCurrent (C : Core G) (st : DejaDB) (g : Grain G) : Prop :=
  ∃ gv st₁, probeView C g st = .ok gv st₁ ∧ ((∃ e, st₁.HeadAt gv e) ∨
    ∃ pr st₂, prepGrain C g st₁ = .ok pr st₂ ∧ ∃ e, st₂.HeadAt gv e)

/-- `add_if_novel` writes nothing for the grain at `hash` and answers its address,
or a current head that holds its value. -/
def NovelNothing (C : Core G) (st : DejaDB) (g : Grain G) (hash : Hash) : Prop :=
  ∃ existing st', addIfNovel C g st = .ok (existing, false) st' ∧
    (existing = hash ∨ ∃ blob view e, C.serializeGrain g = .ok (blob, hash) ∧
      C.deserializeBlob blob = .ok view ∧ st'.HeadAt (extractView view 0) e ∧
      e.hash = existing) ∧
    st'.db.grains = st.db.grains ∧ st'.db.oplog = st.db.oplog ∧ st'.db.heads = st.db.heads ∧
    st'.db.entityLatest = st.db.entityLatest

/-- What `add_if_novel` does where the probe finds no head. -/
def writeNovel (C : Core G) (g : Grain G) : StoreM (Hash × Bool) := do
  let (pr, firstSeq, firstOp, hlc0) ← prepAndReserve C g
  stampMinReader [pr]
  match ← withTxn fun t => t.addIfNovelTxn pr firstSeq firstOp hlc0 with
  | some existing => pure (existing, false)
  | none =>
    bumpStats [pr]
    pure (pr.hash, true)

/-- A stored grain goes through `add_if_novel` exactly when a current head holds its
value. -/
theorem novelNothing_iff {st : DejaDB} {g : Grain G} {blob : Bytes} {hash : Hash}
    (hok : VocabOk st) (hser : C.serializeGrain g = .ok (blob, hash))
    (hstored : st.has hash = true) : NovelNothing C st g hash ↔ st.ValueCurrent C g := by
  rcases probeView_cases C hser st with ⟨e, -, hprobe⟩ |
    ⟨view, c, st₁, hview, hprobe, hidle, hdb, hdict⟩
  · -- bytes that do not decode stop the call before any probe
    constructor
    · rintro ⟨existing, st', hrun, -⟩
      unfold addIfNovel at hrun
      rw [bind_apply, hprobe] at hrun
      cases hrun
    · rintro ⟨gv, st₁, hok, -⟩
      rw [hprobe] at hok
      cases hok
  · have hsame : st₁.db.grains = st.db.grains ∧ st₁.db.oplog = st.db.oplog ∧
        st₁.db.heads = st.db.heads ∧ st₁.db.entityLatest = st.db.entityLatest := by
      rw [hdb]
      exact ⟨rfl, rfl, rfl, rfl⟩
    have hview0 : ∀ s : DejaDB, ∀ e, s.HeadAt (extractView view c) e →
        s.HeadAt (extractView view 0) e := fun s e h => h
    have hcall : (∀ existing, st₁.novelProbe (extractView view c) = some existing →
        addIfNovel C g st = .ok (existing, false) st₁) ∧
        (st₁.novelProbe (extractView view c) = none →
          addIfNovel C g st = writeNovel C g st₁) := by
      unfold addIfNovel
      rw [bind_apply, hprobe]
      simp only [bind_apply, get_apply]
      constructor
      · intro existing hfirst
        rw [hfirst]
        rfl
      · intro hfirst
        rw [hfirst]
        rfl
    cases hfirst : st₁.novelProbe (extractView view c) with
    | some existing =>
      obtain ⟨e, hat, hhash⟩ := novelProbe_some hfirst
      have hcall := hcall.1 existing hfirst
      constructor
      · exact fun _ => ⟨_, st₁, hprobe, .inl ⟨e, hat⟩⟩
      · exact fun _ => ⟨existing, st₁, hcall,
          .inr ⟨blob, view, e, hser, hview, hview0 _ e hat, hhash⟩, hsame⟩
    | none =>
      have hcall := hcall.2 hfirst
      unfold writeNovel at hcall
      simp only [bind_apply] at hcall
      rcases prepAndReserve_cases C g st₁ with ⟨e, s, hprep, hres⟩ | ⟨pr, s, hprep, hres⟩
      · rw [hres] at hcall
        constructor
        · rintro ⟨existing, st', hrun, -⟩
          rw [hcall] at hrun
          cases hrun
        · rintro ⟨gv, s₁, hok, hat⟩
          rw [hprobe] at hok
          cases hok
          rcases hat with ⟨e', hat⟩ | ⟨pr, s', hok, -⟩
          · have := novelProbe_of_headAt hat
            rw [hfirst] at this
            cases this
          · rw [hprep] at hok
            cases hok
      · rw [hres] at hcall
        obtain ⟨hwritten, view', hprepared⟩ := prepGrain_ok (hidle.vocabOk hok) hprep
        have hbytes : (blob, hash) = (pr.blob, pr.hash) := by
          have := hser.symm.trans hwritten
          cases this
          rfl
        cases hbytes
        have hviews : view = view' := by
          have := hview.symm.trans hprepared.decodes
          cases this
          rfl
        cases hviews
        have hinterns := (leads_prepGrain g).of_ok hprep
        have hfile : (s.stamped [pr]).db.grains = st.db.grains ∧
            (s.stamped [pr]).db.oplog = st.db.oplog ∧ (s.stamped [pr]).db.heads = st.db.heads ∧
            (s.stamped [pr]).db.entityLatest = st.db.entityLatest := by
          rw [(stamped_idle s [pr]).file, hinterns.file, hdb]
          exact ⟨rfl, rfl, rfl, rfl⟩
        have hlatest : (s.stamped [pr]).db.entityLatest = s.db.entityLatest := by
          rw [(stamped_idle s [pr]).file]
        have hhas : (s.stamped [pr]).db.hasGrain pr.hash = true := by
          rw [DejaDB.has, Tables.hasGrain, ← hfile.1] at hstored
          exact hstored
        have hsecond := addIfNovelTxn_stored hhas s.nextSeq s.nextOp s.nextHlcValue
        have hsame : (s.stamped [pr]).db.novelProbe pr = s.novelProbe (extractView view c) := by
          rw [← hprepared.probe c]
          unfold Tables.novelProbe Tables.headHashForObject
          rw [hlatest]
        rw [hsame] at hsecond
        simp only [stampMinReader_apply, stamped_counters, withTxn] at hcall
        cases hagain : s.novelProbe (extractView view c) with
        | some existing =>
          rw [hagain] at hsecond
          rw [hsecond] at hcall
          obtain ⟨e, hat, hhash⟩ := novelProbe_some hagain
          have hatlast : ({ s.stamped [pr] with
              nextSeq := s.nextSeq + 1
              nextOp := s.nextOp + 1
              hlcLast := s.nextHlcValue
              tick := s.tick + 1 } : DejaDB).HeadAt (extractView view 0) e := by
            obtain ⟨he, sj, r, o, hspo, hids⟩ := hat
            refine ⟨by rw [← hlatest] at he; exact he, sj, r, o, hspo, ?_⟩
            rw [← stamped_dict s [pr]] at hids
            exact hids
          exact ⟨fun _ => ⟨_, st₁, hprobe, .inr ⟨pr, s, hprep, e, hat⟩⟩,
            fun _ => ⟨existing, _, hcall, .inr ⟨_, view, e, hser, hview, hatlast, hhash⟩, hfile⟩⟩
        | none =>
          rw [hagain] at hsecond
          obtain ⟨e, he⟩ := hsecond
          rw [he] at hcall
          constructor
          · rintro ⟨existing, st', hrun, -⟩
            rw [hcall] at hrun
            cases hrun
          · rintro ⟨gv, s₁, hok, hat⟩
            rw [hprobe] at hok
            cases hok
            rcases hat with ⟨e', hat⟩ | ⟨pr', s', hok, e', hat⟩
            · have := novelProbe_of_headAt hat
              rw [hfirst] at this
              cases this
            · rw [hprep] at hok
              cases hok
              have := novelProbe_of_headAt hat
              rw [hagain] at this
              cases this

/-! ## Re-adding -/

/-- Re-adding the stored grain `g` changes nothing on any entry point. -/
structure ReaddsNothing (C : Core G) (st : DejaDB) (g : Grain G) (hash : Hash) : Prop where
  add : Deja.add C g st = .ok hash st
  copies : ∀ n, addBatch C (List.replicate n g) st = .ok (List.replicate n hash) st
  batch : ∀ gs, BatchAs C gs (addBatch C gs st) (addBatch C (without C hash gs) st)
  novel : NovelNothing C st g hash

theorem addBatch_nil (st : DejaDB) : addBatch C [] st = .ok [] st := rfl

theorem addBatch_copies {st : DejaDB} {g : Grain G} {hash : Hash}
    (haddr : addressOf C g = some hash) (hstored : st.has hash = true) (n : ℕ) :
    addBatch C (List.replicate n g) st = .ok (List.replicate n hash) st := by
  have hbatch := addBatch_without (C := C) hstored (List.replicate n g)
  have hnone : without C hash (List.replicate n g) = [] := by
    rw [without, List.filter_eq_nil_iff]
    intro x hx
    rw [(List.mem_replicate.1 hx).2]
    simp [haddr]
  rw [hnone, addBatch_nil] at hbatch
  obtain ⟨hashes, hrun, haddrs⟩ := hbatch
  have hcopies : hashes = List.replicate n hash := by
    refine List.eq_replicate_iff.2 ⟨by rw [← haddrs.length_eq, List.length_replicate], ?_⟩
    intro x hx
    obtain ⟨y, hy, hxy⟩ := forall₂_exists_left haddrs x hx
    rw [(List.mem_replicate.1 hy).2, haddr] at hxy
    cases hxy
    rfl
  rw [hrun, hcopies]

theorem add_stored {st : DejaDB} {g : Grain G} {hash : Hash}
    (haddr : addressOf C g = some hash) (hstored : st.has hash = true) :
    add C g st = .ok hash st := by
  have hcopy := addBatch_copies haddr hstored 1
  unfold add
  rw [bind_apply]
  rw [show addBatch C [g] st = .ok [hash] st from hcopy]
  rfl

/-- **Re-adding a stored grain is a no-op** on every entry point exactly when the
current head of its key holds its value: `add` and `add_batch` never write it
again, `add_if_novel` runs into the unique index where no head holds the value. -/
theorem readds_nothing_iff {st : DejaDB} (h : Reachable C st) {g : Grain G} {hash : Hash}
    (haddr : addressOf C g = some hash) (hstored : st.has hash = true) :
    ReaddsNothing C st g hash ↔ st.ValueCurrent C g := by
  obtain ⟨blob, hser⟩ := addressOf_eq_some.1 haddr
  have hnovel := novelNothing_iff h.good.vocabOk hser hstored
  constructor
  · exact fun hadds => hnovel.1 hadds.novel
  · exact fun hcurrent => ⟨add_stored haddr hstored, addBatch_copies haddr hstored,
      addBatch_without hstored, hnovel.2 hcurrent⟩

/-- A file that holds the fact `(1, 2, 3)`. -/
def heldFact : DejaDB := sampleStore.steps sampleCore [.add (sampleFact 1 5 1 2 3)]

/-- The probe of `add_if_novel` finds a head. -/
def probeFinds (C : Core G) (g : Grain G) (st : DejaDB) : Bool :=
  match probeView C g st with
  | .ok gv st₁ => (st₁.novelProbe gv).isSome
  | .error _ _ => false

/-- The fact is the head of its key, so adding it again changes nothing. -/
theorem readds_nothing_heldFact :
    ReaddsNothing sampleCore heldFact (sampleFact 1 5 1 2 3) (Hash.ofByte 1) := by
  refine (readds_nothing_iff (sampleStore_reachable.steps _) (by decide +kernel)
    (by decide +kernel)).2 ?_
  have hprobe : probeFinds sampleCore (sampleFact 1 5 1 2 3) heldFact = true := by decide +kernel
  unfold probeFinds at hprobe
  split at hprobe
  · rename_i gv st₁ heq
    obtain ⟨existing, hsome⟩ := Option.isSome_iff_exists.1 hprobe
    obtain ⟨e, hat, -⟩ := novelProbe_some hsome
    exact ⟨gv, st₁, heq, .inl ⟨e, hat⟩⟩
  · cases hprobe

/-- The fact `(1, 2, 3)` with the fact `(1, 2, 4)` on top. -/
def overwrittenFact : DejaDB :=
  sampleStore.steps sampleCore [.add (sampleFact 1 5 1 2 3), .add (sampleFact 2 6 1 2 4)]

/-- Once another value is the head, `add_if_novel` refuses the stored fact. -/
theorem readds_overwritten_fails :
    ¬ ∀ (st : DejaDB) (g : Grain SampleBody) (hash : Hash), Reachable sampleCore st →
      addressOf sampleCore g = some hash → st.has hash = true →
      ReaddsNothing sampleCore st g hash := by
  intro h
  obtain ⟨existing, st', hrun, -⟩ := (h overwrittenFact (sampleFact 1 5 1 2 3) (Hash.ofByte 1)
    (sampleStore_reachable.steps _) (by decide +kernel) (by decide +kernel)).novel
  have hfails : (match addIfNovel sampleCore (sampleFact 1 5 1 2 3) overwrittenFact with
      | .ok _ _ => true
      | .error _ _ => false) = false := by decide +kernel
  rw [hrun] at hfails
  cases hfails

end Deja
