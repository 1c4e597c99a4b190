import Deja.Heads.Chain
import Deja.Writes.Batched

/-!
# Reading a key as it was known

A read at a past time of knowledge starts at today's head and follows `supersedes`.
A supersession writes that pointer and a plain `add` does not: the walk passes through
every version since the last add as long as each write superseded the head, and never
past an add.

* `add_wrote`, `supersede_wrote` — what one write leaves.
* `Evolves.followed` — a run in line stays chained.
* `knowledge_replays` — what the reads answer after such a run.
-/

namespace Deja

open Run

variable {G : Type} {C : Core G} {ns subject relation : String}

/-! ## What a walk reads of a grain -/

/-- What the walks read of a stored grain. -/
structure Link where
  svf : ℤ
  supersedes : Option Hash
  blob : Bytes
  key : Option Key

/-- The link of a row. -/
def GrainRow.link (g : GrainRow) : Link := ⟨g.svf, g.supersedes, g.blob, g.key⟩

namespace Tables

variable {t t' : Tables} {pr : GrainPrep}

/-- The link stored at an address. -/
def linkAt (t : Tables) (x : Hash) : Option Link := (t.grainByHash x).map GrainRow.link

theorem find_map_of_hash {f : GrainRow → GrainRow} (hf : ∀ g, (f g).hash = g.hash)
    (l : List GrainRow) (x : Hash) :
    ((l.map f).find? fun g => g.hash = x) = (l.find? fun g => g.hash = x).map f := by
  rw [List.find?_map]
  congr 2
  funext g
  simp only [Function.comp_apply, hf]

/-- An insert adds the link of its grain. -/
theorem linkAt_insert {seq op hlc : ℤ} (h : t.insertPreppedOne pr seq op hlc = .ok t') (x : Hash) :
    t'.linkAt x = if x = pr.hash then some (pr.grainRow seq).link else t.linkAt x := by
  obtain ⟨hins, -⟩ := insertPreppedOne_ok h
  have hfresh := hins.freshHash
  unfold linkAt grainByHash at *
  rw [hins.grains, List.find?_append]
  split_ifs with hx
  · subst hx
    rw [hfresh]
    simp [GrainPrep.grainRow]
  · have hne : ¬pr.hash = x := fun heq => hx heq.symm
    simp [GrainPrep.grainRow, hne]

/-- A flip writes the pointer of the new grain and no other. -/
theorem linkAt_flipped (t : Tables) (seq : ℤ) (old new : Hash) (now : ℤ) (x : Hash) :
    (t.flipped seq old new now).linkAt x =
      (t.linkAt x).map fun l => if x = new then { l with supersedes := some old } else l := by
  have hgrains : (t.flipped seq old new now).grains = (t.grains.map fun g =>
      if g.seq = seq then { g with supersededBy := some new, svt := some now } else g).map fun g =>
      if g.hash = new then { g with supersedes := some old } else g := rfl
  unfold linkAt grainByHash
  rw [hgrains, find_map_of_hash fun g => by split_ifs <;> rfl,
    find_map_of_hash fun g => by split_ifs <;> rfl]
  cases hfound : t.grains.find? fun g => g.hash = x with
  | none => rfl
  | some g =>
    have hhash : g.hash = x := by simpa using List.find?_some hfound
    subst hhash
    simp only [Option.map_some]
    split_ifs <;> rfl

theorem linkAt_congr {t t' : Tables} (h : t'.grains = t.grains) (x : Hash) :
    t'.linkAt x = t.linkAt x := by
  unfold linkAt grainByHash
  rw [h]

/-- The provisional head of a key all of whose rows name `new`. -/
theorem latestOf_of_all {k : Key} {new : Hash} (hex : ∃ e ∈ t.entityLatest, e.key = k)
    (hall : ∀ e ∈ t.entityLatest, e.key = k → e.hash = new) :
    ∃ e, t.latestOf k = some e ∧ e.hash = new := by
  obtain ⟨e₀, he₀, hk₀⟩ := hex
  have hsome : (t.latestOf k).isSome := List.find?_isSome.2 ⟨e₀, he₀, by simpa using hk₀⟩
  obtain ⟨e, he⟩ := Option.isSome_iff_exists.1 hsome
  exact ⟨e, he, hall e (List.mem_of_find?_eq_some he) (by simpa using List.find?_some he)⟩

/-- After a collapse the tips and the provisional head of the key are the grain. -/
theorem collapseHeads_key (t : Tables) (seq : ℤ) {s p o : ℤ} (hspo : pr.spo = some (s, p, o)) :
    (∀ h ∈ (t.collapseHeads pr seq).heads, h.key = ⟨pr.nsId, s, p⟩ → h.hash = pr.hash) ∧
    (∃ e ∈ (t.collapseHeads pr seq).entityLatest, e.key = ⟨pr.nsId, s, p⟩ ∧ e.seq = seq) ∧
    ∀ e ∈ (t.collapseHeads pr seq).entityLatest, e.key = ⟨pr.nsId, s, p⟩ → e.hash = pr.hash := by
  unfold collapseHeads
  rw [hspo]
  refine ⟨fun h hh hk => ?_, ⟨_, List.mem_append_right _ (List.mem_singleton_self _), rfl, rfl⟩,
    fun e he hk => ?_⟩
  · rcases List.mem_append.1 hh with hh | hh
    · exact absurd hk (by simpa using (List.mem_filter.1 hh).2)
    · rw [List.mem_singleton.1 hh]
  · rcases List.mem_append.1 he with he | he
    · exact absurd hk (of_decide_eq_true (List.mem_filter.1 he).2)
    · rw [List.mem_singleton.1 he]

/-- Retiring another grain's tip leaves the head where it is. -/
theorem latestOf_retireTip {k : Key} {seq : ℤ} {new : Hash}
    (hheads : ∀ h ∈ t.heads, h.key = k → h.hash = new)
    (hex : ∃ e ∈ t.entityLatest, e.key = k ∧ e.seq ≠ seq)
    (hall : ∀ e ∈ t.entityLatest, e.key = k → e.hash = new) :
    ∃ e, (t.retireTip (some k) seq).latestOf k = some e ∧ e.hash = new := by
  obtain ⟨e₀, he₀, hk₀, hseq₀⟩ := hex
  unfold retireTip reelect
  simp only
  cases helect : ((t.deleteHead k seq).deleteLatest k [seq]).elect k with
  | none =>
    refine latestOf_of_all ⟨e₀, List.mem_filter.2 ⟨he₀, by simp [hseq₀]⟩, hk₀⟩ fun e he => ?_
    exact hall e (List.mem_filter.1 he).1
  | some x =>
    obtain ⟨o, h⟩ := x
    have htip := List.argmax_mem helect
    obtain ⟨h', hh', htr⟩ := List.mem_flatMap.1 htip
    obtain ⟨tr, -, heq⟩ := List.mem_map.1 htr
    obtain ⟨-, rfl⟩ := Prod.mk.inj heq
    obtain ⟨hmem, hkey⟩ := List.mem_filter.1 hh'
    have hhash : h'.hash = new := hheads h' (List.mem_filter.1 hmem).1 (by simpa using hkey)
    refine latestOf_of_all ⟨_, List.mem_append_right _ (List.mem_singleton_self _), rfl⟩
      fun e he hk => ?_
    rcases List.mem_append.1 he with he | he
    · exact absurd hk (of_decide_eq_true (List.mem_filter.1 he).2)
    · rw [List.mem_singleton.1 he]
      exact hhash

end Tables

/-! ## One write -/

/-- A write of a value under a key. -/
inductive ValueWrite (G : Type) where
  | add (g : Grain G)
  | supersede (old : Hash) (g : Grain G)
  | merge (g : Grain G)

/-- Run a write on the key. -/
def ValueWrite.run (C : Core G) (ns subject relation : String) : ValueWrite G → StoreM Hash
  | .add g => Deja.add C g
  | .supersede old g => Deja.supersede C old g
  | .merge g => mergeHeads C ns subject relation g

/-- The grain at `hash` is a value of the key, created at `time`. -/
def DejaDB.Holds (C : Core G) (ns subject relation : String) (st : DejaDB) (time : ℤ)
    (hash : Hash) : Prop :=
  ∃ g view, st.db.grainByHash hash = some g ∧ C.deserializeBlob g.blob = .ok view ∧
    (view.getStr "namespace").getD "shared" = ns ∧ view.getStr "subject" = some subject ∧
    view.getStr "relation" = some relation ∧ (view.getStr "object").isSome ∧
    view.getI64 "created_at" = some time

/-- What a write that returned left: the new grain `pr`, linked to `prev`, is the head
of its key. -/
structure Wrote (C : Core G) (prev : Option Hash) (pr : GrainPrep) (st s st' : DejaDB) : Prop where
  interns : Interns st s
  prepared : ∃ view, Prepared C s view pr
  address : pr.hash = C.contentAddress pr.blob
  dict : st'.dict = s.dict
  fresh : st.db.linkAt pr.hash = none
  links : ∀ x, st'.db.linkAt x = if x = pr.hash then
    some ⟨pr.created, prev, pr.blob, (pr.grainRow 0).key⟩ else st.db.linkAt x
  latest : ∀ a b o, pr.spo = some (a, b, o) →
    (∀ old ∈ prev, (st.db.linkAt old).map Link.key = some (some ⟨pr.nsId, a, b⟩)) →
    ∃ e, st'.db.latestOf ⟨pr.nsId, a, b⟩ = some e ∧ e.hash = pr.hash

theorem insertBatch_ok {preps : List GrainPrep} {s s' : DejaDB} {u : Unit}
    (h : insertBatch preps s = .ok u s') :
    (s.stamped preps).db.insertPrepped preps s.nextSeq s.nextOp s.nextHlcValue = .ok s'.db ∧
      s'.dict = s.dict := by
  unfold insertBatch at h
  simp only [bind_apply, reserveFor_apply, stampMinReader_apply, stamped_counters, withTxn] at h
  cases hins : (s.stamped preps).db.insertPrepped preps s.nextSeq s.nextOp s.nextHlcValue with
  | error e =>
    rw [hins] at h
    cases h
  | ok t =>
    rw [hins] at h
    cases h
    exact ⟨rfl, stamped_dict s preps⟩

theorem Interns.linkAt {a b : DejaDB} (h : Interns a b) (x : Hash) :
    b.db.linkAt x = a.db.linkAt x := Tables.linkAt_congr (by rw [h.file]) x

/-- An add of a new grain prepares it and inserts it. -/
theorem add_inserts {g : Grain G} {st st' : DejaDB} {hash : Hash}
    (hnew : st.has hash = false) (h : add C g st = .ok hash st') : ∃ blob pr s,
      C.serializeGrain g = .ok (blob, hash) ∧ prepFromBlob C blob hash st = .ok pr s ∧
      (s.stamped [pr]).db.insertPreppedOne pr s.nextSeq s.nextOp s.nextHlcValue = .ok st'.db ∧
      st'.dict = s.dict := by
  unfold add at h
  rw [bind_apply, addBatch_apply, prepNovel_cons] at h
  cases hser : C.serializeGrain g with
  | error e =>
    rw [hser] at h
    cases h
  | ok out =>
    obtain ⟨blob, x⟩ := out
    rw [hser] at h
    simp only [List.not_mem_nil, false_or] at h
    split_ifs at h with hold
    · cases h
      rw [hold] at hnew
      cases hnew
    · cases hprep : prepFromBlob C blob x st with
      | error e s =>
        rw [hprep] at h
        cases h
      | ok pr s =>
        rw [hprep] at h
        simp only [prepNovel, pure_apply] at h
        cases hins : insertBatch [pr] s with
        | error e s' =>
          simp [hins] at h
        | ok u s' =>
          simp only [List.isEmpty_cons, Bool.false_eq_true, if_false, hins] at h
          cases h
          obtain ⟨hrows, hdict⟩ := insertBatch_ok hins
          obtain ⟨t, hone, hnil⟩ := except_bind_ok hrows
          cases hnil
          exact ⟨blob, pr, s, rfl, hprep, hone, hdict⟩

/-- An add of a new grain leaves it as the head, linked to nothing. -/
theorem add_wrote {g : Grain G} {st st' : DejaDB} {hash : Hash} (hok : VocabOk st)
    (hnew : st.has hash = false) (h : add C g st = .ok hash st') :
    ∃ pr s, pr.hash = hash ∧ Wrote C none pr st s st' := by
  obtain ⟨blob, pr, s, hser, hprep, hone, hdict⟩ := add_inserts hnew h
  obtain ⟨rfl, rfl, view, hview⟩ := prepFromBlob_ok hok hprep
  have hinterns := (leads_prepFromBlob pr.blob pr.hash).of_ok hprep
  have hsame : ∀ y, (s.stamped [pr]).db.linkAt y = st.db.linkAt y := fun y =>
    (Tables.linkAt_congr (by rw [(stamped_idle s [pr]).file]) y).trans (hinterns.linkAt y)
  obtain ⟨hinserts, -, hlatest, -⟩ := Tables.insertPreppedOne_ok hone
  refine ⟨pr, s, rfl, hinterns, ⟨view, hview⟩, Core.serializeGrain_hash hser, hdict, ?_,
    fun y => ?_, fun a b o hspo _ => ?_⟩
  · rw [← hsame, Tables.linkAt, hinserts.freshHash]
    rfl
  · rw [Tables.linkAt_insert hone, hsame]
    rfl
  · obtain ⟨-, ⟨e, he, hk, -⟩, hall⟩ := Tables.collapseHeads_key (s.stamped [pr]).db
      s.nextSeq hspo
    rw [← hlatest] at he hall
    exact Tables.latestOf_of_all ⟨e, he, hk⟩ hall

/-- A supersession that returned ran its transaction on the prepared handle. -/
theorem supersede_ok {old : Hash} {g : Grain G} {st st' : DejaDB} {hash : Hash}
    (h : supersede C old g st = .ok hash st') :
    ∃ row pr s n, st.db.grainByHash old = some row ∧
      prepGrain C { g with derivedFrom := some old.toHex } st = .ok pr s ∧
      s.db.supersedeTxn old row.key pr n = .ok st'.db ∧ st'.dict = s.dict ∧ pr.hash = hash := by
  unfold supersede at h
  rw [bind_apply, get_apply] at h
  simp only at h
  cases hrow : st.db.grainByHash old with
  | none =>
    rw [hrow] at h
    cases h
  | some row =>
    rw [hrow] at h
    simp only at h
    split_ifs at h with hsvt
    · cases h
    · rcases prepAndReserve_cases C { g with derivedFrom := some old.toHex } st with
        ⟨e, s, hprep, hres⟩ | ⟨pr, s, hprep, hres⟩
      · rw [bind_apply, hres] at h
        cases h
      · rw [bind_apply, hres] at h
        simp only [bind_apply, nowMs, reserveOp_apply, withTxn] at h
        cases htxn : s.db.supersedeTxn old row.key pr ⟨s.nextSeq, s.nextOp, s.nextHlcValue,
            s.nextOp + 1, advanceHlc s.nextHlcValue (s.clock (s.tick + 1 + 1)),
            s.clock (s.tick + 1)⟩ with
        | error e =>
          simp only [DejaDB.nextHlcValue] at htxn h
          rw [htxn] at h
          cases h
        | ok t =>
          have hran := htxn
          simp only [DejaDB.nextHlcValue] at htxn h
          rw [htxn] at h
          cases h
          exact ⟨row, pr, s, _, rfl, hprep, hran, rfl, rfl⟩

/-- A supersession leaves its grain as the head, linked to the old one. -/
theorem supersede_wrote {old : Hash} {g : Grain G} {st st' : DejaDB} {hash : Hash}
    (hok : VocabOk st) (h : supersede C old g st = .ok hash st') :
    ∃ pr s, pr.hash = hash ∧ Wrote C (some old) pr st s st' := by
  obtain ⟨row, pr, s, n, hrow, hprep, htxn, hdict, rfl⟩ := supersede_ok h
  obtain ⟨hwritten, view, hview⟩ := prepGrain_ok hok hprep
  have hinterns := (leads_prepGrain _).of_ok hprep
  have hdb : s.db.grainByHash old = some row := by
    rw [Tables.grainByHash, hinterns.file]
    exact hrow
  obtain ⟨-, t₁, hins, hrest⟩ := Tables.supersedeTxn_ok hdb htxn
  obtain ⟨hinserts, hheads, hlatest, -⟩ := Tables.insertPreppedOne_ok hins
  refine ⟨pr, s, rfl, hinterns, ⟨view, hview⟩, Core.serializeGrain_hash hwritten, hdict, ?_,
    fun y => ?_, fun a b o hspo hkey => ?_⟩
  · rw [← hinterns.linkAt, Tables.linkAt, hinserts.freshHash]
    rfl
  · have hgrains : st'.db.grains = (t₁.flipped row.seq old pr.hash n.now).grains := by
      rw [hrest]
      exact (Tables.retireTip_frame _ row.key row.seq).grains
    rw [Tables.linkAt_congr hgrains, Tables.linkAt_flipped, Tables.linkAt_insert hins,
      hinterns.linkAt]
    split_ifs
    · rfl
    · exact Option.map_id'
  · have hrowkey : row.key = some ⟨pr.nsId, a, b⟩ := by
      have := hkey old rfl
      rw [Tables.linkAt, hrow] at this
      exact Option.some.inj this
    have hseq : row.seq ≠ n.seq := hinserts.freshSeq row (Tables.grainByHash_some hdb).1
    obtain ⟨htips, ⟨e, he, hk, hes⟩, hall⟩ := Tables.collapseHeads_key s.db n.seq hspo
    rw [← hheads] at htips
    rw [← hlatest] at he hall
    have hretire := @Tables.latestOf_retireTip (t₁.flipped row.seq old pr.hash n.now)
      ⟨pr.nsId, a, b⟩ row.seq pr.hash htips
      ⟨e, he, hk, fun heq => hseq (heq.symm.trans hes)⟩ hall
    rw [hrest, hrowkey]
    exact hretire

/-! ## Versions -/

/-- One version of a key: when it was written, its address and the store it left. -/
structure Version where
  time : ℤ
  hash : Hash
  state : DejaDB

/-- The version is stored under its time, linked to the one before it, and it is what
`latest` answered when it was written. -/
def Tied (C : Core G) (ns subject relation : String) (st : DejaDB) (k : Key) (prev : Option Hash)
    (v : Version) : Prop :=
  ∃ blob view, st.db.linkAt v.hash = some ⟨v.time, prev, blob, some k⟩ ∧
    C.deserializeBlob blob = .ok view ∧ view.hash = v.hash ∧
    v.state.latest C ns subject relation = .ok (some view)

/-- Every version, newest first, is tied to the next one of the list. -/
def Chained (C : Core G) (ns subject relation : String) (st : DejaDB) (k : Key) :
    List Version → Prop
  | [] => True
  | v :: vs => Tied C ns subject relation st k (vs.head?.map Version.hash) v ∧
      Chained C ns subject relation st k vs

theorem Chained.keep {st st' : DejaDB} {k : Key} {vs : List Version}
    (h : Chained C ns subject relation st k vs)
    (hkeep : ∀ x l, st.db.linkAt x = some l → st'.db.linkAt x = some l) :
    Chained C ns subject relation st' k vs := by
  induction vs with
  | nil => trivial
  | cons v vs ih =>
    obtain ⟨⟨blob, view, hlink, hrest⟩, hvs⟩ := h
    exact ⟨⟨blob, view, hkeep _ _ hlink, hrest⟩, ih hvs⟩

/-- One step of the walk. -/
theorem walkBack_link {st : DejaDB} {x : Hash} {l : Link} (h : st.db.linkAt x = some l) (when : ℤ)
    (fuel : ℕ) : st.walkBack C when (fuel + 1) x =
      if l.svf ≤ when then some ((C.deserializeBlob l.blob).map some)
      else match l.supersedes with
        | some prev => st.walkBack C when fuel prev
        | none => some (.ok none) := by
  obtain ⟨g, hg, rfl⟩ := Option.map_eq_some_iff.1 h
  rw [DejaDB.walkBack, hg]
  rfl

/-- **The walk stops at the version that was known.** -/
theorem Chained.walkBack {st : DejaDB} {k : Key} {newer older : List Version} {v : Version}
    {when : ℤ} (h : Chained C ns subject relation st k (newer ++ v :: older))
    (hv : v.time ≤ when) (hnewer : ∀ x ∈ newer, when < x.time) :
    ∃ fuel view, v.state.latest C ns subject relation = .ok (some view) ∧
      ∀ x, (newer ++ v :: older).head?.map Version.hash = some x →
        st.walkBack C when fuel x = some (.ok (some view)) := by
  induction newer with
  | nil =>
    obtain ⟨⟨blob, view, hlink, hdecodes, -, hlatest⟩, -⟩ := h
    refine ⟨1, view, hlatest, fun x hx => ?_⟩
    cases hx
    rw [walkBack_link hlink, if_pos hv, hdecodes]
    rfl
  | cons y newer ih =>
    obtain ⟨⟨blob, view, hlink, -⟩, hrest⟩ := h
    obtain ⟨fuel, view', hlatest, hwalk⟩ := ih hrest fun x hx =>
      hnewer x (List.mem_cons_of_mem y hx)
    refine ⟨fuel + 1, view', hlatest, fun x hx => ?_⟩
    cases hx
    have hlater : ¬y.time ≤ when := by
      have := hnewer y List.mem_cons_self
      omega
    rw [walkBack_link hlink, if_neg hlater]
    cases hnext : (newer ++ v :: older).head?.map Version.hash with
    | none => simp at hnext
    | some x => exact hwalk x hnext

/-- The history of a chain is the chain, as far as there is room. -/
theorem Chained.historyFrom {st : DejaDB} {k : Key} {vs : List Version}
    (h : Chained C ns subject relation st k vs) (room : ℕ) {x : Hash}
    (hx : vs.head?.map Version.hash = some x) :
    ∃ es, st.historyFrom C room x = .ok es ∧
      es.map DejaDB.HistoryEntry.hash = (vs.map Version.hash).take room := by
  induction vs generalizing room x with
  | nil => cases hx
  | cons v vs ih =>
    cases hx
    obtain ⟨⟨blob, view, hlink, hdecodes, -⟩, hrest⟩ := h
    obtain ⟨g, hg, hlinked⟩ := Option.map_eq_some_iff.1 hlink
    have hblob : g.blob = blob := congrArg Link.blob hlinked
    have hprev : g.supersedes = vs.head?.map Version.hash := congrArg Link.supersedes hlinked
    cases room with
    | zero => exact ⟨[], rfl, rfl⟩
    | succ room =>
      rw [DejaDB.historyFrom, hg]
      simp only [hblob, hdecodes, hprev]
      cases vs with
      | nil => exact ⟨_, rfl, by simp⟩
      | cons w ws =>
        obtain ⟨es, hes, hmap⟩ := ih hrest room rfl
        simp only [List.head?_cons, Option.map_some, hes]
        exact ⟨_, rfl, by rw [List.map_cons, List.map_cons, List.take_succ_cons, hmap]⟩

/-! ## The run -/

/-- A run of writes on one key, newest first, each stored as a value created after
those before it. -/
inductive Evolves (C : Core G) (ns subject relation : String) (start : DejaDB) :
    List (ValueWrite G) → List Version → DejaDB → Prop where
  | start : Evolves C ns subject relation start [] [] start
  | write {ws : List (ValueWrite G)} {vs : List Version} {st st' : DejaDB} {w : ValueWrite G}
      {time : ℤ} {hash : Hash} (h : Evolves C ns subject relation start ws vs st)
      (hrun : w.run C ns subject relation st = .ok hash st')
      (hholds : st'.Holds C ns subject relation time hash)
      (hlater : ∀ v ∈ vs, v.time < time) :
      Evolves C ns subject relation start (w :: ws) (⟨time, hash, st'⟩ :: vs) st'

/-- The first write is an add and every later one supersedes what the write before it
left. -/
def InLine : List (ValueWrite G) → List Version → Prop
  | [], _ => True
  | [.add _], _ => True
  | .supersede old _ :: ws, _ :: v :: vs => old = v.hash ∧ InLine ws (v :: vs)
  | _, _ => False

/-- A read as of a time between a version and the next answers what `latest` answered
then, and `history` lists the versions, newest first and at most `room` of them. -/
structure Replays (C : Core G) (ns subject relation : String) (room : ℕ) (vs : List Version)
    (st : DejaDB) : Prop where
  known : ∀ newer v older when, vs = newer ++ v :: older → v.time ≤ when →
    (∀ x ∈ newer, when < x.time) → ∃ fuel view,
      v.state.latest C ns subject relation = .ok (some view) ∧
      st.entityAtKnowledge C ns subject relation when fuel = some (.ok (some view))
  listed : vs ≠ [] → ∃ es, st.history C ns subject relation = .ok es ∧
    es.map DejaDB.HistoryEntry.hash = (vs.map Version.hash).take room

/-- What a run in line keeps: the versions are chained under the key, and the head is
what `latest` answers. -/
structure Followed (C : Core G) (ns subject relation : String) (start : DejaDB)
    (vs : List Version) (st : DejaDB) : Prop where
  empty : vs = [] → st = start
  chained : vs ≠ [] → ∃ k, st.keyOf ns subject relation = some k ∧
    Chained C ns subject relation st k vs ∧ vs.head?.map Version.state = some st

/-- A write that returned, seen from the key: its version is tied to the one before. -/
theorem Wrote.tied {prev : Option Hash} {pr : GrainPrep} {st s st' : DejaDB} {time : ℤ}
    (hw : Wrote C prev pr st s st') (hholds : st'.Holds C ns subject relation time pr.hash)
    (hprev : ∀ old ∈ prev, ∃ k, st.keyOf ns subject relation = some k ∧
      (st.db.linkAt old).map Link.key = some (some k)) :
    ∃ k, st'.keyOf ns subject relation = some k ∧
      (∀ k₀, st.keyOf ns subject relation = some k₀ → k₀ = k) ∧
      Tied C ns subject relation st' k prev ⟨time, pr.hash, st'⟩ := by
  obtain ⟨g, view, hg, hdecodes, hns, hsubject, hrelation, hobject, hcreated⟩ := hholds
  obtain ⟨view', hprepared⟩ := hw.prepared
  have hlink := hw.links pr.hash
  rw [if_pos rfl] at hlink
  have hrow : g.link = ⟨pr.created, prev, pr.blob, (pr.grainRow 0).key⟩ := by
    rw [Tables.linkAt, hg] at hlink
    exact Option.some.inj hlink
  have hblob : g.blob = pr.blob := congrArg Link.blob hrow
  have hviews : view' = view := by
    rw [hblob, hprepared.decodes] at hdecodes
    exact Except.ok.inj hdecodes
  subst hviews
  obtain ⟨object, hobject⟩ := Option.isSome_iff_exists.1 hobject
  have hfields : (extractView view' pr.created).spo = some (subject, relation, object) := by
    unfold GrainView.spo extractView
    simp only [hsubject, hrelation, hobject]
  have hspo := hprepared.spo
  unfold DejaDB.EncodesSpo at hspo
  rw [hfields] at hspo
  obtain ⟨a, b, o, ha, hb, ho, hla, hlb, -⟩ := hspo
  have hpr : pr.spo = some (a, b, o) := by
    unfold GrainPrep.spo
    rw [ha, hb, ho]
  have hkeyrow : (pr.grainRow 0).key = some ⟨pr.nsId, a, b⟩ := by
    unfold GrainRow.key GrainPrep.grainRow
    simp only [ha, hb]
  have hnsId : s.dict.lookup ns = some pr.nsId := by
    have := hprepared.ns
    rw [show (extractView view' pr.created).ns = ns from hns] at this
    exact this
  have hkey : s.keyOf ns subject relation = some ⟨pr.nsId, a, b⟩ :=
    DejaDB.keyOf_eq_some.2 ⟨hnsId, hla, hlb⟩
  have hkey' : st'.keyOf ns subject relation = some ⟨pr.nsId, a, b⟩ := by
    rw [DejaDB.keyOf_eq_some] at hkey ⊢
    unfold DejaDB.termLookup at hkey ⊢
    rw [hw.dict]
    exact hkey
  have hstable : ∀ k₀, st.keyOf ns subject relation = some k₀ → k₀ = ⟨pr.nsId, a, b⟩ := by
    intro k₀ hk₀
    obtain ⟨hn, hs, hp⟩ := DejaDB.keyOf_eq_some.1 hk₀
    have hlater : s.keyOf ns subject relation = some k₀ := DejaDB.keyOf_eq_some.2
      ⟨hw.interns.dict _ _ hn, hw.interns.dict _ _ hs, hw.interns.dict _ _ hp⟩
    exact Option.some.inj (hlater.symm.trans hkey)
  obtain ⟨e, he, hhash⟩ := hw.latest a b o hpr fun old hold => by
    obtain ⟨k, hk, hold⟩ := hprev old hold
    rw [hold, hstable k hk]
  refine ⟨_, hkey', hstable, pr.blob, view', ?_, hprepared.decodes, ?_, ?_⟩
  · rw [hlink, hkeyrow, hprepared.created time hcreated]
  · rw [Core.deserializeBlob_hash hprepared.decodes, hw.address]
  · unfold DejaDB.latest
    rw [hkey']
    simp only [he, DejaDB.get, hhash, hg, hblob, hprepared.decodes]
    rfl

/-- A write that returned leaves a reachable store. -/
theorem Reachable.write {st st' : DejaDB} {w : ValueWrite G} {hash : Hash} (h : Reachable C st)
    (hrun : w.run C ns subject relation st = .ok hash st') : Reachable C st' := by
  have hquiet : ∀ x : StoreM Hash, x st = .ok hash st' → st.after (quiet x) = st' := by
    intro x hx
    unfold DejaDB.after after quiet
    rw [bind_apply, hx]
    rfl
  cases w with
  | add g =>
    rw [← hquiet _ hrun]
    exact h.steps [.add g]
  | supersede old g =>
    rw [← hquiet _ hrun]
    exact h.steps [.supersede old g]
  | merge g =>
    rw [← hquiet _ hrun]
    exact h.steps [.mergeHeads ns subject relation g]

/-- **A run in line stays chained.** -/
theorem Evolves.followed {start st : DejaDB} {ws : List (ValueWrite G)} {vs : List Version}
    (hreach : Reachable C start) (hnew : ∀ v ∈ vs.getLast?, start.has v.hash = false)
    (h : Evolves C ns subject relation start ws vs st) (hline : InLine ws vs) :
    Reachable C st ∧ Followed C ns subject relation start vs st := by
  induction h with
  | start => exact ⟨hreach, ⟨fun _ => rfl, fun hne => absurd rfl hne⟩⟩
  | @write ws vs st st' w time hash h hrun hholds hlater ih =>
    cases w with
    | add g =>
      cases ws with
      | cons w ws => exact hline.elim
      | nil =>
        cases h with
        | start =>
          obtain ⟨pr, s, rfl, hw⟩ := add_wrote hreach.good.vocabOk (hnew _ rfl) hrun
          obtain ⟨k, hkey, -, htied⟩ := hw.tied hholds fun old hold => nomatch hold
          exact ⟨hreach.write hrun, ⟨fun hnil => (nomatch hnil),
            fun _ => ⟨k, hkey, ⟨htied, trivial⟩, rfl⟩⟩⟩
    | supersede old g =>
      cases vs with
      | nil => exact hline.elim
      | cons v vs =>
        obtain ⟨rfl, hline⟩ := hline
        obtain ⟨hst, hfollowed⟩ := ih hnew hline
        obtain ⟨k, hkey, hchained, -⟩ := hfollowed.chained (List.cons_ne_nil v vs)
        obtain ⟨pr, s, rfl, hw⟩ := supersede_wrote hst.good.vocabOk hrun
        obtain ⟨k', hkey', hstable, htied⟩ := hw.tied hholds fun old hold => by
          obtain rfl : v.hash = old := Option.some.inj hold
          obtain ⟨⟨blob, view, hlink, -⟩, -⟩ := hchained
          exact ⟨k, hkey, by rw [hlink]; rfl⟩
        obtain rfl := hstable k hkey
        refine ⟨hst.write hrun, ⟨fun hnil => (nomatch hnil),
          fun _ => ⟨k, hkey', ⟨htied, ?_⟩, rfl⟩⟩⟩
        refine hchained.keep fun x l hx => ?_
        have hne : x ≠ pr.hash := by
          rintro rfl
          rw [hw.fresh] at hx
          cases hx
        rw [hw.links, if_neg hne, hx]
    | merge g => exact hline.elim

/-- The head of a chain is what `latest` answers. -/
theorem Followed.head {start st : DejaDB} {vs : List Version}
    (h : Followed C ns subject relation start vs st) (hne : vs ≠ []) :
    ∃ k x view, Chained C ns subject relation st k vs ∧ vs.head?.map Version.hash = some x ∧
      st.latest C ns subject relation = .ok (some view) ∧ view.hash = x := by
  obtain ⟨k, -, hchained, hstate⟩ := h.chained hne
  cases vs with
  | nil => exact absurd rfl hne
  | cons v vs =>
    obtain ⟨⟨blob, view, -, -, hhash, hlatest⟩, -⟩ := id hchained
    obtain rfl : v.state = st := Option.some.inj hstate
    exact ⟨k, v.hash, view, hchained, rfl, hlatest, hhash⟩

/-- **Reads at a past time replay history** from the add of a new grain on, in every
run that goes on by superseding the head: the walk answers what `latest` answered at
that time, and `history` lists the newest 513 versions. -/
theorem knowledge_replays {start st : DejaDB} {ws : List (ValueWrite G)} {vs : List Version}
    (hreach : Reachable C start) (hnew : ∀ v ∈ vs.getLast?, start.has v.hash = false)
    (h : Evolves C ns subject relation start ws vs st) (hline : InLine ws vs) :
    Replays C ns subject relation 513 vs st := by
  obtain ⟨-, hfollowed⟩ := h.followed hreach hnew hline
  constructor
  · rintro newer v older when rfl hv hnewer
    obtain ⟨k, x, view, hchained, hx, hlatest, hhash⟩ := hfollowed.head (by simp)
    obtain ⟨fuel, view', hthen, hwalk⟩ := hchained.walkBack hv hnewer
    refine ⟨fuel, view', hthen, ?_⟩
    unfold DejaDB.entityAtKnowledge
    rw [hlatest]
    simp only
    rw [hhash]
    exact hwalk x hx
  · intro hne
    obtain ⟨k, x, view, hchained, hx, hlatest, hhash⟩ := hfollowed.head hne
    obtain ⟨es, hes, hmap⟩ := hchained.historyFrom 513 hx
    refine ⟨es, ?_, hmap⟩
    unfold DejaDB.history
    rw [hlatest]
    simp only
    rw [hhash]
    exact hes

/-! ### Two runs -/

instance (st : DejaDB) (time : ℤ) (hash : Hash) :
    Decidable (st.Holds C ns subject relation time hash) :=
  match hg : st.db.grainByHash hash with
  | none => .isFalse fun ⟨g, view, h, _⟩ => by
    rw [hg] at h
    cases h
  | some g =>
    match hv : C.deserializeBlob g.blob with
    | .error e => .isFalse fun ⟨g', view, h, hview, _⟩ => by
      rw [hg] at h
      cases h
      rw [hv] at hview
      cases hview
    | .ok view => decidable_of_iff ((view.getStr "namespace").getD "shared" = ns ∧
        view.getStr "subject" = some subject ∧ view.getStr "relation" = some relation ∧
        (view.getStr "object").isSome ∧ view.getI64 "created_at" = some time)
        ⟨fun h => ⟨g, view, hg, hv, h⟩, fun ⟨g', view', h, hview, hrest⟩ => by
          rw [hg] at h
          cases h
          rw [hv] at hview
          cases hview
          exact hrest⟩

/-- The address a write answered. -/
def addressed (x : EStateM.Result DejaDbError DejaDB Hash) : Option Hash :=
  match x with
  | .ok hash _ => some hash
  | .error _ _ => none

theorem ok_of_addressed {x : StoreM Hash} {st : DejaDB} {hash : Hash}
    (h : addressed (x st) = some hash) : x st = .ok hash (st.after x) := by
  unfold DejaDB.after after
  cases hx : x st with
  | error e s =>
    rw [hx] at h
    cases h
  | ok a s =>
    rw [hx] at h
    cases h
    rfl

/-- A file that holds the fact `(a, b, c)`. -/
def firstStore : DejaDB := sampleStore.after (add sampleCore (sampleFact 1 5 1 2 3))

/-- The fact is superseded by `(a, b, d)`. -/
def supersededStore : DejaDB :=
  firstStore.after (supersede sampleCore (Hash.ofByte 1) (sampleFact 2 6 1 2 4))

/-- The fact `(a, b, d)` is added beside it. -/
def besideStore : DejaDB := firstStore.after (add sampleCore (sampleFact 2 6 1 2 4))

theorem firstStore_evolves : Evolves sampleCore "shared" "a" "b" sampleStore
    [.add (sampleFact 1 5 1 2 3)] [⟨5, Hash.ofByte 1, firstStore⟩] firstStore :=
  .write .start (ok_of_addressed (x := add sampleCore (sampleFact 1 5 1 2 3))
    (by decide +kernel)) (by decide +kernel) fun v hv => nomatch hv

/-- A fact and its supersession replay. -/
theorem knowledge_replays_superseded : Replays sampleCore "shared" "a" "b" 513
    [⟨6, Hash.ofByte 2, supersededStore⟩, ⟨5, Hash.ofByte 1, firstStore⟩] supersededStore := by
  refine knowledge_replays sampleStore_reachable (fun v hv => ?_)
    (.write (w := .supersede (Hash.ofByte 1) (sampleFact 2 6 1 2 4)) firstStore_evolves
      (ok_of_addressed (x := supersede sampleCore (Hash.ofByte 1) (sampleFact 2 6 1 2 4))
        (by decide +kernel)) (by decide +kernel) fun v hv => ?_) ⟨rfl, trivial⟩
  · obtain rfl := Option.some.inj hv
    decide +kernel
  · rw [List.mem_singleton.1 hv]
    decide

/-- A walk that stops at a grain linked to nothing finds no version before it. -/
theorem walkBack_unlinked {st : DejaDB} {x : Hash} {l : Link} {when : ℤ}
    (h : st.db.linkAt x = some l) (hlater : when < l.svf) (hprev : l.supersedes = none)
    (fuel : ℕ) (view : DeserializedGrain) : st.walkBack C when fuel x ≠ some (.ok (some view)) := by
  cases fuel with
  | zero => exact fun heq => nomatch heq
  | succ fuel =>
    rw [walkBack_link h, if_neg (by omega), hprev]
    exact fun heq => nomatch heq

/-- Where the second value is added, the first is out of reach. -/
theorem knowledge_misses_first : ¬ ∀ (ws : List (ValueWrite SampleBody)) (vs : List Version)
    (st : DejaDB), Evolves sampleCore "shared" "a" "b" sampleStore ws vs st →
      Replays sampleCore "shared" "a" "b" vs.length vs st := by
  intro h
  have hrun : Evolves sampleCore "shared" "a" "b" sampleStore
      [.add (sampleFact 2 6 1 2 4), .add (sampleFact 1 5 1 2 3)]
      [⟨6, Hash.ofByte 2, besideStore⟩, ⟨5, Hash.ofByte 1, firstStore⟩] besideStore := by
    refine .write firstStore_evolves
      (ok_of_addressed (x := add sampleCore (sampleFact 2 6 1 2 4)) (by decide +kernel))
      (by decide +kernel) fun v hv => ?_
    rw [List.mem_singleton.1 hv]
    decide
  obtain ⟨fuel, view, -, hwalk⟩ := (h _ _ _ hrun).known [⟨6, Hash.ofByte 2, besideStore⟩]
    ⟨5, Hash.ofByte 1, firstStore⟩ [] 5 rfl (le_refl 5) fun v hv => by
      rw [List.mem_singleton.1 hv]
      decide
  have hhead : ((besideStore.latest sampleCore "shared" "a" "b").toOption.bind id).any
      (fun v => v.hash = Hash.ofByte 2) = true := by decide +kernel
  have hlink : (besideStore.db.linkAt (Hash.ofByte 2)).map (fun l => (l.svf, l.supersedes)) =
      some (6, none) := by decide +kernel
  obtain ⟨l, hl, heq⟩ := Option.map_eq_some_iff.1 hlink
  obtain ⟨hsvf, hprev⟩ := Prod.mk.inj heq
  unfold DejaDB.entityAtKnowledge at hwalk
  obtain ⟨v, hlatest, hfound⟩ := exists_found hhead
  rw [hlatest] at hwalk
  simp only [of_decide_eq_true hfound] at hwalk
  exact walkBack_unlinked hl (by omega) hprev fuel view hwalk

end Deja
