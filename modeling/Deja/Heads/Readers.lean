import Deja.Erase.Survivors
import Deja.Heads.Elected
import Deja.Index.Posted

/-!
# The two readers of the current value

`latest` reads the provisional head of a key, `recall` the current triples.  A
key has a head exactly when it has a tip, and a tip is a live grain whose own
triple is current, so what `latest` answers `recall` answers too.  The converse
asks for a tip wherever a triple is current: a link has none by design.

* `DejaDB.HeadsInv.latest_some_iff` — `latest` answers where there is a tip.
* `recallGrains_some_iff` — `recall` answers where there is a current triple.
* `readers_agree_iff` — when the two agree, along a run.
-/

namespace Deja

open Run

variable {G : Type} {C : Core G} {own : Prop} {st : DejaDB}

/-- The key has an open tip. -/
def Tables.Tipped (t : Tables) (k : Key) : Prop := ∃ h ∈ t.heads, h.key = k

/-- The key has a current triple. -/
def Tables.Current (t : Tables) (k : Key) : Prop := ∃ x ∈ t.triples, x.cur = true ∧ x.key = k

instance (t : Tables) (k : Key) : Decidable (t.Tipped k) :=
  inferInstanceAs (Decidable (∃ h ∈ t.heads, h.key = k))

instance (t : Tables) (k : Key) : Decidable (t.Current k) :=
  inferInstanceAs (Decidable (∃ x ∈ t.triples, x.cur = true ∧ x.key = k))

/-! ## `latest` -/

/-- The own triple of a live tip's grain is current. -/
theorem Tables.LiveTip.current {t : Tables} {h : HeadRow} (hlive : t.LiveTip h)
    (hrows : OwnRows own t.rows) :
    ∃ x ∈ t.triples, x.cur = true ∧ x.key = h.key ∧ x.seq = h.seq := by
  obtain ⟨⟨r, hr, hrs, hrk⟩, -⟩ := hlive.joins hrows
  obtain ⟨g, hg, hgs, -, -, -, hsvt⟩ := hlive
  obtain ⟨pr, -, hof⟩ := hrows.spelled g hg
  obtain ⟨y, -, heq⟩ := hof.mem_triples.1 ⟨hr, hrs.trans hgs.symm⟩
  exact ⟨r, hr, by rw [heq, hsvt]; rfl, hrk, hrs⟩

/-- The provisional head is a tip of its key, and its grain is stored. -/
theorem DejaDB.HeadsInv.latestOf (h : st.HeadsInv own) {k : Key} {e : LatestRow}
    (he : st.db.latestOf k = some e) : ∃ g, st.db.grainByHash e.hash = some g ∧
      ∃ x ∈ st.db.triples, x.cur = true ∧ x.key = k ∧ x.seq = g.seq := by
  have hek : e.key = k := by simpa using List.find?_some he
  obtain ⟨⟨x, hx, hxk, -, hxh, -⟩, -⟩ := h.1.elected e (List.mem_of_find?_eq_some he)
  obtain ⟨r, hr, hcur, hrk, hrs⟩ := (h.1.live x hx).current h.2
  obtain ⟨g, hg, hgs, hgh, -⟩ := h.1.live x hx
  cases hfound : st.db.grainByHash e.hash with
  | none =>
    have := List.find?_eq_none.1 hfound g hg
    simp [hgh.trans hxh] at this
  | some g' =>
    obtain ⟨hg', hgh'⟩ := Tables.grainByHash_some hfound
    have hsame : g' = g := h.2.eq_of_hash hg' hg (hgh'.trans (hgh.trans hxh).symm)
    subst hsame
    exact ⟨g', rfl, r, hr, hcur, hrk.trans (hxk.trans hek), hrs.trans hgs.symm⟩

/-- **`latest` answers exactly where there is a tip.** -/
theorem DejaDB.HeadsInv.latest_some_iff (h : st.HeadsInv own) (hgood : st.Good C)
    {ns subject relation : String} :
    (∃ view, st.latest C ns subject relation = .ok (some view)) ↔
      ∃ k, st.keyOf ns subject relation = some k ∧ st.db.Tipped k := by
  unfold DejaDB.latest
  cases hk : st.keyOf ns subject relation with
  | none => simp
  | some k =>
    simp only [Option.some.injEq, exists_eq_left']
    cases he : st.db.latestOf k with
    | none =>
      simp only [Except.ok.injEq, reduceCtorEq, exists_false, false_iff]
      rintro ⟨x, hx, hxk⟩
      obtain ⟨e, hem, hek⟩ := h.1.covered x hx
      have := List.find?_eq_none.1 he e hem
      simp [hek, hxk] at this
    | some e =>
      obtain ⟨g, hfound, -⟩ := h.latestOf he
      obtain ⟨hg, -⟩ := Tables.grainByHash_some hfound
      obtain ⟨view, hview⟩ := hgood.decodes g hg
      refine iff_of_true ⟨view, ?_⟩ ?_
      · simp only [DejaDB.get, hfound, hview]
        rfl
      · obtain ⟨⟨x, hx, hxk, -⟩, -⟩ := h.1.elected e (List.mem_of_find?_eq_some he)
        have hek : e.key = k := by simpa using List.find?_some he
        exact ⟨x, hx, hxk.trans hek⟩

/-! ## `recall` -/

/-- Three known terms spell a key. -/
theorem DejaDB.keyOf_eq_some {ns subject relation : String} {k : Key} :
    st.keyOf ns subject relation = some k ↔ st.termLookup ns = some k.ns ∧
      st.termLookup subject = some k.s ∧ st.termLookup relation = some k.p := by
  unfold DejaDB.keyOf
  cases st.termLookup ns <;> cases st.termLookup subject <;> cases st.termLookup relation <;>
    simp
  constructor
  · rintro rfl
    exact ⟨rfl, rfl, rfl⟩
  · rintro ⟨rfl, rfl, rfl⟩
    rfl

/-- The grains `recall` finds at a key are those of its current triples. -/
theorem DejaDB.Good.mem_recallHits_key (h : st.Good C) {ns subject relation : String}
    {g : GrainRow} : g ∈ st.recallHits ns subject (some relation) ↔
      g ∈ st.db.grains ∧ ∃ k, st.keyOf ns subject relation = some k ∧
        ∃ x ∈ st.db.triples, x.cur = true ∧ x.key = k ∧ x.seq = g.seq := by
  rw [DejaDB.mem_recallHits h.rowsOk.seqs]
  refine and_congr_right fun _ => ⟨?_, ?_⟩
  · rintro ⟨r, hr, hcur, hrs, hns, hsub, hrel⟩
    exact ⟨r.key, DejaDB.keyOf_eq_some.2 ⟨hns, hsub, hrel relation rfl⟩, r, hr, hcur, rfl, hrs⟩
  · rintro ⟨k, hk, x, hx, hcur, rfl, hxs⟩
    obtain ⟨hns, hsub, hrel⟩ := DejaDB.keyOf_eq_some.1 hk
    refine ⟨x, hx, hcur, hxs, hns, hsub, fun rel heq => ?_⟩
    cases heq
    exact hrel

/-- A recall decodes what it finds, cut off at its limit. -/
theorem DejaDB.Good.recallGrains_ok (h : st.Good C) (ns subject relation : String) (n : ℕ) :
    ∃ views, st.recallGrains C ns subject (some relation) n = .ok views ∧
      List.Forall₂ (fun g v => C.deserializeBlob g.blob = .ok v)
        ((st.recallHits ns subject (some relation)).take n) views := by
  rw [DejaDB.recallGrains_eq_hits]
  have hdec : ∀ g ∈ (st.recallHits ns subject (some relation)).take n,
      ∃ view, C.deserializeBlob g.blob = .ok view := fun g hg =>
    h.decodes g (h.mem_recallHits_key.1 (List.mem_of_mem_take hg)).1
  generalize (st.recallHits ns subject (some relation)).take n = l at hdec
  induction l with
  | nil => exact ⟨[], rfl, .nil⟩
  | cons g l ih =>
    rw [List.forall_mem_cons] at hdec
    obtain ⟨v, hv⟩ := hdec.1
    obtain ⟨vs, hvs, hall⟩ := ih hdec.2
    refine ⟨v :: vs, ?_, .cons hv hall⟩
    rw [List.mapM_cons, hv, hvs]
    rfl

/-- **`recall` answers exactly where there is a current triple**, whatever its
limit but zero. -/
theorem DejaDB.Good.recallGrains_some_iff (h : st.Good C) {ns subject relation : String} {n : ℕ}
    (hn : 1 ≤ n) :
    (∃ v vs, st.recallGrains C ns subject (some relation) n = .ok (v :: vs)) ↔
      ∃ k, st.keyOf ns subject relation = some k ∧ st.db.Current k := by
  obtain ⟨views, hviews, hall⟩ := h.recallGrains_ok ns subject relation n
  have hempty : (∃ v vs, st.recallGrains C ns subject (some relation) n = .ok (v :: vs)) ↔
      st.recallHits ns subject (some relation) ≠ [] := by
    rw [hviews]
    cases hhits : st.recallHits ns subject (some relation) with
    | nil =>
      rw [hhits, List.take_nil] at hall
      cases hall
      simp
    | cons g l =>
      obtain ⟨m, rfl⟩ : ∃ m, n = m + 1 := ⟨n - 1, by omega⟩
      rw [hhits, List.take_succ_cons] at hall
      cases hall
      simp
  rw [hempty]
  constructor
  · intro hne
    obtain ⟨g, hg⟩ := List.exists_mem_of_ne_nil _ hne
    obtain ⟨-, k, hk, x, hx, hcur, hxk, -⟩ := h.mem_recallHits_key.1 hg
    exact ⟨k, hk, x, hx, hcur, hxk⟩
  · rintro ⟨k, hk, x, hx, hcur, hxk⟩
    obtain ⟨g, hg, hgs⟩ := h.rowsOk.owned.triples x hx
    exact List.ne_nil_of_mem (h.mem_recallHits_key.2 ⟨hg, k, hk, x, hx, hcur, hxk, hgs.symm⟩)

/-! ## The two together -/

/-- `latest` answers exactly when `recall` does, whatever its limit but zero. -/
def DejaDB.ReadersAgree (C : Core G) (st : DejaDB) (ns subject relation : String) : Prop :=
  ∀ n, 1 ≤ n → ((∃ view, st.latest C ns subject relation = .ok (some view)) ↔
    ∃ v vs, st.recallGrains C ns subject (some relation) n = .ok (v :: vs))

/-- What `latest` answers is among what an unbounded `recall` answers. -/
def DejaDB.LatestRecalled (C : Core G) (st : DejaDB) (ns subject relation : String) : Prop :=
  ∀ view, st.latest C ns subject relation = .ok (some view) → ∃ m views, view ∈ views ∧
    ∀ n, m ≤ n → st.recallGrains C ns subject (some relation) n = .ok views

theorem DejaDB.HeadsInv.latestRecalled (h : st.HeadsInv own) (hgood : st.Good C)
    (ns subject relation : String) : st.LatestRecalled C ns subject relation := by
  intro view hview
  obtain ⟨k, hk, -⟩ := (h.latest_some_iff hgood).1 ⟨view, hview⟩
  unfold DejaDB.latest at hview
  simp only [hk] at hview
  cases he : st.db.latestOf k with
  | none =>
    rw [he] at hview
    cases hview
  | some e =>
    obtain ⟨g, hfound, x, hx, hcur, hxk, hxs⟩ := h.latestOf he
    obtain ⟨hg, -⟩ := Tables.grainByHash_some hfound
    obtain ⟨v, hv⟩ := hgood.decodes g hg
    simp only [he, DejaDB.get, hfound, hv] at hview
    cases hview
    have hhit := hgood.mem_recallHits_key.2 ⟨hg, k, hk, x, hx, hcur, hxk, hxs⟩
    obtain ⟨views, hviews, hall⟩ := hgood.recallGrains_ok ns subject relation
      (st.recallHits ns subject (some relation)).length
    rw [List.take_length] at hall
    obtain ⟨v', hv', hdec⟩ := forall₂_exists_right hall g hhit
    rw [hv] at hdec
    cases hdec
    refine ⟨(st.recallHits ns subject (some relation)).length, views, hv', fun n hn => ?_⟩
    rw [← hviews, DejaDB.recallGrains_eq_hits, DejaDB.recallGrains_eq_hits,
      List.take_of_length_le hn, List.take_length]

theorem DejaDB.HeadsInv.current_of_tipped (h : st.HeadsInv own) {k : Key}
    (hk : st.db.Tipped k) : st.db.Current k := by
  obtain ⟨x, hx, rfl⟩ := hk
  obtain ⟨r, hr, hcur, hrk, -⟩ := (h.1.live x hx).current h.2
  exact ⟨r, hr, hcur, hrk⟩

theorem DejaDB.HeadsInv.readersAgree_iff (h : st.HeadsInv own) (hgood : st.Good C)
    {ns subject relation : String} : st.ReadersAgree C ns subject relation ↔
      ∀ k, st.keyOf ns subject relation = some k → st.db.Current k → st.db.Tipped k := by
  constructor
  · intro hagree k hk hcur
    obtain ⟨k', hk', htip⟩ := (h.latest_some_iff hgood).1 <| (hagree 1 le_rfl).2 <|
      (hgood.recallGrains_some_iff le_rfl).2 ⟨k, hk, hcur⟩
    rw [hk] at hk'
    cases hk'
    exact htip
  · intro hall n hn
    rw [h.latest_some_iff hgood, hgood.recallGrains_some_iff hn]
    exact exists_congr fun k => and_congr_right fun hk => ⟨h.current_of_tipped, hall k hk⟩

/-- Guarded runs keep the head tables in order. -/
theorem headsInv_of_meets {explicit : Option DejaDbOptions} {clock : ℕ → ℤ} {ops : List (Op G)}
    (h : Meets C TipGuard (createStore C explicit clock) ops) :
    ((createStore C explicit clock).steps C ops).Good C ∧
      ((createStore C explicit clock).steps C ops).HeadsInv False :=
  run_keeps (I := DejaDB.HeadsInv False) (fun _ _ _ hidle => hidle.headsInv)
    (fun _ _ _ _ hg hcommit => hcommit.headsInv hg False.elim)
    (createStore_headsInv False C explicit clock) h

/-- **When the two readers agree**, in every state of a run whose merges keep the
key of their fork.  `latest` answers exactly where there is a tip; where it does,
`recall` answers too, with that grain among its own; and the two agree exactly
on the keys that have a tip or no current triple. -/
theorem readers_agree_iff {explicit : Option DejaDbOptions} {clock : ℕ → ℤ} {ops : List (Op G)}
    (h : Meets C TipGuard (createStore C explicit clock) ops) (ns subject relation : String) :
    ((∃ view, ((createStore C explicit clock).steps C ops).latest C ns subject relation =
        .ok (some view)) ↔
      ∃ k, ((createStore C explicit clock).steps C ops).keyOf ns subject relation = some k ∧
        ((createStore C explicit clock).steps C ops).db.Tipped k) ∧
    ((createStore C explicit clock).steps C ops).LatestRecalled C ns subject relation ∧
    (((createStore C explicit clock).steps C ops).ReadersAgree C ns subject relation ↔
      ∀ k, ((createStore C explicit clock).steps C ops).keyOf ns subject relation = some k →
        ((createStore C explicit clock).steps C ops).db.Current k →
          ((createStore C explicit clock).steps C ops).db.Tipped k) := by
  obtain ⟨hgood, hI⟩ := headsInv_of_meets h
  exact ⟨hI.latest_some_iff hgood, hI.latestRecalled hgood ns subject relation,
    hI.readersAgree_iff hgood⟩

/-- A fact superseded by another of its key. -/
def overwritten : List (Op SampleBody) :=
  [.add (sampleFact 1 5 1 2 3), .supersede (Hash.ofByte 1) (sampleFact 2 6 1 2 4)]

/-- The two readers agree on its key. -/
theorem readers_agree_overwritten :
    (sampleStore.steps sampleCore overwritten).ReadersAgree sampleCore "shared" "a" "b" := by
  have hmeets : Meets sampleCore TipGuard sampleStore overwritten := by decide +kernel
  refine (readers_agree_iff hmeets "shared" "a" "b").2.2.2 fun k hk _ => ?_
  have htip : ∃ k ∈ (sampleStore.steps sampleCore overwritten).keyOf "shared" "a" "b",
      (sampleStore.steps sampleCore overwritten).db.Tipped k := by
    decide +kernel
  obtain ⟨k', hk', htip⟩ := htip
  have heq : some k = some k' := hk.symm.trans hk'
  cases heq
  exact htip

/-- A local write: everything but an import and the maintenance of a handle. -/
def Op.Writes : Op G → Prop
  | .add _ | .addBatch _ | .supersede .. | .mergeHeads .. | .forget _ | .forgetSubject ..
  | .forgetOlderThan .. => True
  | _ => False

/-- A fact with a link to another grain. -/
def linked : List (Op SampleBody) := [.add ⟨.fact, none, none, ⟨1, 5, 1, 2, 3, 0, 5⟩⟩]

/-- The link is recalled under the address of its grain, where there is no
head. -/
theorem link_has_no_head :
    ¬ ∀ ops : List (Op SampleBody), (∀ op ∈ ops, op.Writes) → ∀ ns subject relation,
      (sampleStore.steps sampleCore ops).ReadersAgree sampleCore ns subject relation ∧
        (sampleStore.steps sampleCore ops).LatestRecalled sampleCore ns subject relation := by
  intro h
  have hagree := (h linked (List.forall_mem_singleton.2 trivial) "shared" (Hash.ofByte 1).toHex
    "e").1
  have hmeets : Meets sampleCore TipGuard sampleStore linked := by decide +kernel
  obtain ⟨hgood, hI⟩ := headsInv_of_meets hmeets
  have hgap : ∃ k ∈ (sampleStore.steps sampleCore linked).keyOf "shared" (Hash.ofByte 1).toHex "e",
      (sampleStore.steps sampleCore linked).db.Current k ∧
        ¬ (sampleStore.steps sampleCore linked).db.Tipped k := by
    decide +kernel
  obtain ⟨k, hk, hcur, hno⟩ := hgap
  exact hno ((hI.readersAgree_iff hgood).1 hagree k hk hcur)

end Deja
