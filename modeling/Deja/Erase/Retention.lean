import Deja.Codec.Types
import Deja.Erase.Survivors

/-!
# The retention sweep

A file declares how long the grains of a namespace may stay.  A sweep applies the policies one
after the other, each an erasure of its own that also scrubs the dictionary, and together they
erase what any of them asks for.
-/

namespace Deja

open Run

variable {G : Type} {C : Core G}

/-! ## The policies of a file -/

/-- `RetentionPolicy`: `ageMs` is what its days come to in milliseconds. -/
structure RetentionPolicy where
  ageMs : ℤ
  grainType : Option String

/-- `GrainType::from_str`. -/
def GrainType.fromStr (s : String) : Option GrainType := GrainType.all.find? fun t => t.asStr = s

/-- The rows under the prefix of the policies, each read or with the error of its JSON. -/
abbrev PolicyRows : Type := List (String × Except String RetentionPolicy)

/-- The policies of the rows, all of them readable. -/
def readPolicies : PolicyRows → Except DejaDbError (List (String × RetentionPolicy))
  | [] => .ok []
  | (ns, .ok p) :: rows => do
    let policies ← readPolicies rows
    .ok ((ns, p) :: policies)
  | (ns, .error e) :: _ =>
    .error (.validation ("unreadable retention policy for namespace '" ++ ns ++ "': " ++ e))

/-- `retention_policies`. -/
def retentionPolicies (rows : PolicyRows) :
    Except DejaDbError (List (String × RetentionPolicy)) := do
  let policies ← readPolicies rows
  .ok (policies.insertionSort fun a b => a.1 ≤ b.1)

/-- The type a policy names. -/
def RetentionPolicy.gtype (ns : String) (p : RetentionPolicy) :
    Except DejaDbError (Option GrainType) :=
  match p.grainType with
  | none => .ok none
  | some t =>
    match GrainType.fromStr t with
    | some ty => .ok (some ty)
    | none => .error (.validation
        ("retention policy for '" ++ ns ++ "' names an unknown grain type: " ++ t.quote))

/-! ## The sweep -/

/-- The loop of `sweep_retention`. -/
def sweepPolicies (C : Core G) (nowMs : ℤ) :
    List (String × RetentionPolicy) → StoreM (List (String × ErasureReport))
  | [] => pure []
  | (ns, p) :: policies => do
    let gtype ← lift (p.gtype ns)
    let report ← forgetOlderThan C (some ns) (nowMs - p.ageMs) gtype
    let reports ← sweepPolicies C nowMs policies
    pure ((ns, report) :: reports)

/-- `sweep_retention`. -/
def sweepRetention (C : Core G) (rows : PolicyRows) (nowMs : ℤ) :
    StoreM (List (String × ErasureReport)) := do
  let policies ← lift (retentionPolicies rows)
  sweepPolicies C nowMs policies

/-- A grain a sweep of one namespace is to erase. -/
def DejaDB.Outdated (st : DejaDB) (ns : String) (cutoffMs : ℤ) (gtype : Option GrainType)
    (g : GrainRow) : Prop :=
  st.termLookup ns = some g.ns ∧ g.createdAt < cutoffMs ∧ ∀ ty ∈ gtype, g.gtype = ty.ordinal

/-- A grain a policy asks to erase. -/
def RetentionPolicy.Due (st : DejaDB) (nowMs : ℤ) (ns : String) (p : RetentionPolicy)
    (g : GrainRow) : Prop :=
  ∃ gtype, p.gtype ns = .ok gtype ∧ st.Outdated ns (nowMs - p.ageMs) gtype g

theorem mem_olderThan {t : Tables} {nsId cutoffMs seq : ℤ} {gtype : Option ℤ} :
    seq ∈ t.olderThan (some nsId) cutoffMs gtype none ↔ ∃ g ∈ t.grains, g.seq = seq ∧
      g.createdAt < cutoffMs ∧ g.ns = nsId ∧ ∀ ty ∈ gtype, g.gtype = ty := by
  simp only [Tables.olderThan, List.mem_map, List.mem_filter, decide_eq_true_eq]
  constructor
  · rintro ⟨g, ⟨hg, hold, hns, hty⟩, hseq⟩
    refine ⟨g, hg, hseq, hold, by simpa using hns, fun ty hmem => ?_⟩
    rw [Option.mem_def.1 hmem] at hty
    simpa using hty
  · rintro ⟨g, hg, hseq, hold, hns, hty⟩
    refine ⟨g, ⟨hg, hold, by simpa using hns, ?_⟩, hseq⟩
    cases gtype with
    | none => rfl
    | some ty => simpa using hty ty rfl

/-- One erasure by age takes the outdated grains of its namespace, and leaves every other grain
filed under the name it had. -/
theorem forgetOlderThan_ok {a b : DejaDB} {ns : String} {cutoffMs : ℤ}
    {gtype : Option GrainType} {rep : ErasureReport} (ha : a.Good C)
    (h : forgetOlderThan C (some ns) cutoffMs gtype a = .ok rep b) :
    (∀ g, g ∈ b.db.grains ↔ g ∈ a.db.grains ∧ ¬a.Outdated ns cutoffMs gtype g) ∧
      ∀ g ∈ b.db.grains, ∀ x, b.termLookup x = some g.ns ↔ a.termLookup x = some g.ns := by
  unfold forgetOlderThan forgetOlderThanCapped at h
  rw [if_neg (by simp)] at h
  obtain ⟨a₂, a₃, hget, h₁⟩ := bind_eq_ok.1 h
  cases hget
  cases hns : a.termLookup ns with
  | none =>
    rw [hns] at h₁
    obtain ⟨-, rfl⟩ := pure_eq_ok.1 h₁
    refine ⟨fun g => ?_, fun g _ x => Iff.rfl⟩
    rw [and_iff_left]
    rintro ⟨hlookup, -⟩
    rw [hns] at hlookup
    cases hlookup
  | some nsId =>
    rw [hns] at h₁
    obtain ⟨ids, seqs, s, gone, hsel, herased, -⟩ := eraseWhere_ok h₁
    have hseqs : seqs = a.db.olderThan (some nsId) cutoffMs (gtype.map GrainType.ordinal) none := by
      obtain ⟨a₄, a₅, hget, h₂⟩ := bind_eq_ok.1 hsel
      cases hget
      obtain ⟨hpair, -⟩ := pure_eq_ok.1 h₂
      exact (Prod.mk.inj hpair).2.symm
    refine ⟨fun g => ?_, fun g hg x => herased.lookup_ns ha.dictOk hg⟩
    rw [mem_kept herased.file.grains]
    refine and_congr_right fun hg => not_congr ?_
    simp only [List.mem_map, List.mem_filter, decide_eq_true_eq, hseqs, mem_olderThan]
    constructor
    · rintro ⟨g', ⟨hg', g'', hg'', hseq, hold, hfiled, hty⟩, hseq'⟩
      have heq : g'' = g := ha.rowsOk.eq_of_seq hg'' hg (hseq.trans hseq')
      rw [heq] at hold hfiled hty
      exact ⟨by rw [hns, hfiled], hold, fun ty hmem => hty _ (Option.mem_map_of_mem _ hmem)⟩
    · rintro ⟨hlookup, hold, hty⟩
      rw [hns] at hlookup
      cases hlookup
      refine ⟨g, ⟨hg, g, hg, rfl, hold, rfl, fun ty hmem => ?_⟩, rfl⟩
      obtain ⟨ty', hmem', rfl⟩ := Option.mem_map.1 hmem
      exact hty ty' hmem'

theorem mem_readPolicies {rows : PolicyRows} {policies : List (String × RetentionPolicy)}
    (h : readPolicies rows = .ok policies) {x : String × RetentionPolicy} :
    x ∈ policies ↔ (x.1, .ok x.2) ∈ rows := by
  induction rows generalizing policies with
  | nil =>
    cases h
    simp
  | cons row rows ih =>
    obtain ⟨ns, p | p⟩ := row
    · cases h
    · obtain ⟨ps, hps, hok⟩ := except_bind_ok h
      cases hok
      simp [ih hps, Prod.ext_iff]

/-- What a sweep reports of a grain. -/
def Reported (reports : List (String × ErasureReport)) (g : GrainRow) : Prop :=
  ∃ x ∈ reports, g.hash.toHex ∈ x.2.erasedHashes

theorem sweepPolicies_ok {a b : DejaDB} {nowMs : ℤ} {policies : List (String × RetentionPolicy)}
    {reports : List (String × ErasureReport)} (ha : Reachable C a)
    (h : sweepPolicies C nowMs policies a = .ok reports b) :
    (∀ g, g ∈ b.db.grains ↔ g ∈ a.db.grains ∧ ∀ x ∈ policies, ¬x.2.Due a nowMs x.1 g) ∧
      ∀ g ∈ a.db.grains, g ∈ b.db.grains ↔ ¬Reported reports g := by
  induction policies generalizing a reports with
  | nil =>
    obtain ⟨rfl, rfl⟩ := pure_eq_ok.1 h
    exact ⟨by simp, by simp [Reported]⟩
  | cons x policies ih =>
    obtain ⟨ns, p⟩ := x
    obtain ⟨gtype, a₁, hlift, h₁⟩ := bind_eq_ok.1 h
    have hgtype : p.gtype ns = .ok gtype ∧ a₁ = a := by
      cases hp : p.gtype ns with
      | error e =>
        rw [hp] at hlift
        cases hlift
      | ok ty =>
        rw [hp] at hlift
        obtain ⟨rfl, rfl⟩ := pure_eq_ok.1 hlift
        exact ⟨rfl, rfl⟩
    obtain ⟨hp, rfl⟩ := hgtype
    obtain ⟨rep, a₂, herase, h₂⟩ := bind_eq_ok.1 h₁
    obtain ⟨reports', a₃, hrest, h₃⟩ := bind_eq_ok.1 h₂
    obtain ⟨rfl, rfl⟩ := pure_eq_ok.1 h₃
    have hrun : (BulkErase.olderThan (some ns) (nowMs - p.ageMs) gtype none).run C a₁ =
      .ok rep a₂ := herase
    have ha₂ : Reachable C a₂ := by
      rw [← BulkErase.step_eq hrun]
      exact ha.steps [BulkErase.op _]
    obtain ⟨hkept, hlookup⟩ := forgetOlderThan_ok ha.good herase
    have hspares := (erasure_spares_survivors ha _ hrun).grains
    obtain ⟨hleft, hreported⟩ := ih ha₂ hrest
    -- what is due after the first erasure was due before it, for a grain it left
    have hdue : ∀ g ∈ a₂.db.grains, ∀ x : String × RetentionPolicy,
        x.2.Due a₂ nowMs x.1 g ↔ x.2.Due a₁ nowMs x.1 g := by
      intro g hg x
      unfold RetentionPolicy.Due DejaDB.Outdated
      simp only [hlookup g hg]
    have hfirst : ∀ g, p.Due a₁ nowMs ns g ↔ a₁.Outdated ns (nowMs - p.ageMs) gtype g := by
      intro g
      constructor
      · rintro ⟨gtype', hp', hout⟩
        rw [hp] at hp'
        cases hp'
        exact hout
      · exact fun hout => ⟨gtype, hp, hout⟩
    refine ⟨fun g => ?_, fun g hg => ?_⟩
    · rw [hleft, hkept, List.forall_mem_cons, ← hfirst, and_assoc]
      refine and_congr_right fun hg => and_congr_right fun hnot => ?_
      have hg₂ : g ∈ a₂.db.grains := (hkept g).2 ⟨hg, fun hout => hnot ((hfirst g).2 hout)⟩
      exact forall_congr' fun x => forall_congr' fun _ => not_congr (hdue g hg₂ x)
    · have hcons : Reported ((ns, rep) :: reports') g ↔
          g.hash.toHex ∈ rep.erasedHashes ∨ Reported reports' g := by
        simp [Reported]
      rw [hcons, not_or]
      by_cases hg₂ : g ∈ a₂.db.grains
      · rw [hreported g hg₂, and_iff_right ((hspares g).1 hg₂).2]
      · have hgone : g.hash.toHex ∈ rep.erasedHashes := by
          by_contra hnot
          exact hg₂ ((hspares g).2 ⟨hg, hnot⟩)
        refine iff_of_false (fun hb => hg₂ ((hleft g).1 hb).1) fun hnot => hnot.1 hgone

/-- **A retention sweep erases what is due.**  Of the grains of a reachable store it leaves exactly
those that no declared policy asks to erase, whatever the order and the overlap of the policies
and the names the erasures scrub on the way, and it reports exactly those it erased. -/
theorem sweepRetention_erases {a b : DejaDB} {rows : PolicyRows} {nowMs : ℤ}
    {reports : List (String × ErasureReport)} (ha : Reachable C a)
    (h : sweepRetention C rows nowMs a = .ok reports b) :
    (∀ g, g ∈ b.db.grains ↔
      g ∈ a.db.grains ∧ ∀ ns p, (ns, .ok p) ∈ rows → ¬p.Due a nowMs ns g) ∧
      ∀ g ∈ a.db.grains, g ∈ b.db.grains ↔ ¬Reported reports g := by
  obtain ⟨policies, a₁, hlift, h₁⟩ := bind_eq_ok.1 h
  cases hread : readPolicies rows with
  | error e =>
    rw [retentionPolicies, hread] at hlift
    cases hlift
  | ok ps =>
    rw [retentionPolicies, hread] at hlift
    obtain ⟨rfl, rfl⟩ := pure_eq_ok.1 hlift
    obtain ⟨hleft, hreported⟩ := sweepPolicies_ok ha h₁
    refine ⟨fun g => ?_, hreported⟩
    rw [hleft]
    refine and_congr_right fun _ => ?_
    have hmem : ∀ x : String × RetentionPolicy,
        x ∈ ps.insertionSort (fun a b => a.1 ≤ b.1) ↔ (x.1, .ok x.2) ∈ rows := fun x =>
      (List.perm_insertionSort _ _).mem_iff.trans (mem_readPolicies hread)
    exact ⟨fun hall ns p hp => hall (ns, p) ((hmem _).2 hp),
      fun hall x hx => hall x.1 x.2 ((hmem x).1 hx)⟩

/-- One unreadable policy stops the sweep before it erases anything. -/
theorem sweepRetention_unreadable {st : DejaDB} {rows : PolicyRows} {nowMs : ℤ} {ns e : String}
    (h : (ns, .error e) ∈ rows) : st.after (sweepRetention C rows nowMs) = st := by
  have hread : ∃ e', readPolicies rows = .error e' := by
    induction rows with
    | nil => exact absurd h List.not_mem_nil
    | cons row rows ih =>
      obtain ⟨ns', p | p⟩ := row
      · exact ⟨_, rfl⟩
      · obtain ⟨e', he'⟩ := ih ((List.mem_cons.1 h).resolve_left fun heq => by cases heq)
        exact ⟨e', by rw [readPolicies, he']; rfl⟩
  obtain ⟨e', he'⟩ := hread
  unfold DejaDB.after after sweepRetention
  rw [bind_apply, retentionPolicies, he']
  rfl

/-- A fact that is due and one that is not. -/
def twoAges : DejaDB := sampleStore.steps sampleCore
  [.add (sampleFact 1 1 1 2 3), .add (sampleFact 2 5 4 2 3)]

theorem sweepRetention_sample : ∃ reports b,
    sweepRetention sampleCore [("shared", .ok ⟨5, some "fact"⟩)] 10 twoAges = .ok reports b ∧
      b.db.grains.length = 1 ∧
        ∀ g ∈ twoAges.db.grains, g ∈ b.db.grains ↔ ¬Reported reports g := by
  have ha : Reachable sampleCore twoAges := sampleStore_reachable.steps _
  obtain ⟨reports, b, hrun, hone⟩ := exists_ok_of_all
    (x := sweepRetention sampleCore [("shared", .ok ⟨5, some "fact"⟩)] 10 twoAges)
    (p := fun _ b => b.db.grains.length = 1) (by decide +kernel)
  exact ⟨reports, b, hrun, by simpa using hone,
    (sweepRetention_erases ha hrun).2⟩

end Deja
