import Deja.Core.Grain
import Deja.Lib.Ration

/-!
# The token budget of a context

`allocate_with_diversity` reserves the best entries of every grain type, trims the
reservations to a share of the budget and fills the rest by priority.  An index
into the entries is modelled by the entry it points to; priorities and the share
are exact rationals.  The iteration orders of the hash map of types and of the hash
set of reservations are parameters (`HashOrder`).

* `trimmed_top` — every type keeps one of its best entries.
* `fullTokens_le` — what the tokens of the entries in full are bounded by.
* `decision_fair` — within a type nothing is left out for something worse.
* `diverse_of` — the four properties together, with the independence of the hash
  orders, where the trim has no ties to break.
-/

namespace Deja.Context

open Ration

/-- Allocation decision for a single grain. -/
inductive Allocation where
  | full
  | summary
  | omit
  deriving DecidableEq

/-- A grain scored and measured for budget allocation. -/
structure ScoredEntry where
  priority : ℚ
  fullTokens : ℕ
  summaryTokens : ℕ
  originalIndex : ℕ
  grainType : GrainType
  deriving DecidableEq

/-- `GrainTypeDiversityConfig`. -/
structure GrainTypeDiversityConfig where
  minPerType : ℕ
  maxReservationPct : ℚ

/-- The orders in which the hash map of types and the hash set of reservations are
iterated. -/
structure HashOrder where
  types : List GrainType → List GrainType
  reserved : List ScoredEntry → List ScoredEntry
  types_perm : ∀ l, (types l).Perm l
  reserved_perm : ∀ l, (reserved l).Perm l

/-- The order of insertion. -/
def HashOrder.inserted : HashOrder := ⟨id, id, fun l => .refl l, fun l => .refl l⟩

/-- The set of reservations in the reverse order. -/
def HashOrder.reversed : HashOrder :=
  ⟨id, List.reverse, fun l => .refl l, List.reverse_perm⟩

/-! ## The allocation -/

section Allocate

variable (o : HashOrder) (entries : List ScoredEntry)

/-- A stable sort by priority, highest first. -/
def byPriorityDesc (l : List ScoredEntry) : List ScoredEntry :=
  l.insertionSort fun a b => b.priority ≤ a.priority

/-- A stable sort by priority, lowest first. -/
def byPriorityAsc (l : List ScoredEntry) : List ScoredEntry :=
  l.insertionSort fun a b => a.priority ≤ b.priority

/-- Phase 1: the entries of one type, best first. -/
def group (t : GrainType) : List ScoredEntry :=
  byPriorityDesc (entries.filter fun e => e.grainType = t)

/-- The represented types. -/
def represented : List GrainType := (entries.map ScoredEntry.grainType).dedup

/-- Phase 2: up to `minPerType` entries of every type. -/
def reserve (minPerType : ℕ) : List ScoredEntry :=
  (o.types (represented entries)).flatMap fun t => (group entries t).take minPerType

/-- `(budget as f64 * max_reservation_pct) as usize`. -/
def reservationCap (budget : ℕ) (pct : ℚ) : ℕ := (⌊(budget : ℚ) * pct⌋).toNat

/-- Phase 3: the reservations that stay. -/
def trimmed (budget : ℕ) (cfg : GrainTypeDiversityConfig) : List ScoredEntry :=
  let reserved := reserve o entries cfg.minPerType
  trim ScoredEntry.fullTokens ScoredEntry.grainType
    (reservationCap budget cfg.maxReservationPct) (byPriorityAsc (o.reserved reserved)) reserved
    (weight ScoredEntry.fullTokens reserved)
    (fun t => countOf ScoredEntry.grainType t reserved)

/-- Phase 5: what the rest of the budget takes, after `kept`. -/
def filled (budget : ℕ) (kept : List ScoredEntry) : List ScoredEntry :=
  fill ScoredEntry.fullTokens
    ((budget - weight ScoredEntry.fullTokens kept) * 70 / 100) 0
    (byPriorityDesc (entries.filter fun e => e ∉ kept))

/-- The entries given in full. -/
def inFull (budget : ℕ) (cfg : GrainTypeDiversityConfig) : List ScoredEntry :=
  let kept := trimmed o entries budget cfg
  kept ++ filled entries budget kept

/-- Write the decisions at the original positions. -/
def mark (n : ℕ) (full : List ScoredEntry) : List Allocation :=
  full.foldl (fun result e => result.set e.originalIndex .full) (List.replicate n .omit)

/-- `allocate_with_diversity`. -/
def allocateWithDiversity (tokenBudget : Option ℕ) (cfg : GrainTypeDiversityConfig) :
    List Allocation :=
  match tokenBudget with
  | none => List.replicate entries.length .full
  | some budget => mark entries.length (inFull o entries budget cfg)

end Allocate

/-! ## What the allocation is for -/

/-- One of the best entries of its type. -/
def IsTop (entries : List ScoredEntry) (e : ScoredEntry) : Prop :=
  e ∈ entries ∧ ∀ e' ∈ entries, e'.grainType = e.grainType → e'.priority ≤ e.priority

/-- One top entry for every represented type. -/
structure TopOfEach (entries tops : List ScoredEntry) : Prop where
  top : ∀ e ∈ tops, IsTop entries e
  one : (tops.map ScoredEntry.grainType).Nodup
  each : ∀ e ∈ entries, e.grainType ∈ tops.map ScoredEntry.grainType

/-- The entries a result gives in full. -/
def givenInFull (entries : List ScoredEntry) (result : List Allocation) : List ScoredEntry :=
  entries.filter fun e => result[e.originalIndex]? = some .full

/-- The properties of an allocation that keeps every type present. -/
structure Diverse (entries : List ScoredEntry) (tokenBudget : Option ℕ)
    (cfg : GrainTypeDiversityConfig) : Prop where
  /-- One decision an entry. -/
  aligned : ∀ o, (allocateWithDiversity o entries tokenBudget cfg).length = entries.length
  /-- Every represented type has one of its best entries in full. -/
  present : ∀ o, ∀ e ∈ entries,
    ∃ e' ∈ givenInFull entries (allocateWithDiversity o entries tokenBudget cfg),
      e'.grainType = e.grainType ∧ IsTop entries e'
  /-- The tokens stay within the budget or within one top entry a type. -/
  bounded : ∀ o budget, tokenBudget = some budget → ∃ tops, TopOfEach entries tops ∧
    weight ScoredEntry.fullTokens
        (givenInFull entries (allocateWithDiversity o entries tokenBudget cfg)) ≤
      max budget (weight ScoredEntry.fullTokens tops)
  /-- Within a type nothing is left out for something worse that is as large. -/
  fair : ∀ o, ∀ e ∈ entries,
    e ∉ givenInFull entries (allocateWithDiversity o entries tokenBudget cfg) →
      ∀ e' ∈ entries, e'.grainType = e.grainType → e'.priority < e.priority →
        e.fullTokens ≤ e'.fullTokens →
        e' ∉ givenInFull entries (allocateWithDiversity o entries tokenBudget cfg)
  /-- The hash orders do not matter. -/
  deterministic : ∀ o o', allocateWithDiversity o entries tokenBudget cfg =
    allocateWithDiversity o' entries tokenBudget cfg

/-! ## Sorting and marking -/

section

variable {o : HashOrder} {entries : List ScoredEntry}

@[simp] theorem mem_byPriorityDesc {l : List ScoredEntry} {e : ScoredEntry} :
    e ∈ byPriorityDesc l ↔ e ∈ l := List.mem_insertionSort _

@[simp] theorem mem_byPriorityAsc {l : List ScoredEntry} {e : ScoredEntry} :
    e ∈ byPriorityAsc l ↔ e ∈ l := List.mem_insertionSort _

theorem perm_byPriorityAsc (l : List ScoredEntry) : (byPriorityAsc l).Perm l :=
  List.perm_insertionSort _ l

theorem perm_byPriorityDesc (l : List ScoredEntry) : (byPriorityDesc l).Perm l :=
  List.perm_insertionSort _ l

theorem pairwise_byPriorityDesc (l : List ScoredEntry) :
    (byPriorityDesc l).Pairwise fun a b => b.priority ≤ a.priority := by
  have : Std.Total fun a b : ScoredEntry => b.priority ≤ a.priority :=
    ⟨fun a b => le_total b.priority a.priority⟩
  have : IsTrans ScoredEntry fun a b => b.priority ≤ a.priority :=
    ⟨fun _ _ _ hab hbc => hbc.trans hab⟩
  exact List.pairwise_insertionSort _ l

theorem pairwise_byPriorityAsc (l : List ScoredEntry) :
    (byPriorityAsc l).Pairwise fun a b => a.priority ≤ b.priority := by
  have : Std.Total fun a b : ScoredEntry => a.priority ≤ b.priority :=
    ⟨fun a b => le_total a.priority b.priority⟩
  have : IsTrans ScoredEntry fun a b => a.priority ≤ b.priority :=
    ⟨fun _ _ _ hab hbc => hab.trans hbc⟩
  exact List.pairwise_insertionSort _ l

/-- Marking keeps the length. -/
theorem length_foldl_set (full : List ScoredEntry) : ∀ result : List Allocation,
    (full.foldl (fun result e => result.set e.originalIndex .full) result).length =
      result.length := by
  induction full with
  | nil => intro result; rfl
  | cons e full ih => intro result; rw [List.foldl_cons, ih, List.length_set]

@[simp] theorem length_mark (n : ℕ) (full : List ScoredEntry) : (mark n full).length = n := by
  rw [mark, length_foldl_set, List.length_replicate]

theorem getElem?_foldl_set (full : List ScoredEntry) (j : ℕ) : ∀ result : List Allocation,
    (full.foldl (fun result e => result.set e.originalIndex .full) result)[j]? =
      if (∃ e ∈ full, e.originalIndex = j) ∧ j < result.length then some .full
      else result[j]? := by
  induction full with
  | nil => intro result; simp
  | cons e full ih =>
    intro result
    rw [List.foldl_cons, ih, List.length_set, List.getElem?_set]
    by_cases hj : j < result.length
    · by_cases he : e.originalIndex = j
      · simp [hj, he]
      · simp [hj, he]
    · by_cases he : e.originalIndex = j
      · subst he
        simp [hj]
      · simp [hj, he]

/-- A position is marked in full where an entry says so. -/
theorem getElem?_mark (n j : ℕ) (full : List ScoredEntry) :
    (mark n full)[j]? =
      if j < n then some (if ∃ e ∈ full, e.originalIndex = j then .full else .omit) else none := by
  rw [mark, getElem?_foldl_set, List.length_replicate, List.getElem?_replicate]
  by_cases hj : j < n
  · by_cases he : ∃ e ∈ full, e.originalIndex = j <;> simp [hj, he]
  · simp [hj]

/-- The original positions are those of the entries. -/
def Positioned (entries : List ScoredEntry) : Prop :=
  (entries.map ScoredEntry.originalIndex).Perm (List.range entries.length)

instance : Decidable (Positioned entries) :=
  inferInstanceAs (Decidable ((entries.map ScoredEntry.originalIndex).Perm _))

theorem Positioned.nodup_map (h : Positioned entries) :
    (entries.map ScoredEntry.originalIndex).Nodup :=
  h.nodup_iff.2 List.nodup_range

theorem Positioned.nodup (h : Positioned entries) : entries.Nodup :=
  h.nodup_map.of_map

theorem Positioned.lt (h : Positioned entries) {e : ScoredEntry} (he : e ∈ entries) :
    e.originalIndex < entries.length :=
  List.mem_range.1 (h.subset (List.mem_map_of_mem he))

theorem Positioned.injective (h : Positioned entries) {e e' : ScoredEntry} (he : e ∈ entries)
    (he' : e' ∈ entries) (heq : e.originalIndex = e'.originalIndex) : e = e' :=
  List.inj_on_of_nodup_map h.nodup_map he he' heq

/-- An entry is given in full exactly when it is among the marked ones. -/
theorem mem_givenInFull_mark (h : Positioned entries) {full : List ScoredEntry}
    (hfull : full ⊆ entries) {e : ScoredEntry} :
    e ∈ givenInFull entries (mark entries.length full) ↔ e ∈ full := by
  rw [givenInFull, List.mem_filter, decide_eq_true_eq]
  constructor
  · rintro ⟨he, hmark⟩
    rw [getElem?_mark, if_pos (h.lt he)] at hmark
    by_cases hex : ∃ e' ∈ full, e'.originalIndex = e.originalIndex
    · obtain ⟨e', he', heq⟩ := hex
      rwa [← h.injective (hfull he') he heq]
    · rw [if_neg hex] at hmark
      cases hmark
  · intro he
    refine ⟨hfull he, ?_⟩
    rw [getElem?_mark, if_pos (h.lt (hfull he)), if_pos ⟨e, he, rfl⟩]

theorem givenInFull_perm (h : Positioned entries) {full : List ScoredEntry}
    (hfull : full ⊆ entries) (hnd : full.Nodup) :
    (givenInFull entries (mark entries.length full)).Perm full :=
  (List.perm_ext_iff_of_nodup (h.nodup.filter _) hnd).2 fun _ => mem_givenInFull_mark h hfull

/-- Marks are the same where the marked entries are. -/
theorem mark_congr {n : ℕ} {full full' : List ScoredEntry} (h : ∀ e, e ∈ full ↔ e ∈ full') :
    mark n full = mark n full' := by
  refine List.ext_getElem? fun j => ?_
  rw [getElem?_mark, getElem?_mark]
  simp only [h]

/-! ## The reservations -/

theorem mem_group {t : GrainType} {e : ScoredEntry} :
    e ∈ group entries t ↔ e ∈ entries ∧ e.grainType = t := by
  simp [group]

theorem mem_represented {t : GrainType} :
    t ∈ represented entries ↔ ∃ e ∈ entries, e.grainType = t := by
  simp [represented]

theorem mem_reserve {m : ℕ} {e : ScoredEntry} :
    e ∈ reserve o entries m ↔ e ∈ (group entries e.grainType).take m := by
  rw [reserve, List.mem_flatMap]
  constructor
  · rintro ⟨t, -, he⟩
    have ht : e.grainType = t := (mem_group.1 (List.mem_of_mem_take he)).2
    rwa [ht]
  · intro he
    have hin := mem_group.1 (List.mem_of_mem_take he)
    exact ⟨e.grainType, (o.types_perm _).symm.subset (mem_represented.2 ⟨e, hin.1, rfl⟩), he⟩

theorem reserve_subset {m : ℕ} : reserve o entries m ⊆ entries := fun _ he =>
  (mem_group.1 (List.mem_of_mem_take (mem_reserve.1 he))).1

theorem reserve_perm (o o' : HashOrder) (entries : List ScoredEntry) (m : ℕ) :
    (reserve o entries m).Perm (reserve o' entries m) :=
  List.Perm.flatMap_right _ ((o.types_perm _).trans (o'.types_perm _).symm)

theorem nodup_group (h : entries.Nodup) (t : GrainType) : (group entries t).Nodup :=
  (perm_byPriorityDesc _).nodup_iff.2 (h.filter _)

theorem nodup_reserve (h : entries.Nodup) {m : ℕ} : (reserve o entries m).Nodup := by
  rw [reserve, List.nodup_flatMap]
  constructor
  · intro t _
    exact (nodup_group h t).sublist (List.take_sublist ..)
  · have hnd : (o.types (represented entries)).Nodup :=
      (o.types_perm _).nodup_iff.2 (List.nodup_dedup _)
    refine hnd.imp fun {t t'} hne => ?_
    rw [Function.onFun, List.disjoint_left]
    intro e he he'
    exact hne ((mem_group.1 (List.mem_of_mem_take he)).2.symm.trans
      (mem_group.1 (List.mem_of_mem_take he')).2)

/-- Nothing reserved stands below something of its type that is not. -/
theorem reserve_fair {m : ℕ} {e e' : ScoredEntry} (he : e ∈ entries)
    (hout : e ∉ reserve o entries m) (hin : e' ∈ reserve o entries m)
    (ht : e'.grainType = e.grainType) : e.priority ≤ e'.priority := by
  rw [mem_reserve] at hout hin
  rw [ht] at hin
  have hsplit : e ∈ (group entries e.grainType).drop m := by
    have hmem := mem_group.2 ⟨he, rfl⟩
    rw [← List.take_append_drop m (group entries e.grainType), List.mem_append] at hmem
    exact hmem.resolve_left hout
  have hsorted : (group entries e.grainType).Pairwise fun a b => b.priority ≤ a.priority :=
    pairwise_byPriorityDesc _
  rw [← List.take_append_drop m (group entries e.grainType), List.pairwise_append] at hsorted
  exact hsorted.2.2 e' hin e hsplit

/-- Every represented type has one of its best entries reserved. -/
theorem reserve_top {m : ℕ} (hm : 1 ≤ m) {e : ScoredEntry} (he : e ∈ entries) :
    ∃ e' ∈ reserve o entries m, e'.grainType = e.grainType ∧ IsTop entries e' := by
  have hsorted : (group entries e.grainType).Pairwise fun a b => b.priority ≤ a.priority :=
    pairwise_byPriorityDesc _
  have hmem : e ∈ group entries e.grainType := mem_group.2 ⟨he, rfl⟩
  cases hg : group entries e.grainType with
  | nil => rw [hg] at hmem; cases hmem
  | cons top rest =>
    rw [hg, List.pairwise_cons] at hsorted
    have htop : top ∈ entries ∧ top.grainType = e.grainType :=
      mem_group.1 (by rw [hg]; exact List.mem_cons_self ..)
    refine ⟨top, ?_, htop.2, htop.1, fun e' he' ht => ?_⟩
    · rw [mem_reserve, htop.2, hg]
      obtain ⟨k, rfl⟩ := Nat.exists_eq_add_of_le' hm
      simp
    · have hin : e' ∈ group entries e.grainType := mem_group.2 ⟨he', ht.trans htop.2⟩
      rw [hg] at hin
      rcases List.mem_cons.1 hin with rfl | hrest
      · exact le_rfl
      · exact hsorted.1 e' hrest

/-! ## The trim -/

section Trimmed

variable {budget : ℕ} {cfg : GrainTypeDiversityConfig}

theorem tracks_reserve (l : List ScoredEntry) :
    Tracks ScoredEntry.fullTokens ScoredEntry.grainType l (weight ScoredEntry.fullTokens l)
      (fun t => countOf ScoredEntry.grainType t l) := ⟨rfl, rfl⟩

theorem perm_removable (l : List ScoredEntry) : (byPriorityAsc (o.reserved l)).Perm l :=
  (perm_byPriorityAsc _).trans (o.reserved_perm l)

theorem settled_removable (l : List ScoredEntry) :
    Ration.Settled ScoredEntry.grainType (byPriorityAsc (o.reserved l)) l := fun _ ha hnot =>
  absurd ((perm_removable l).symm.subset ha) hnot

theorem trimmed_sublist : (trimmed o entries budget cfg).Sublist
    (reserve o entries cfg.minPerType) := trim_sublist ..

theorem trimmed_subset : trimmed o entries budget cfg ⊆ entries := fun _ he =>
  reserve_subset (trimmed_sublist.subset he)

theorem nodup_trimmed (h : entries.Nodup) : (trimmed o entries budget cfg).Nodup :=
  (nodup_reserve h).sublist trimmed_sublist

/-- Nothing the trim keeps stands below something of its type that it drops. -/
theorem trimmed_fair (h : entries.Nodup) {e e' : ScoredEntry} (he : e ∈ entries)
    (hout : e ∉ trimmed o entries budget cfg) (hin : e' ∈ trimmed o entries budget cfg)
    (ht : e'.grainType = e.grainType) : e.priority ≤ e'.priority := by
  by_cases hres : e ∈ reserve o entries cfg.minPerType
  · have hsorted : (byPriorityAsc (o.reserved (reserve o entries cfg.minPerType))).Pairwise
        fun a b => ¬ b.priority < a.priority :=
      (pairwise_byPriorityAsc _).imp fun hab => not_lt.2 hab
    have hfair := trim_fair (fun a b : ScoredEntry => a.priority < b.priority)
      (reservationCap budget cfg.maxReservationPct) _ (tracks_reserve _)
      (perm_removable _).subset (nodup_reserve h) ((perm_removable _).nodup_iff.2 (nodup_reserve h))
      (settled_removable _) hsorted e hres hout e' hin ht
    exact not_lt.1 hfair
  · exact reserve_fair he hres (trimmed_sublist.subset hin) ht

/-- **Every represented type keeps one of its best entries.** -/
theorem trimmed_top (h : entries.Nodup) (hm : 1 ≤ cfg.minPerType) {e : ScoredEntry}
    (he : e ∈ entries) : ∃ e' ∈ trimmed o entries budget cfg,
      e'.grainType = e.grainType ∧ IsTop entries e' := by
  obtain ⟨top, hres, ht, htop⟩ := reserve_top (o := o) hm he
  by_cases hkept : top ∈ trimmed o entries budget cfg
  · exact ⟨top, hkept, ht, htop⟩
  · -- what stays of the type is as good as the entry that went
    obtain ⟨b, hb, hbt⟩ := trim_keeps (reservationCap budget cfg.maxReservationPct)
      (byPriorityAsc (o.reserved (reserve o entries cfg.minPerType))) (tracks_reserve _)
      ((perm_removable _).nodup_iff.2 (nodup_reserve h)) (perm_removable _).subset top hres
    have hb' : b ∈ trimmed o entries budget cfg := hb
    have hle : top.priority ≤ b.priority := trimmed_fair h htop.1 hkept hb' hbt
    refine ⟨b, hb', hbt.trans ht, trimmed_subset hb', fun e'' he'' ht'' => ?_⟩
    exact (htop.2 e'' he'' (ht''.trans hbt)).trans hle

/-- The trim ends within the cap or with one top entry for each type. -/
theorem trimmed_weight (h : entries.Nodup) (hm : 1 ≤ cfg.minPerType) :
    weight ScoredEntry.fullTokens (trimmed o entries budget cfg) ≤
        reservationCap budget cfg.maxReservationPct ∨
      TopOfEach entries (trimmed o entries budget cfg) := by
  have hor := trim_weight_or_single (reservationCap budget cfg.maxReservationPct)
    (byPriorityAsc (o.reserved (reserve o entries cfg.minPerType)))
    (tracks_reserve (reserve o entries cfg.minPerType)) (perm_removable _).subset
    (nodup_reserve h) ((perm_removable _).nodup_iff.2 (nodup_reserve h)) (settled_removable _)
  refine hor.imp id fun hone => ?_
  have hsame : ∀ a ∈ trimmed o entries budget cfg, ∀ b ∈ trimmed o entries budget cfg,
      a.grainType = b.grainType → a = b := by
    intro a ha b hb hab
    by_contra hne
    have hle : countOf ScoredEntry.grainType a.grainType (trimmed o entries budget cfg) ≤ 1 :=
      hone a ha
    exact absurd hle (not_le.2 (one_lt_countOf ha hb (Ne.symm hne) hab.symm))
  refine ⟨fun e he => ?_, ?_, fun e he => ?_⟩
  · obtain ⟨e', he', ht, htop⟩ := @trimmed_top o entries budget cfg h hm e (trimmed_subset he)
    rwa [hsame e he e' he' ht.symm]
  · exact (List.nodup_map_iff_inj_on (nodup_trimmed h)).2 hsame
  · obtain ⟨e', he', ht, -⟩ := @trimmed_top o entries budget cfg h hm e he
    exact List.mem_map.2 ⟨e', he', ht⟩

/-! ## The entries in full -/

theorem mem_inFull {e : ScoredEntry} : e ∈ inFull o entries budget cfg ↔
    e ∈ trimmed o entries budget cfg ∨
      e ∈ filled entries budget (trimmed o entries budget cfg) := by
  rw [inFull, List.mem_append]

theorem mem_of_mem_filled {kept : List ScoredEntry} {e : ScoredEntry}
    (he : e ∈ filled entries budget kept) : e ∈ entries ∧ e ∉ kept := by
  have hin := (fill_sublist _ _ _).subset he
  simpa using hin

theorem inFull_subset : inFull o entries budget cfg ⊆ entries := by
  intro e he
  rcases mem_inFull.1 he with hkept | hfill
  · exact trimmed_subset hkept
  · exact (mem_of_mem_filled hfill).1

theorem nodup_inFull (h : entries.Nodup) : (inFull o entries budget cfg).Nodup := by
  rw [inFull, List.nodup_append']
  refine ⟨nodup_trimmed h, ?_, ?_⟩
  · exact ((perm_byPriorityDesc _).nodup_iff.2 (h.filter _)).sublist (fill_sublist _ _ _)
  · intro e hkept hfill
    exact (mem_of_mem_filled hfill).2 hkept

/-- What the fill adds stays within seven tenths of what is left. -/
theorem weight_filled_le (kept : List ScoredEntry) :
    weight ScoredEntry.fullTokens (filled entries budget kept) ≤
      (budget - weight ScoredEntry.fullTokens kept) * 70 / 100 := by
  have h := weight_fill_le (w := ScoredEntry.fullTokens)
    ((budget - weight ScoredEntry.fullTokens kept) * 70 / 100)
    (byPriorityDesc (entries.filter fun e => e ∉ kept)) 0 (Nat.zero_le _)
  rwa [Nat.zero_add] at h

/-- **The tokens in full are within the budget or are the reserved ones.** -/
theorem weight_inFull_le :
    weight ScoredEntry.fullTokens (inFull o entries budget cfg) ≤
      max budget (weight ScoredEntry.fullTokens (trimmed o entries budget cfg)) := by
  have h := @weight_filled_le entries budget (trimmed o entries budget cfg)
  rw [inFull, weight_append]
  omega

/-- **Within a type nothing is left out for something worse that is as large.** -/
theorem inFull_fair (h : entries.Nodup) {e e' : ScoredEntry} (he : e ∈ entries)
    (hout : e ∉ inFull o entries budget cfg) (ht : e'.grainType = e.grainType)
    (hlt : e'.priority < e.priority) (hle : e.fullTokens ≤ e'.fullTokens) :
    e' ∉ inFull o entries budget cfg := by
  rw [mem_inFull, not_or] at hout
  intro hin
  rcases mem_inFull.1 hin with hkept | hfill
  · exact absurd (trimmed_fair h he hout.1 hkept ht) (not_le.2 hlt)
  · have hsorted := (pairwise_byPriorityDesc
      (entries.filter fun e => e ∉ trimmed o entries budget cfg)).imp
        fun {a b} hab => not_lt.2 hab
    have hmem : e ∈ byPriorityDesc (entries.filter fun e => e ∉ trimmed o entries budget cfg) := by
      simpa using ⟨he, hout.1⟩
    have hlight := fill_fair (fun a b : ScoredEntry => a.priority < b.priority) hlt hsorted
      hmem hout.2 hfill
    omega

/-! ## The hash orders -/

/-- Another entry of the type is reserved that is as good or better. -/
def Surpassed (entries : List ScoredEntry) (minPerType : ℕ) (e : ScoredEntry) : Prop :=
  ∃ e' ∈ reserve .inserted entries minPerType,
    e' ≠ e ∧ e'.grainType = e.grainType ∧ e.priority ≤ e'.priority

instance (entries : List ScoredEntry) (minPerType : ℕ) (e : ScoredEntry) :
    Decidable (Surpassed entries minPerType e) :=
  inferInstanceAs (Decidable (∃ e' ∈ reserve .inserted entries minPerType, _))

/-- The reserved entries the trim drops where it comes to them above the cap. -/
def contested (entries : List ScoredEntry) (minPerType : ℕ) : List ScoredEntry :=
  (reserve .inserted entries minPerType).filter fun e => Surpassed entries minPerType e

/-- The trim has no ties to break: it ends before it comes to two entries of one
priority that it may drop, since without those below the reservations are within the
cap. -/
def Untied (entries : List ScoredEntry) (budget : ℕ) (cfg : GrainTypeDiversityConfig) : Prop :=
  ∀ a ∈ contested entries cfg.minPerType, ∀ b ∈ contested entries cfg.minPerType, a ≠ b →
    a.priority = b.priority →
      weight ScoredEntry.fullTokens (reserve .inserted entries cfg.minPerType) ≤
        reservationCap budget cfg.maxReservationPct +
          weight ScoredEntry.fullTokens
            ((contested entries cfg.minPerType).filter fun e => e.priority < a.priority)

instance (entries : List ScoredEntry) (budget : ℕ) (cfg : GrainTypeDiversityConfig) :
    Decidable (Untied entries budget cfg) :=
  inferInstanceAs (Decidable (∀ a ∈ contested entries cfg.minPerType, _))

/-- The trim comes to nothing but contested entries. -/
theorem trimmed_contested (h : entries.Nodup) (o : HashOrder) :
    trimmed o entries budget cfg =
      trim ScoredEntry.fullTokens ScoredEntry.grainType
        (reservationCap budget cfg.maxReservationPct)
        ((byPriorityAsc (o.reserved (reserve o entries cfg.minPerType))).filter fun e =>
          Surpassed entries cfg.minPerType e)
        (reserve o entries cfg.minPerType)
        (weight ScoredEntry.fullTokens (reserve o entries cfg.minPerType))
        (fun t => countOf ScoredEntry.grainType t (reserve o entries cfg.minPerType)) := by
  have hnd : (byPriorityAsc (o.reserved (reserve o entries cfg.minPerType))).Nodup :=
    (perm_removable _).nodup_iff.2 (nodup_reserve h)
  refine (trim_filter _ _ _ (tracks_reserve _) (perm_removable _).subset (nodup_reserve h) hnd
    (settled_removable _) ?_).symm
  refine ((pairwise_byPriorityAsc _).and hnd).imp_of_mem fun {x y} _ hy hxy hx htype => ?_
  -- a later entry of the type would surpass `x`
  have hres := (reserve_perm o .inserted entries _).subset ((perm_removable _).subset hy)
  exact absurd ⟨y, hres, Ne.symm hxy.2, htype, hxy.1⟩ (of_decide_eq_false hx)

/-- Without ties the hash orders do not change what the trim keeps. -/
theorem trimmed_perm (h : entries.Nodup) (hu : Untied entries budget cfg) (o o' : HashOrder) :
    (trimmed o entries budget cfg).Perm (trimmed o' entries budget cfg) := by
  have hres := reserve_perm o o' entries cfg.minPerType
  have hins := reserve_perm .inserted o entries cfg.minPerType
  have hcount : (fun t => countOf ScoredEntry.grainType t (reserve o entries cfg.minPerType)) =
      fun t => countOf ScoredEntry.grainType t (reserve o' entries cfg.minPerType) :=
    funext fun t => countOf_perm hres t
  have hcontested : ∀ o₁ : HashOrder,
      ((byPriorityAsc (o₁.reserved (reserve o₁ entries cfg.minPerType))).filter fun e =>
        Surpassed entries cfg.minPerType e).Perm (contested entries cfg.minPerType) :=
    fun o₁ => ((perm_removable _).trans (reserve_perm o₁ .inserted entries _)).filter _
  have hnd : (contested entries cfg.minPerType).Nodup := (nodup_reserve h).filter _
  rw [trimmed_contested h o, trimmed_contested h o', ← weight_perm hres, ← hcount]
  rw [trim_untied ScoredEntry.priority _ _ ((hcontested o).trans (hcontested o').symm)
    ((pairwise_byPriorityAsc _).filter _) ((pairwise_byPriorityAsc _).filter _)
    (tracks_reserve _) ((hcontested o).nodup_iff.2 hnd)]
  · exact trim_perm _ _ _ _ hres
  · intro e he
    exact (perm_removable _).subset (List.mem_of_mem_filter he)
  · intro e he
    obtain ⟨e', he', hne, htype, hle⟩ := of_decide_eq_true (List.mem_filter.1 he).2
    exact ⟨e', hins.subset he', hne, htype, hle⟩
  · intro a ha b hb hne heq
    have hle := hu a ((hcontested o).subset ha) b ((hcontested o).subset hb) hne heq
    rwa [weight_perm hins, ← weight_perm ((hcontested o).filter _)] at hle

/-- The fill depends on which entries are kept, not on their order. -/
theorem filled_perm {kept kept' : List ScoredEntry} (h : kept.Perm kept') :
    filled entries budget kept = filled entries budget kept' := by
  unfold filled
  rw [weight_perm h]
  congr 2
  exact List.filter_congr fun e _ => by simp [h.mem_iff]

theorem mem_inFull_congr (h : entries.Nodup) (hu : Untied entries budget cfg) (o o' : HashOrder)
    (e : ScoredEntry) : e ∈ inFull o entries budget cfg ↔ e ∈ inFull o' entries budget cfg := by
  have hperm := trimmed_perm h hu o o'
  rw [mem_inFull, mem_inFull, hperm.mem_iff, filled_perm hperm]

end Trimmed

/-! ## The allocation -/

/-- The reservations cannot outgrow the budget: the share is at most the whole, or
what is reserved is within the budget. -/
def WithinBudget (entries : List ScoredEntry) (budget : ℕ) (cfg : GrainTypeDiversityConfig) :
    Prop :=
  cfg.maxReservationPct ≤ 1 ∨
    weight ScoredEntry.fullTokens (reserve .inserted entries cfg.minPerType) ≤ budget

theorem reservationCap_le {budget : ℕ} {pct : ℚ} (h : pct ≤ 1) :
    reservationCap budget pct ≤ budget := by
  have hmul : (budget : ℚ) * pct ≤ ((budget : ℤ) : ℚ) := by
    have hb : (0 : ℚ) ≤ budget := Nat.cast_nonneg budget
    calc (budget : ℚ) * pct ≤ budget * 1 := mul_le_mul_of_nonneg_left h hb
      _ = ((budget : ℤ) : ℚ) := by simp
  have hfloor : ⌊(budget : ℚ) * pct⌋ ≤ (budget : ℤ) := by
    have := Int.floor_le_floor hmul
    rwa [Int.floor_intCast] at this
  rw [reservationCap]
  omega

/-- A top entry of every type can be chosen. -/
theorem exists_topOfEach (entries : List ScoredEntry) : ∃ tops, TopOfEach entries tops := by
  have hex : ∀ t, ∃ e : ScoredEntry,
      t ∈ represented entries → e.grainType = t ∧ IsTop entries e := by
    intro t
    by_cases ht : t ∈ represented entries
    · obtain ⟨e, he, het⟩ := mem_represented.1 ht
      obtain ⟨top, -, htop, his⟩ := reserve_top (o := .inserted) le_rfl he
      exact ⟨top, fun _ => ⟨htop.trans het, his⟩⟩
    · exact ⟨⟨0, 0, 0, 0, t⟩, fun h => absurd h ht⟩
  choose top htop using hex
  have hmap : ((represented entries).map top).map ScoredEntry.grainType = represented entries := by
    rw [List.map_map]
    exact (List.map_congr_left fun t ht => (htop t ht).1).trans (List.map_id _)
  refine ⟨(represented entries).map top, fun e he => ?_, ?_, fun e he => ?_⟩
  · obtain ⟨t, ht, rfl⟩ := List.mem_map.1 he
    exact (htop t ht).2
  · rw [hmap]
    exact List.nodup_dedup _
  · rw [hmap]
    exact mem_represented.2 ⟨e, he, rfl⟩

/-- The tokens in full are within the budget or within one top entry of each type. -/
theorem inFull_bounded {budget : ℕ} {cfg : GrainTypeDiversityConfig} (h : entries.Nodup)
    (hm : 1 ≤ cfg.minPerType) (hb : WithinBudget entries budget cfg) (o : HashOrder) :
    ∃ tops, TopOfEach entries tops ∧
      weight ScoredEntry.fullTokens (inFull o entries budget cfg) ≤
        max budget (weight ScoredEntry.fullTokens tops) := by
  have hle := @weight_inFull_le o entries budget cfg
  -- within the budget any choice of top entries serves
  have hsmall : weight ScoredEntry.fullTokens (trimmed o entries budget cfg) ≤ budget →
      ∃ tops, TopOfEach entries tops ∧
        weight ScoredEntry.fullTokens (inFull o entries budget cfg) ≤
          max budget (weight ScoredEntry.fullTokens tops) := by
    intro hkept
    obtain ⟨tops, htops⟩ := exists_topOfEach entries
    exact ⟨tops, htops, by omega⟩
  rcases hb with hpct | hres
  · rcases @trimmed_weight o entries budget cfg h hm with hcap | htops
    · exact hsmall (hcap.trans (reservationCap_le hpct))
    · exact ⟨_, htops, hle⟩
  · rw [weight_perm (reserve_perm .inserted o entries cfg.minPerType)] at hres
    have hsub : weight ScoredEntry.fullTokens (trimmed o entries budget cfg) ≤
        weight ScoredEntry.fullTokens (reserve o entries cfg.minPerType) :=
      weight_sublist trimmed_sublist
    exact hsmall (hsub.trans hres)

/-- Without a budget everything is given in full. -/
theorem givenInFull_none (h : Positioned entries) :
    givenInFull entries (List.replicate entries.length .full) = entries := by
  rw [givenInFull, List.filter_eq_self]
  intro e he
  rw [decide_eq_true_eq, List.getElem?_replicate, if_pos (h.lt he)]

/-- **The allocation keeps every type present**, whatever the hash orders, where the
share does not exceed the budget and the trim has no ties to break. -/
theorem diverse_of {tokenBudget : Option ℕ} {cfg : GrainTypeDiversityConfig}
    (hpos : Positioned entries) (hmin : 1 ≤ cfg.minPerType)
    (hwithin : ∀ budget ∈ tokenBudget, WithinBudget entries budget cfg)
    (huntied : ∀ budget ∈ tokenBudget, Untied entries budget cfg) :
    Diverse entries tokenBudget cfg := by
  cases tokenBudget with
  | none =>
    have htop : ∀ e ∈ entries, ∃ e' ∈ entries, e'.grainType = e.grainType ∧ IsTop entries e' := by
      intro e he
      obtain ⟨top, htop, ht, his⟩ := reserve_top (o := .inserted) hmin he
      exact ⟨top, his.1, ht, his⟩
    refine ⟨fun o => ?_, fun o => ?_, fun o budget hb => ?_, fun o e he hout => ?_, fun _ _ => rfl⟩
    · exact List.length_replicate ..
    · simpa only [allocateWithDiversity, givenInFull_none hpos] using htop
    · cases hb
    · simp only [allocateWithDiversity, givenInFull_none hpos] at hout
      exact absurd he hout
  | some budget =>
    have hnd := hpos.nodup
    have hmem : ∀ (o : HashOrder) (e : ScoredEntry),
        e ∈ givenInFull entries (allocateWithDiversity o entries (some budget) cfg) ↔
          e ∈ inFull o entries budget cfg :=
      fun o e => mem_givenInFull_mark hpos inFull_subset
    refine ⟨fun o => length_mark .., fun o e he => ?_, fun o b hb => ?_, fun o e he hout e' _ ht
      hlt hle => ?_, fun o o' => ?_⟩
    · obtain ⟨e', he', ht, htop⟩ := @trimmed_top o entries budget cfg hnd hmin e he
      exact ⟨e', (hmem o e').2 (mem_inFull.2 (.inl he')), ht, htop⟩
    · cases hb
      have hperm : (givenInFull entries (allocateWithDiversity o entries (some budget) cfg)).Perm
          (inFull o entries budget cfg) := givenInFull_perm hpos inFull_subset (nodup_inFull hnd)
      rw [weight_perm hperm]
      exact inFull_bounded hnd hmin (hwithin budget rfl) o
    · rw [hmem] at hout ⊢
      exact inFull_fair hnd he hout ht hlt hle
    · exact mark_congr (mem_inFull_congr hnd (huntied budget rfl) o o')

end

/-- Two facts and two events, the lesser ones of one priority. -/
def tiedEntries : List ScoredEntry :=
  [⟨2, 1, 0, 0, .fact⟩, ⟨1, 30, 0, 1, .fact⟩, ⟨2, 1, 0, 2, .event⟩, ⟨1, 30, 0, 3, .event⟩]

/-- Two facts and two events whose best are of one priority. -/
def unreachedEntries : List ScoredEntry :=
  [⟨5, 10, 0, 0, .fact⟩, ⟨1, 100, 0, 1, .fact⟩, ⟨5, 10, 0, 2, .event⟩, ⟨2, 10, 0, 3, .event⟩]

/-- The lesser fact goes first, and that is enough. -/
theorem diverse_of_one : Diverse unreachedEntries (some 100) ⟨2, 1 / 2⟩ :=
  diverse_of (by decide) (by decide) (fun _ _ => .inl (by norm_num)) fun _ h => by
    cases h
    decide +kernel

/-- With two reservations a type and room for three, which of the two lesser entries
goes is up to the hash set. -/
theorem tied_not_diverse :
    Positioned tiedEntries ∧ ¬ Diverse tiedEntries (some 64) ⟨2, 1 / 2⟩ := by
  refine ⟨by decide, fun h => ?_⟩
  have hsame := h.deterministic .inserted .reversed
  revert hsame
  decide +kernel

end Deja.Context
