import Deja.Assemble.Engine
import Deja.Lib.Fitting

/-!
# What the budget bounds

The trim loop gives a source the smaller of its share and what is left, and
keeps the first grain of a list whatever it costs.  Where every first grain
fits its share and the shares fit the budget, nothing is cut below its share
and every bound holds; `honoursBudget_iff` says that nothing less will do.

* `budgetPrefix_isSome_iff`, `budgetPrefix_le_iff` — one list.
* `trim_of_fits`, `fits_of_trim` — the loop over the sources.
* `totalCount_capGrains_le_iff` — the cap.
-/

namespace Deja.Assemble

variable {textLen : Json → ℕ}

/-! ## One list -/

/-- The tokens a list costs. -/
abbrev cost (textLen : Json → ℕ) (grains : List CalGrainResult) : ℕ :=
  Fitting.weightOf (estimateGrainTokens textLen) grains

theorem cost_cons (g : CalGrainResult) (gs : List CalGrainResult) :
    cost textLen (g :: gs) = estimateGrainTokens textLen g + cost textLen gs :=
  Fitting.weightOf_cons _ g gs

/-- The leading grains of a list that fit `n` tokens. -/
abbrev fittingCount (textLen : Json → ℕ) (n : ℕ) (grains : List CalGrainResult) : ℕ :=
  Fitting.fitting (estimateGrainTokens textLen) n grains

/-- The first grain, if there is one, costs at most `n`. -/
def HeadFits (textLen : Json → ℕ) (n : ℕ) (grains : List CalGrainResult) : Prop :=
  ∀ g, grains.head? = some g → estimateGrainTokens textLen g ≤ n

/-- Every sum the loop forms on the way to `n` tokens fits 32 bits. -/
def SumsFit (textLen : Json → ℕ) (used n : ℕ) (grains : List CalGrainResult) : Prop :=
  ∀ pre g post, grains = pre ++ g :: post → used + cost textLen pre ≤ n →
    used + cost textLen pre + estimateGrainTokens textLen g < 2 ^ 32

theorem u32Add_eq_none {a b : ℕ} : u32Add a b = none ↔ ¬ a + b < 2 ^ 32 := by
  simp [u32Add]

theorem u32Add_eq_some {a b c : ℕ} : u32Add a b = some c ↔ a + b < 2 ^ 32 ∧ a + b = c := by
  simp [u32Add]

theorem sumsFit_cons {used n : ℕ} {g : CalGrainResult} {gs : List CalGrainResult} :
    SumsFit textLen used n (g :: gs) ↔
      (used ≤ n → used + estimateGrainTokens textLen g < 2 ^ 32) ∧
        SumsFit textLen (used + estimateGrainTokens textLen g) n gs := by
  constructor
  · intro h
    refine ⟨fun hle => by simpa using h [] g gs rfl (by simpa using hle), ?_⟩
    intro pre g' post hgs hle
    have hsum := h (g :: pre) g' post (by rw [hgs]; rfl)
    simp only [cost_cons] at hsum
    have hlt := hsum (by omega)
    omega
  · rintro ⟨hfirst, hrest⟩ pre g' post hgs hle
    cases pre with
    | nil =>
      obtain ⟨rfl, rfl⟩ := List.cons.inj hgs
      simpa using hfirst (by simpa using hle)
    | cons p pre =>
      obtain ⟨rfl, rfl⟩ := List.cons.inj hgs
      simp only [cost_cons] at hle ⊢
      have hlt := hrest pre g' post rfl (by omega)
      omega

theorem sumsFit_of_lt {used n : ℕ} (h : n < used) (gs : List CalGrainResult) :
    SumsFit textLen used n gs := by
  intro pre g post _ hle
  omega

/-- A loop that has not gone over its budget: it returns when every sum it
forms fits, and stays within the budget. -/
theorem budgetPrefixFrom_isSome_iff {budget : ℕ} (gs : List CalGrainResult) :
    ∀ {kept used : ℕ}, used ≤ budget → (kept = 0 → HeadFits textLen (budget - used) gs) →
      ((budgetPrefixFrom textLen budget kept used gs).isSome ↔
        SumsFit textLen used budget gs) := by
  induction gs with
  | nil =>
    intro kept used _ _
    simp [budgetPrefixFrom, SumsFit]
  | cons g gs ih =>
    intro kept used hused hhead
    rw [sumsFit_cons]
    cases hadd : u32Add used (estimateGrainTokens textLen g) with
    | none =>
      have hover := u32Add_eq_none.1 hadd
      simp only [budgetPrefixFrom, hadd, Option.isSome_none, Bool.false_eq_true, false_iff,
        not_and]
      exact fun hfirst => absurd (hfirst hused) hover
    | some sum =>
      obtain ⟨hlt, rfl⟩ := u32Add_eq_some.1 hadd
      by_cases hstop : budget < used + estimateGrainTokens textLen g ∧ 0 < kept
      · have hrest : SumsFit textLen (used + estimateGrainTokens textLen g) budget gs :=
          sumsFit_of_lt hstop.1 gs
        simp only [budgetPrefixFrom, hadd, if_pos hstop, Option.isSome_some, true_iff]
        exact ⟨fun _ => hlt, hrest⟩
      · have hle : used + estimateGrainTokens textLen g ≤ budget := by
          by_cases hk : kept = 0
          · have := hhead hk g rfl
            omega
          · omega
        have hih := @ih (kept + 1) _ hle (by omega)
        simp only [budgetPrefixFrom, hadd, if_neg hstop, hih, hlt, implies_true, true_and]

/-- What the loop returns: a prefix, its cost, and why it stopped. -/
theorem budgetPrefixFrom_eq_some {budget : ℕ} (gs : List CalGrainResult) :
    ∀ {kept used k u : ℕ}, budgetPrefixFrom textLen budget kept used gs = some (k, u) →
      ∃ m ≤ gs.length, k = kept + m ∧ u = used + cost textLen (gs.take m) ∧
        (0 < kept → used ≤ budget → u ≤ budget) ∧ (gs ≠ [] → 0 < k) ∧
        (∀ g, (gs.drop m).head? = some g → budget < u + estimateGrainTokens textLen g) := by
  induction gs with
  | nil =>
    intro kept used k u h
    obtain ⟨rfl, rfl⟩ : kept = k ∧ used = u := by simpa [budgetPrefixFrom] using h
    exact ⟨0, le_rfl, rfl, by simp, fun _ h => h, by simp, by simp⟩
  | cons g gs ih =>
    intro kept used k u h
    cases hadd : u32Add used (estimateGrainTokens textLen g) with
    | none => simp [budgetPrefixFrom, hadd] at h
    | some sum =>
      obtain ⟨hlt, rfl⟩ := u32Add_eq_some.1 hadd
      by_cases hstop : budget < used + estimateGrainTokens textLen g ∧ 0 < kept
      · obtain ⟨rfl, rfl⟩ : kept = k ∧ used = u := by
          simpa [budgetPrefixFrom, hadd, hstop] using h
        refine ⟨0, by simp, rfl, by simp, fun _ h => h, fun _ => hstop.2, ?_⟩
        intro g' hg'
        obtain rfl : g = g' := by simpa using hg'
        exact hstop.1
      · simp only [budgetPrefixFrom, hadd, if_neg hstop] at h
        obtain ⟨m, hm, rfl, rfl, hwithin, -, hnext⟩ := ih h
        refine ⟨m + 1, by simpa using hm, by omega, by simp [Nat.add_assoc], ?_, by omega, ?_⟩
        · intro hk _
          exact hwithin (by omega) (by omega)
        · simpa using hnext

theorem headFits_nil (n : ℕ) : HeadFits textLen n [] := by simp [HeadFits]

theorem headFits_cons {n : ℕ} {g : CalGrainResult} {gs : List CalGrainResult} :
    HeadFits textLen n (g :: gs) ↔ estimateGrainTokens textLen g ≤ n := by
  simp [HeadFits]

/-- **One list keeps its budget exactly when its first grain fits.** -/
theorem budgetPrefix_le_iff {gs : List CalGrainResult} {budget k u : ℕ}
    (h : budgetPrefix textLen gs budget = some (k, u)) :
    u ≤ budget ↔ HeadFits textLen budget gs := by
  cases gs with
  | nil =>
    obtain ⟨rfl, rfl⟩ : 0 = k ∧ 0 = u := by simpa [budgetPrefix, budgetPrefixFrom] using h
    simp [headFits_nil]
  | cons g gs =>
    rw [headFits_cons]
    rw [budgetPrefix] at h
    cases hadd : u32Add 0 (estimateGrainTokens textLen g) with
    | none => simp [budgetPrefixFrom, hadd] at h
    | some sum =>
      obtain ⟨-, rfl⟩ := u32Add_eq_some.1 hadd
      simp only [budgetPrefixFrom, hadd, lt_irrefl, and_false, if_false, Nat.zero_add] at h
      obtain ⟨m, -, -, rfl, hwithin, -⟩ := budgetPrefixFrom_eq_some gs h
      constructor
      · intro hle
        omega
      · intro hle
        exact hwithin Nat.one_pos hle

/-- Where the first grain fits, the loop finds the longest prefix within its
budget. -/
theorem budgetPrefix_eq_fitting {gs : List CalGrainResult} {budget k u : ℕ}
    (h : budgetPrefix textLen gs budget = some (k, u)) (hhead : HeadFits textLen budget gs) :
    k = fittingCount textLen budget gs ∧
      u = cost textLen (gs.take (fittingCount textLen budget gs)) := by
  have hle := (budgetPrefix_le_iff h).2 hhead
  obtain ⟨m, hm, rfl, rfl, -, -, hnext⟩ := budgetPrefixFrom_eq_some gs h
  simp only [Nat.zero_add] at hle hnext ⊢
  have heq : m = fittingCount textLen budget gs := Fitting.eq_fitting hm hle hnext
  exact ⟨heq, by rw [← heq]⟩

theorem fittingCount_eq_zero {gs : List CalGrainResult} {n : ℕ} (h : HeadFits textLen n gs) :
    fittingCount textLen n gs = 0 ↔ gs = [] := by
  cases gs with
  | nil => simp [Fitting.fitting]
  | cons g gs => simp [Fitting.fitting, headFits_cons.1 h]

theorem budgetPrefix_isSome_iff {gs : List CalGrainResult} {budget : ℕ}
    (h : HeadFits textLen budget gs) :
    (budgetPrefix textLen gs budget).isSome ↔ SumsFit textLen 0 budget gs :=
  budgetPrefixFrom_isSome_iff gs (Nat.zero_le _) fun _ => by simpa using h

/-! ## The loop over the sources -/

/-- What the loop does with one source. -/
theorem trim_cons {count remaining : ℕ} {capped : SourceResults} {label : String}
    {grains : List CalGrainResult} {share : ℕ}
    {rest : List ((String × List CalGrainResult) × Option ℕ)}
    {out : List (SourceMeta × List CalGrainResult)} :
    trim textLen count remaining capped (((label, grains), some share) :: rest) = some out ↔
      ∃ keep used out',
        budgetPrefix textLen grains (min share remaining) = some (keep, used) ∧
        trim textLen count (remaining - used) (Assoc.erase label capped) rest = some out' ∧
        out = ({ label := label
                 tokensAllocated := min share remaining
                 tokensUsed := used
                 grainCount := (grains.take keep).length
                 omitted := grains.drop keep ++ (capped.lookup label).getD [] },
               grains.take keep) :: out' := by
  simp only [trim, Option.getD_some]
  cases hcut : budgetPrefix textLen grains (min share remaining) with
  | none => simp
  | some ku =>
    obtain ⟨keep, used⟩ := ku
    simp only [Option.map_eq_some_iff]
    constructor
    · rintro ⟨out', htrim, rfl⟩
      exact ⟨keep, used, out', rfl, htrim, rfl⟩
    · rintro ⟨_, _, out', heq, htrim, rfl⟩
      obtain ⟨rfl, rfl⟩ := Prod.mk.inj (Option.some.inj heq)
      exact ⟨out', htrim, rfl⟩

/-- A source with its share. -/
abbrev Shared := (String × List CalGrainResult) × ℕ

/-- A source whose share holds its first grain and every sum on the way. -/
def Fits (textLen : Json → ℕ) (x : Shared) : Prop :=
  HeadFits textLen x.2 x.1.2 ∧ SumsFit textLen 0 x.2 x.1.2

/-- The input of the loop from sources with shares. -/
def loopInput (xs : List Shared) : List ((String × List CalGrainResult) × Option ℕ) :=
  xs.map fun x => (x.1, some x.2)

/-- What a source gets out of the loop when its share holds: its share, and the
longest prefix within it. -/
structure Kept (textLen : Json → ℕ) (x : Shared) (o : SourceMeta × List CalGrainResult) :
    Prop where
  label : o.1.label = x.1.1
  allocated : o.1.tokensAllocated = x.2
  count : o.1.grainCount = fittingCount textLen x.2 x.1.2
  used : o.1.tokensUsed = cost textLen (x.1.2.take (fittingCount textLen x.2 x.1.2))

theorem Kept.used_le {x : Shared} {o : SourceMeta × List CalGrainResult}
    (h : Kept textLen x o) : o.1.tokensUsed ≤ o.1.tokensAllocated := by
  rw [h.used, h.allocated]
  exact Fitting.sum_take_fitting_le _ _

/-- **Sources that fit their shares are served in full**, when the shares fit
what is left. -/
theorem trim_of_fits (count : ℕ) (xs : List Shared) :
    ∀ {remaining : ℕ} (capped : SourceResults), (xs.map Prod.snd).sum ≤ remaining →
      (∀ x ∈ xs, Fits textLen x) →
      ∃ out, trim textLen count remaining capped (loopInput xs) = some out ∧
        List.Forall₂ (Kept textLen) xs out := by
  induction xs with
  | nil =>
    intro remaining capped _ _
    exact ⟨[], rfl, .nil⟩
  | cons x xs ih =>
    obtain ⟨⟨label, grains⟩, share⟩ := x
    intro remaining capped hsum hfits
    simp only [List.map_cons, List.sum_cons] at hsum
    obtain ⟨hhead, hsums⟩ := hfits _ List.mem_cons_self
    have hmin : min share remaining = share := by omega
    obtain ⟨⟨keep, used⟩, hcut⟩ :=
      Option.isSome_iff_exists.1 ((budgetPrefix_isSome_iff hhead).2 hsums)
    have hused : used ≤ share := (budgetPrefix_le_iff hcut).2 hhead
    obtain ⟨hkeep, hcost⟩ := budgetPrefix_eq_fitting hcut hhead
    have hrest : (xs.map Prod.snd).sum ≤ remaining - used := by omega
    obtain ⟨out, htrim, hout⟩ := ih (Assoc.erase label capped) hrest
      fun x hx => hfits x (List.mem_cons_of_mem _ hx)
    refine ⟨_, trim_cons.2 ⟨keep, used, out, by rw [hmin]; exact hcut, htrim, rfl⟩, ?_⟩
    refine .cons ⟨rfl, hmin, ?_, hcost⟩ hout
    have hlen : keep ≤ grains.length := hkeep ▸ Fitting.fitting_le_length grains share
    simpa only [List.length_take, Nat.min_eq_left hlen] using hkeep

/-- **Only sources that fit their shares** stay within what they are allocated,
when the shares fit what is left. -/
theorem fits_of_trim {count : ℕ} (xs : List Shared) :
    ∀ {remaining : ℕ} {capped : SourceResults} {out : List (SourceMeta × List CalGrainResult)},
      (xs.map Prod.snd).sum ≤ remaining →
      trim textLen count remaining capped (loopInput xs) = some out →
      (∀ o ∈ out, o.1.tokensUsed ≤ o.1.tokensAllocated) → ∀ x ∈ xs, Fits textLen x := by
  induction xs with
  | nil => simp
  | cons x xs ih =>
    obtain ⟨⟨label, grains⟩, share⟩ := x
    intro remaining capped out hsum htrim hwithin
    simp only [List.map_cons, List.sum_cons] at hsum
    obtain ⟨keep, used, out', hcut, hrest, rfl⟩ := trim_cons.1 htrim
    have hmin : min share remaining = share := by omega
    have hused := hwithin _ List.mem_cons_self
    simp only [hmin] at hused hcut
    have hhead := (budgetPrefix_le_iff hcut).1 hused
    have hsums := (budgetPrefix_isSome_iff hhead).1 (by rw [hcut]; rfl)
    have htail := ih (by omega) hrest fun o ho => hwithin o (List.mem_cons_of_mem _ ho)
    intro x hx
    rcases List.mem_cons.1 hx with rfl | hx
    · exact ⟨hhead, hsums⟩
    · exact htail x hx

theorem u32Sum_eq_some {l : List ℕ} (h : l.sum < 2 ^ 32) : u32Sum l = some l.sum := by
  have key : ∀ (l : List ℕ) (n : ℕ), n + l.sum < 2 ^ 32 →
      l.foldlM u32Add n = some (n + l.sum) := by
    intro l
    induction l with
    | nil => intro n _; simp
    | cons a l ih =>
      intro n hn
      simp only [List.sum_cons] at hn ⊢
      have hadd : u32Add n a = some (n + a) := u32Add_eq_some.2 ⟨by omega, rfl⟩
      rw [List.foldlM_cons, hadd, Option.bind_eq_bind, Option.bind_some, ih _ (by omega)]
      congr 1
      omega
  simpa [u32Sum] using key l 0 (by simpa using h)

/-! ## The steps before the loop keep the labels -/

theorem rebuild_labels (labels : List String) :
    ∀ d : SourceResults, (rebuild labels d).map Prod.fst = labels := by
  induction labels with
  | nil => intro d; rfl
  | cons l labels ih => intro d; simp [rebuild, ih]

theorem dedupByHashFrom_labels (results : SourceResults) :
    ∀ seen, (dedupByHashFrom seen results).map Prod.fst = results.map Prod.fst := by
  induction results with
  | nil => intro seen; rfl
  | cons s results ih => intro seen; simp [dedupByHashFrom, ih]

@[simp] theorem dedup_labels (assembleWith : List DedupOption)
    (priority : Option (List PrioritySpec)) (results : SourceResults) :
    (dedup assembleWith priority results).map Prod.fst = results.map Prod.fst := by
  unfold dedup
  split
  · exact rebuild_labels _ _
  · exact dedupByHashFrom_labels results []

@[simp] theorem capGrains_labels (results : SourceResults) (n : ℕ) :
    (capGrains results n).1.map Prod.fst = results.map Prod.fst := by
  simp only [capGrains]
  split <;> simp [Function.comp_def]

/-! ## Shares -/

theorem defaultWeights_length : ∀ n, (defaultWeights n).length = n
  | 0 | 1 | 2 | 3 | 4 => rfl
  | n + 5 => by simp [defaultWeights]

theorem weights_length (priority : Option (List PrioritySpec)) (labels : List String) :
    (weights priority labels).length = labels.length := by
  unfold weights
  split
  · simp only
    split <;> simp [defaultWeights_length]
  · exact defaultWeights_length _

theorem isSome_lookup_foldl_insert {ν μ : Type} {f : ν → μ} (l : List (String × ν)) {k : String} :
    ∀ {m : List (String × μ)}, (k ∈ l.map Prod.fst ∨ (m.lookup k).isSome) →
      ((l.foldl (fun m e => Assoc.insert e.1 (f e.2) m) m).lookup k).isSome := by
  induction l with
  | nil => intro m h; simpa using h
  | cons e l ih =>
    intro m h
    refine ih ?_
    rw [Assoc.lookup_insert]
    by_cases hk : k = e.1
    · simp [hk]
    · simpa [hk] using h

/-- The tokens a label is allocated. -/
def shareOf (labels : List String) (totalBudget : ℕ) (priority : Option (List PrioritySpec))
    (label : String) : ℕ :=
  ((allocateBudget labels totalBudget priority).lookup label).getD 0

/-- Every source has an allocation: the even share is never used. -/
theorem perSource_eq (labels : List String) (totalBudget : ℕ)
    (priority : Option (List PrioritySpec)) :
    perSource labels totalBudget priority =
      labels.map fun l => some (shareOf labels totalBudget priority l) := by
  refine List.map_congr_left fun l hl => ?_
  have hkeys : (labels.zip (weights priority labels)).map Prod.fst = labels :=
    List.map_fst_zip (by rw [weights_length])
  have hsome : ((allocateBudget labels totalBudget priority).lookup l).isSome :=
    isSome_lookup_foldl_insert (f := fun w => roundU32 (w * totalBudget)) _
      (.inl (by rw [hkeys]; exact hl))
  obtain ⟨n, hn⟩ := Option.isSome_iff_exists.1 hsome
  simp [shareOf, hn]

/-! ## The cap -/

theorem totalCount_cons (s : String × List CalGrainResult) (results : SourceResults) :
    totalCount (s :: results) = s.2.length + totalCount results := by
  simp [totalCount]

/-- Above the cap every list is cut to its proportion, rounded up. -/
theorem capOf_eq {total maxTotal len : ℕ} (hlen : len ≤ total) (hpos : 0 < maxTotal)
    (h : maxTotal < total) : capOf total maxTotal len = (len * maxTotal) ⌈/⌉ total := by
  have hle : (len * maxTotal) ⌈/⌉ total ≤ len := by
    rw [ceilDiv_le_iff_le_smul (by omega), smul_eq_mul, Nat.mul_comm total]
    exact Nat.mul_le_mul_left _ h.le
  rcases Nat.eq_zero_or_pos len with rfl | hlen0
  · simp [capOf]
  · have hone : 1 ≤ (len * maxTotal) ⌈/⌉ total := by
      by_contra hlt
      have hzero : (len * maxTotal) ⌈/⌉ total ≤ 0 := by omega
      rw [ceilDiv_le_iff_le_smul (by omega), smul_zero] at hzero
      have := Nat.mul_pos hlen0 hpos
      omega
    rw [capOf, max_eq_left hone, min_eq_left hle]

theorem le_mul_ceilDiv {a total : ℕ} (h : 0 < total) : a ≤ total * (a ⌈/⌉ total) := by
  have hle : a ⌈/⌉ total ≤ a ⌈/⌉ total := le_rfl
  rwa [ceilDiv_le_iff_le_smul h, smul_eq_mul] at hle

theorem mul_ceilDiv_eq_iff {a total : ℕ} (h : 0 < total) :
    total * (a ⌈/⌉ total) = a ↔ total ∣ a := by
  constructor
  · intro heq
    exact ⟨_, heq.symm⟩
  · rintro ⟨c, rfl⟩
    refine le_antisymm (Nat.mul_le_mul_left _ ?_) (le_mul_ceilDiv h)
    rw [ceilDiv_le_iff_le_smul h, smul_eq_mul]

/-- Rounding quotients up exceeds the whole exactly when one of them was not a
whole number. -/
theorem sum_ceilDiv_le_iff {l : List ℕ} {total n : ℕ} (h : 0 < total)
    (hsum : l.sum = total * n) :
    (l.map (· ⌈/⌉ total)).sum ≤ n ↔ ∀ a ∈ l, total ∣ a := by
  have hscaled : total * (l.map (· ⌈/⌉ total)).sum =
      (l.map fun a => total * (a ⌈/⌉ total)).sum := by
    rw [← List.sum_map_mul_left]
  have hle : ∀ a ∈ l, a ≤ total * (a ⌈/⌉ total) := fun a _ => le_mul_ceilDiv h
  constructor
  · intro hcaps
    by_contra hex
    push Not at hex
    obtain ⟨a, ha, hdvd⟩ := hex
    have hlt : (l.map id).sum < (l.map fun a => total * (a ⌈/⌉ total)).sum := by
      refine List.sum_lt_sum _ _ hle ⟨a, ha, ?_⟩
      exact lt_of_le_of_ne (hle a ha) fun heq => hdvd ((mul_ceilDiv_eq_iff h).1 heq.symm)
    rw [List.map_id, hsum, ← hscaled] at hlt
    exact absurd (Nat.lt_of_mul_lt_mul_left hlt) (by omega)
  · intro hdvd
    have heq : (l.map fun a => total * (a ⌈/⌉ total)) = l := by
      conv_rhs => rw [← List.map_id l]
      exact List.map_congr_left fun a ha => (mul_ceilDiv_eq_iff h).2 (hdvd a ha)
    rw [heq, hsum] at hscaled
    exact le_of_eq (Nat.eq_of_mul_eq_mul_left h hscaled)

theorem length_le_totalCount {results : SourceResults} {s : String × List CalGrainResult}
    (hs : s ∈ results) : s.2.length ≤ totalCount results :=
  List.single_le_sum (by simp) _ (List.mem_map_of_mem hs)

/-- **The cap holds exactly when the proportions are whole numbers.** -/
theorem totalCount_capGrains_le_iff (results : SourceResults) {maxTotal : ℕ} (hpos : 0 < maxTotal) :
    totalCount (capGrains results maxTotal).1 ≤ maxTotal ↔
      (maxTotal < totalCount results →
        ∀ s ∈ results, totalCount results ∣ s.2.length * maxTotal) := by
  by_cases hle : totalCount results ≤ maxTotal
  · simp [capGrains, hle, Nat.not_lt.2 hle]
  · have hlt : maxTotal < totalCount results := by omega
    have hcount : totalCount (capGrains results maxTotal).1 =
        ((results.map fun s => s.2.length * maxTotal).map (· ⌈/⌉ totalCount results)).sum := by
      simp only [capGrains, if_neg hle]
      rw [totalCount, List.map_map, List.map_map]
      refine congrArg List.sum (List.map_congr_left fun s hs => ?_)
      have hcap : capOf (totalCount results) maxTotal s.2.length ≤ s.2.length := min_le_right _ _
      simp only [Function.comp_apply, List.length_take, Nat.min_eq_left hcap]
      exact capOf_eq (length_le_totalCount hs) hpos hlt
    have hsum : (results.map fun s => s.2.length * maxTotal).sum =
        totalCount results * maxTotal := by
      rw [totalCount, ← List.sum_map_mul_right]
    rw [hcount, sum_ceilDiv_le_iff (by omega) hsum]
    simp only [List.forall_mem_map, hlt, true_implies]

/-! ## The whole run -/

variable {Q E : Type}

/-- The lists the loop starts from, with their shares. -/
def sharedLists (stmt : AssembleStmt Q) (results : SourceResults) : List Shared :=
  let capped := (capGrains (dedup stmt.assembleWith stmt.priority results) maxGrainsPostDedup).1
  capped.map fun s =>
    (s, shareOf (results.map Prod.fst) stmt.budgetTokens stmt.priority s.1)

/-- The bounds a payload keeps. -/
structure KeepsBounds (stmt : AssembleStmt Q) (results : SourceResults) (a : Assembled) :
    Prop where
  limit : a.budgetLimit = some stmt.budgetTokens
  total : a.totalTokens ≤ stmt.budgetTokens
  used : ∀ m ∈ a.sources, m.tokensUsed ≤ m.tokensAllocated
  allocated : (a.sources.map (·.tokensAllocated)).sum ≤ stmt.budgetTokens
  /-- the allocations before they are cut to what is left -/
  shares : (results.map fun s =>
    shareOf (results.map Prod.fst) stmt.budgetTokens stmt.priority s.1).sum ≤ stmt.budgetTokens
  unweighted : ∀ specs, stmt.priority = some specs →
    (∃ s ∈ results, 0 < specWeight specs s.1) →
    ∀ m ∈ a.sources, specWeight specs m.label = 0 → m.grainCount = 0
  capped : totalCount
    (capGrains (dedup stmt.assembleWith stmt.priority results) maxGrainsPostDedup).1 ≤
      maxGrainsPostDedup

/-- Every run on results of the sources returns a payload within its bounds. -/
def HonoursBudget (textLen : Json → ℕ)
    (executeSource : NamedSource Q → Except E (List CalGrainResult)) (stmt : AssembleStmt Q) :
    Prop :=
  ∀ sources results, stmt.sources = some sources → sources ≠ [] →
    runSources executeSource sources = .ok results →
    ∃ a, execute textLen executeSource stmt = .ok (.assembled a) ∧ KeepsBounds stmt results a

/-- What the results must be for the bounds to hold: over the cap, each
source's part of 2000 is a whole number; the rounded shares do not exceed the
budget; each share holds the first grain of its source, and no sum on the way
passes 32 bits; a source without weight beside one with weight has no grain. -/
structure SharesHold (textLen : Json → ℕ) (stmt : AssembleStmt Q) (results : SourceResults) :
    Prop where
  whole : maxGrainsPostDedup < totalCount (dedup stmt.assembleWith stmt.priority results) →
    ∀ s ∈ dedup stmt.assembleWith stmt.priority results,
      totalCount (dedup stmt.assembleWith stmt.priority results) ∣
        s.2.length * maxGrainsPostDedup
  shares : (results.map fun s =>
    shareOf (results.map Prod.fst) stmt.budgetTokens stmt.priority s.1).sum ≤ stmt.budgetTokens
  fits : ∀ x ∈ sharedLists stmt results, Fits textLen x
  unweighted : ∀ specs, stmt.priority = some specs →
    (∃ s ∈ results, 0 < specWeight specs s.1) →
    ∀ x ∈ sharedLists stmt results, specWeight specs x.1.1 = 0 → x.1.2 = []

theorem budgetTokens_lt (stmt : AssembleStmt Q) : stmt.budgetTokens < 2 ^ 32 :=
  UInt32.toNat_lt _

theorem sharedLists_map_snd (stmt : AssembleStmt Q) (results : SourceResults) :
    (sharedLists stmt results).map Prod.snd = results.map fun s =>
      shareOf (results.map Prod.fst) stmt.budgetTokens stmt.priority s.1 := by
  have hlabels : (capGrains (dedup stmt.assembleWith stmt.priority results)
      maxGrainsPostDedup).1.map Prod.fst = results.map Prod.fst := by simp
  have h := congrArg
    (List.map (shareOf (results.map Prod.fst) stmt.budgetTokens stmt.priority)) hlabels
  simp only [List.map_map] at h
  simp only [sharedLists, List.map_map]
  exact h

/-- The run in terms of the loop: the lists with their shares, then the sum. -/
theorem assembleResults_eq (textLen : Json → ℕ) (stmt : AssembleStmt Q) (results : SourceResults) :
    assembleResults textLen stmt.assembleWith stmt.priority stmt.budgetTokens results =
      let capped := capGrains (dedup stmt.assembleWith stmt.priority results) maxGrainsPostDedup
      (trim textLen capped.1.length stmt.budgetTokens capped.2
        (loopInput (sharedLists stmt results))).bind fun out =>
          (u32Sum (out.map fun o => o.1.tokensUsed)).map fun total =>
            { grains := out.flatMap Prod.snd
              sources := out.map Prod.fst
              totalTokens := total
              budgetLimit := some stmt.budgetTokens
              progressive := false
              totalAvailable := some (out.flatMap Prod.snd).length } := by
  have hzip : ∀ (l : SourceResults) (f : String → Option ℕ),
      l.zip ((l.map Prod.fst).map f) = l.map fun s => (s, f s.1) := by
    intro l f
    induction l with
    | nil => rfl
    | cons s l ih => simpa using ih
  simp only [assembleResults]
  rw [perSource_eq, hzip]
  simp only [capGrains_labels, dedup_labels, loopInput, sharedLists, List.map_map,
    Function.comp_def]
  cases trim textLen _ _ _ _ <;> rfl

theorem execute_eq {executeSource : NamedSource Q → Except E (List CalGrainResult)}
    {stmt : AssembleStmt Q} {sources : List (NamedSource Q)} {results : SourceResults}
    (hs : stmt.sources = some sources) (hne : sources ≠ [])
    (hr : runSources executeSource sources = .ok results) (a : Assembled) :
    execute textLen executeSource stmt = .ok (.assembled a) ↔
      assembleResults textLen stmt.assembleWith stmt.priority stmt.budgetTokens results =
        some a := by
  cases sources with
  | nil => exact absurd rfl hne
  | cons s rest =>
    simp only [execute, hs, hr]
    cases assembleResults textLen stmt.assembleWith stmt.priority stmt.budgetTokens results with
    | none => simp
    | some b => simp

theorem kept_allocated {xs : List Shared} {out : List (SourceMeta × List CalGrainResult)}
    (h : List.Forall₂ (Kept textLen) xs out) : out.map (·.1.tokensAllocated) = xs.map Prod.snd := by
  induction h with
  | nil => rfl
  | cons hk _ ih => simp [hk.allocated, ih]

/-- The tokens used are those of the prefixes within the shares. -/
theorem kept_used {xs : List Shared} {out : List (SourceMeta × List CalGrainResult)}
    (h : List.Forall₂ (Kept textLen) xs out) :
    out.map (·.1.tokensUsed) =
      xs.map fun x => cost textLen (x.1.2.take (fittingCount textLen x.2 x.1.2)) := by
  induction h with
  | nil => rfl
  | cons hk _ ih => simp [hk.used, ih]

theorem kept_used_le {xs : List Shared} {out : List (SourceMeta × List CalGrainResult)}
    (h : List.Forall₂ (Kept textLen) xs out) :
    (out.map (·.1.tokensUsed)).sum ≤ (xs.map Prod.snd).sum := by
  rw [kept_used h]
  exact List.sum_le_sum fun x _ => Fitting.sum_take_fitting_le _ _

theorem exists_kept_left {xs : List Shared} {out : List (SourceMeta × List CalGrainResult)}
    (h : List.Forall₂ (Kept textLen) xs out) : ∀ o ∈ out, ∃ x ∈ xs, Kept textLen x o := by
  induction h with
  | nil => simp
  | cons hk _ ih =>
    intro o ho
    rcases List.mem_cons.1 ho with rfl | ho
    · exact ⟨_, List.mem_cons_self, hk⟩
    · obtain ⟨x, hx, hkx⟩ := ih o ho
      exact ⟨x, List.mem_cons_of_mem _ hx, hkx⟩

theorem exists_kept_right {xs : List Shared} {out : List (SourceMeta × List CalGrainResult)}
    (h : List.Forall₂ (Kept textLen) xs out) : ∀ x ∈ xs, ∃ o ∈ out, Kept textLen x o := by
  induction h with
  | nil => simp
  | cons hk _ ih =>
    intro x hx
    rcases List.mem_cons.1 hx with rfl | hx
    · exact ⟨_, List.mem_cons_self, hk⟩
    · obtain ⟨o, ho, hko⟩ := ih x hx
      exact ⟨o, List.mem_cons_of_mem _ ho, hko⟩

/-- Results whose shares hold are assembled within the bounds. -/
theorem keepsBounds_of_sharesHold {stmt : AssembleStmt Q} {results : SourceResults}
    (h : SharesHold textLen stmt results) :
    ∃ a, assembleResults textLen stmt.assembleWith stmt.priority stmt.budgetTokens results =
      some a ∧ KeepsBounds stmt results a := by
  have hshares := h.shares
  rw [← sharedLists_map_snd] at hshares
  obtain ⟨out, htrim, hout⟩ := trim_of_fits
    (capGrains (dedup stmt.assembleWith stmt.priority results) maxGrainsPostDedup).1.length _
    (capGrains (dedup stmt.assembleWith stmt.priority results) maxGrainsPostDedup).2
    hshares h.fits
  have hused := (kept_used_le hout).trans hshares
  have hsum := u32Sum_eq_some (hused.trans_lt (budgetTokens_lt stmt))
  have hrun := assembleResults_eq textLen stmt results
  simp only [htrim, Option.bind_some, hsum, Option.map_some] at hrun
  refine ⟨_, hrun, rfl, hused, ?_, ?_, h.shares, ?_, ?_⟩
  · intro m hm
    obtain ⟨o, ho, rfl⟩ := List.mem_map.1 hm
    obtain ⟨x, -, hkept⟩ := exists_kept_left hout o ho
    exact hkept.used_le
  · simpa only [List.map_map, Function.comp_def, kept_allocated hout] using hshares
  · intro specs hspecs hsome m hm hzero
    obtain ⟨o, ho, rfl⟩ := List.mem_map.1 hm
    obtain ⟨x, hx, hkept⟩ := exists_kept_left hout o ho
    rw [hkept.count, fittingCount_eq_zero (h.fits x hx).1]
    exact h.unweighted specs hspecs hsome x hx (by rw [← hkept.label]; exact hzero)
  · exact (totalCount_capGrains_le_iff _ (by decide)).2 h.whole

/-- A payload within the bounds comes from results whose shares hold. -/
theorem sharesHold_of_keepsBounds {stmt : AssembleStmt Q} {results : SourceResults}
    {a : Assembled}
    (ha : assembleResults textLen stmt.assembleWith stmt.priority stmt.budgetTokens results =
      some a) (h : KeepsBounds stmt results a) : SharesHold textLen stmt results := by
  have hshares := h.shares
  rw [← sharedLists_map_snd] at hshares
  rw [assembleResults_eq] at ha
  obtain ⟨out, htrim, ha⟩ := Option.bind_eq_some_iff.1 ha
  obtain ⟨total, -, rfl⟩ := Option.map_eq_some_iff.1 ha
  have hfits := fits_of_trim _ hshares htrim fun o ho => h.used _ (List.mem_map_of_mem ho)
  refine ⟨(totalCount_capGrains_le_iff _ (by decide)).1 h.capped, h.shares, hfits, ?_⟩
  obtain ⟨out', htrim', hout⟩ := trim_of_fits _ _ _ hshares hfits
  obtain rfl : out = out' := Option.some.inj (htrim.symm.trans htrim')
  intro specs hspecs hsome x hx hzero
  obtain ⟨o, ho, hkept⟩ := exists_kept_right hout x hx
  have hcount := h.unweighted specs hspecs hsome _ (List.mem_map_of_mem ho)
    (by rw [hkept.label]; exact hzero)
  rwa [hkept.count, fittingCount_eq_zero (hfits x hx).1] at hcount

/-- **The bounds hold of a statement exactly when the shares hold what the
sources return.** -/
theorem honoursBudget_iff (textLen : Json → ℕ)
    (executeSource : NamedSource Q → Except E (List CalGrainResult)) (stmt : AssembleStmt Q) :
    HonoursBudget textLen executeSource stmt ↔
      ∀ sources results, stmt.sources = some sources → sources ≠ [] →
        runSources executeSource sources = .ok results → SharesHold textLen stmt results := by
  constructor
  · intro h sources results hs hne hr
    obtain ⟨a, ha, hbounds⟩ := h sources results hs hne hr
    exact sharesHold_of_keepsBounds ((execute_eq hs hne hr a).1 ha) hbounds
  · intro h sources results hs hne hr
    obtain ⟨a, ha, hbounds⟩ := keepsBounds_of_sharesHold (h sources results hs hne hr)
    exact ⟨a, (execute_eq hs hne hr a).2 ha, hbounds⟩

/-! ## Three sources over the cap -/

/-- Grains that share no address are kept. -/
theorem keepUnseen_apart {seen : List String} {gs : List CalGrainResult}
    (h : (gs.map CalGrainResult.hash).Nodup) (hseen : ∀ g ∈ gs, g.hash ∉ seen) :
    keepUnseen seen gs = ((gs.map CalGrainResult.hash).reverse ++ seen, gs) := by
  induction gs generalizing seen with
  | nil => rfl
  | cons g gs ih =>
    obtain ⟨hg, hgs⟩ := List.nodup_cons.1 h
    obtain ⟨hfirst, hrest⟩ := List.forall_mem_cons.1 hseen
    have hrec := @ih (g.hash :: seen) hgs fun x hx => by
      rw [List.mem_cons, not_or]
      exact ⟨fun heq => hg (heq ▸ List.mem_map_of_mem hx), hrest x hx⟩
    rw [keepUnseen, if_neg hfirst, hrec]
    simp

theorem dedupByHashFrom_apart {seen : List String} {results : SourceResults}
    (h : (results.flatMap fun s => s.2.map CalGrainResult.hash).Nodup)
    (hseen : ∀ s ∈ results, ∀ g ∈ s.2, g.hash ∉ seen) :
    dedupByHashFrom seen results = results := by
  induction results generalizing seen with
  | nil => rfl
  | cons s results ih =>
    obtain ⟨label, gs⟩ := s
    rw [List.flatMap_cons, List.nodup_append] at h
    obtain ⟨hgs, hrest, hapart⟩ := h
    obtain ⟨hfirst, hlater⟩ := List.forall_mem_cons.1 hseen
    rw [dedupByHashFrom, keepUnseen_apart hgs hfirst]
    refine congrArg ((label, gs) :: ·) (ih hrest fun s hs g hg hmem => ?_)
    rcases List.mem_append.1 hmem with hmem | hmem
    · have hown : g.hash ∈ results.flatMap fun s => s.2.map CalGrainResult.hash :=
        List.mem_flatMap.2 ⟨s, hs, List.mem_map_of_mem hg⟩
      exact hapart _ (List.mem_reverse.1 hmem) _ hown rfl
    · exact hlater s hs g hg hmem

/-- A grain about one subject. -/
def grainAbout (hash subject : String) : CalGrainResult :=
  ⟨hash, .obj [("subject", .str subject)]⟩

/-- An address of its own for each number. -/
def address (i : ℕ) : String := String.ofList (List.replicate i 'f')

theorem address_injective : Function.Injective address := by
  intro i j h
  have hlength := congrArg List.length (String.ofList_injective h)
  rwa [List.length_replicate, List.length_replicate] at hlength

/-- Grains about as many subjects, each under an address of its own. -/
def grainsFrom (start n : ℕ) : List CalGrainResult :=
  (List.range' start n).map fun i => grainAbout (address i) (address i)

/-- What three sources return. -/
def threeThirdsResults : SourceResults :=
  [("facts", grainsFrom 0 667), ("goals", grainsFrom 667 667), ("events", grainsFrom 1334 667)]

/-- Three sources of 667 grains each. -/
def threeThirds : AssembleStmt (List CalGrainResult) where
  sources := some (threeThirdsResults.map fun s => ⟨s.1, s.2⟩)
  budget := some ⟨100000, .tokens⟩
  priority := none
  assembleWith := []

theorem threeThirds_apart :
    (threeThirdsResults.flatMap fun s => s.2.map CalGrainResult.hash).Nodup := by
  have hall : (threeThirdsResults.flatMap fun s => s.2.map CalGrainResult.hash) =
      (List.range' 0 2001).map address := by
    have hhash : ∀ start n, (grainsFrom start n).map CalGrainResult.hash =
        (List.range' start n).map address := by
      intro start n
      rw [grainsFrom, List.map_map]
      rfl
    simp only [threeThirdsResults, List.flatMap_cons, List.flatMap_nil, hhash, List.append_nil,
      ← List.map_append]
    have hlast : List.range' 667 1334 = List.range' 667 667 ++ List.range' 1334 667 :=
      (List.range'_append_1 (s := 667) (m := 667) (n := 667)).symm
    have hfirst : List.range' 0 2001 = List.range' 0 667 ++ List.range' 667 1334 :=
      (List.range'_append_1 (s := 0) (m := 667) (n := 1334)).symm
    rw [hfirst, hlast]
  rw [hall]
  exact (List.nodup_range' 1).map address_injective

/-- **The cap of 2000 lets 2001 grains through**: each third is rounded up. -/
theorem threeThirds_not_honoured :
    ¬ HonoursBudget (fun _ => 17) (fun s => (.ok s.query : Except Empty _)) threeThirds := by
  intro h
  obtain ⟨a, -, hbounds⟩ := h _ threeThirdsResults rfl (by simp [threeThirdsResults]) rfl
  have hcapped := hbounds.capped
  have hdedup : dedup threeThirds.assembleWith threeThirds.priority threeThirdsResults =
      threeThirdsResults := dedupByHashFrom_apart threeThirds_apart fun _ _ _ _ => List.not_mem_nil
  have hcount : totalCount threeThirdsResults = 2001 := by
    simp only [totalCount, threeThirdsResults, grainsFrom, List.map_cons, List.map_nil,
      List.length_map, List.length_range', List.sum_cons, List.sum_nil]
    norm_num
  rw [hdedup, totalCount_capGrains_le_iff _ (by decide), hcount] at hcapped
  have hthird := hcapped (by norm_num [maxGrainsPostDedup]) _ List.mem_cons_self
  simp only [grainsFrom, List.length_map, List.length_range'] at hthird
  exact absurd hthird (by norm_num [maxGrainsPostDedup])

end Deja.Assemble
