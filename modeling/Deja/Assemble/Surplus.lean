import Deja.Assemble.Budget

/-!
# What a share leaves over

A share is computed once, from the weights; what a source leaves of its share
is not passed on.  A grain is therefore cut although the budget as a whole
would still hold it, unless what all the shares leave over together is smaller
than every grain cut (`redistributesSurplus_of`, and its converse where the
shares do not overdraw the budget).  Within one list more budget never keeps fewer grains
(`budgetPrefix_mono`).
-/

namespace Deja.Assemble

variable {textLen : Json → ℕ}

/-! ## More budget, more grains -/

/-- Over its budget the loop keeps nothing more. -/
theorem budgetPrefixFrom_over {budget kept used k u : ℕ} {gs : List CalGrainResult}
    (hkept : 0 < kept) (hover : budget < used)
    (h : budgetPrefixFrom textLen budget kept used gs = some (k, u)) : k = kept := by
  cases gs with
  | nil =>
    obtain ⟨rfl, -⟩ : kept = k ∧ used = u := by simpa [budgetPrefixFrom] using h
    rfl
  | cons g gs =>
    cases hadd : u32Add used (estimateGrainTokens textLen g) with
    | none => simp [budgetPrefixFrom, hadd] at h
    | some sum =>
      obtain ⟨-, rfl⟩ := u32Add_eq_some.1 hadd
      have hstop : budget < used + estimateGrainTokens textLen g ∧ 0 < kept := ⟨by omega, hkept⟩
      simp only [budgetPrefixFrom, hadd, if_pos hstop, Option.some.injEq, Prod.mk.injEq] at h
      exact h.1.symm

/-- A first grain over the budget is kept alone. -/
theorem budgetPrefix_of_not_headFits {gs : List CalGrainResult} {budget k u : ℕ}
    (h : budgetPrefix textLen gs budget = some (k, u)) (hhead : ¬ HeadFits textLen budget gs) :
    k = 1 := by
  cases gs with
  | nil => exact absurd (headFits_nil budget) hhead
  | cons g gs =>
    rw [headFits_cons, Nat.not_le] at hhead
    rw [budgetPrefix] at h
    cases hadd : u32Add 0 (estimateGrainTokens textLen g) with
    | none => simp [budgetPrefixFrom, hadd] at h
    | some sum =>
      obtain ⟨-, rfl⟩ := u32Add_eq_some.1 hadd
      simp only [budgetPrefixFrom, hadd, lt_irrefl, and_false, if_false, Nat.zero_add] at h
      exact budgetPrefixFrom_over Nat.one_pos hhead h

theorem budgetPrefix_pos {gs : List CalGrainResult} {budget k u : ℕ}
    (h : budgetPrefix textLen gs budget = some (k, u)) (hne : gs ≠ []) : 0 < k := by
  obtain ⟨m, -, rfl, -, -, hpos, -⟩ := budgetPrefixFrom_eq_some gs h
  exact hpos hne

/-- **More budget never keeps fewer grains.** -/
theorem budgetPrefix_mono {gs : List CalGrainResult} {b b' k u k' u' : ℕ} (hle : b ≤ b')
    (h : budgetPrefix textLen gs b = some (k, u))
    (h' : budgetPrefix textLen gs b' = some (k', u')) : k ≤ k' := by
  by_cases hhead : HeadFits textLen b gs
  · have hhead' : HeadFits textLen b' gs := fun g hg => (hhead g hg).trans hle
    rw [(budgetPrefix_eq_fitting h hhead).1, (budgetPrefix_eq_fitting h' hhead').1]
    exact Fitting.fitting_mono gs hle
  · have hne : gs ≠ [] := by
      rintro rfl
      exact hhead (headFits_nil b)
    rw [budgetPrefix_of_not_headFits h hhead]
    exact budgetPrefix_pos h' hne

/-! ## What is cut -/

variable {Q E : Type}

/-- Every grain the budget cuts is larger than what is left of the budget after
all the grains kept, and within a list more budget never keeps fewer. -/
def RedistributesSurplus (textLen : Json → ℕ)
    (executeSource : NamedSource Q → Except E (List CalGrainResult)) (stmt : AssembleStmt Q) :
    Prop :=
  (∀ sources results a, stmt.sources = some sources → sources ≠ [] →
    runSources executeSource sources = .ok results →
    execute textLen executeSource stmt = .ok (.assembled a) →
    ∀ p ∈ (sharedLists stmt results).zip a.sources, ∀ g ∈ p.1.1.2.drop p.2.grainCount,
      stmt.budgetTokens < a.totalTokens + estimateGrainTokens textLen g) ∧
  ∀ grains b b' k u k' u', b ≤ b' → budgetPrefix textLen grains b = some (k, u) →
    budgetPrefix textLen grains b' = some (k', u') → k ≤ k'

/-- A part of a source's list that its share allows: a prefix of at most one
grain, or one that costs at most the share. -/
structure Allowed (textLen : Json → ℕ) (x : Shared) (q : List CalGrainResult) : Prop where
  part : q <+: x.1.2
  within : q.length ≤ 1 ∨ cost textLen q ≤ x.2

/-- A part that also fits the budget beside whatever the shares allow the
sources before it. -/
structure Sure (textLen : Json → ℕ) (budget : ℕ) (before : List Shared) (x : Shared)
    (q : List CalGrainResult) : Prop extends Allowed textLen x q where
  beside : 1 < q.length → ∀ ps, List.Forall₂ (Allowed textLen) before ps →
    (ps.map (cost textLen)).sum + cost textLen q ≤ budget

/-- `R` holds of the elements of two lists pairwise, and may look at what stands
before in the first. -/
def AllAt {α β : Type} (R : List α → α → β → Prop) : List α → List α → List β → Prop
  | _, [], [] => True
  | before, x :: xs, y :: ys => R before x y ∧ AllAt R (before ++ [x]) xs ys
  | _, _, _ => False

/-- Parts of all the lists, each of them sure. -/
abbrev AllSure (textLen : Json → ℕ) (budget : ℕ) (xs : List Shared)
    (qs : List (List CalGrainResult)) : Prop :=
  AllAt (Sure textLen budget) [] xs qs

/-- A grain whose source is not sure of it costs more than some sure parts of
all the lists leave of the budget. -/
def NoSurplus (textLen : Json → ℕ) (stmt : AssembleStmt Q) (results : SourceResults) : Prop :=
  ∀ before x after pre g post, sharedLists stmt results = before ++ x :: after →
    x.1.2 = pre ++ g :: post → ¬ Sure textLen stmt.budgetTokens before x (pre ++ [g]) →
    ∃ qs, AllSure textLen stmt.budgetTokens (sharedLists stmt results) qs ∧
      stmt.budgetTokens < (qs.map (cost textLen)).sum + estimateGrainTokens textLen g

/-- Whatever the shares allow fits the budget. -/
def NoOverdraft (textLen : Json → ℕ) (stmt : AssembleStmt Q) (results : SourceResults) : Prop :=
  ∀ ps, List.Forall₂ (Allowed textLen) (sharedLists stmt results) ps →
    (ps.map (cost textLen)).sum ≤ stmt.budgetTokens

/-! ### Lists and what stands before -/

theorem AllAt.of_mem_zip {α β : Type} {R : List α → α → β → Prop} {xs : List α} :
    ∀ {before : List α} {ys : List β}, AllAt R before xs ys → ∀ p ∈ xs.zip ys,
      ∃ pre post, xs = pre ++ p.1 :: post ∧ R (before ++ pre) p.1 p.2 := by
  induction xs with
  | nil => simp
  | cons x xs ih =>
    intro before ys h p hp
    cases ys with
    | nil => simp at hp
    | cons y ys =>
      obtain ⟨hr, hrest⟩ := h
      rcases List.mem_cons.1 hp with rfl | hp
      · exact ⟨[], xs, rfl, by simpa using hr⟩
      · obtain ⟨pre, post, hxs, hr⟩ := ih hrest p hp
        refine ⟨x :: pre, post, by rw [hxs, List.cons_append], ?_⟩
        rwa [List.append_assoc, List.singleton_append] at hr

theorem AllAt.at_split {α β : Type} {R : List α → α → β → Prop} {x : α} {post : List α}
    (pre : List α) : ∀ {before : List α} {ys : List β}, AllAt R before (pre ++ x :: post) ys →
      ∃ y, (x, y) ∈ (pre ++ x :: post).zip ys ∧ R (before ++ pre) x y := by
  induction pre with
  | nil =>
    intro before ys h
    cases ys with
    | nil => exact h.elim
    | cons y ys => exact ⟨y, List.mem_cons_self, by simpa using h.1⟩
  | cons p pre ih =>
    intro before ys h
    cases ys with
    | nil => exact h.elim
    | cons y ys =>
      obtain ⟨z, hz, hr⟩ := ih h.2
      refine ⟨z, List.mem_cons_of_mem _ hz, ?_⟩
      rwa [List.append_assoc, List.singleton_append] at hr

/-! ### What the loop keeps -/

theorem cost_le_of_part {p q : List CalGrainResult} (h : p <+: q) :
    cost textLen p ≤ cost textLen q := by
  obtain ⟨r, rfl⟩ := h
  rw [cost, cost, Fitting.weightOf_append]
  exact Nat.le_add_right _ _

theorem allowed_nil (x : Shared) : Allowed textLen x [] :=
  ⟨List.nil_prefix, .inl (Nat.zero_le _)⟩

theorem Allowed.of_part {x : Shared} {p q : List CalGrainResult} (h : Allowed textLen x q)
    (hp : p <+: q) : Allowed textLen x p :=
  ⟨hp.trans h.part, h.within.imp hp.length_le.trans (cost_le_of_part hp).trans⟩

/-- A source's list and what the loop keeps of it: an allowed part, which no
sure one is longer than. -/
structure Serves (textLen : Json → ℕ) (budget : ℕ) (before : List Shared) (x : Shared)
    (m : SourceMeta) : Prop where
  allowed : Allowed textLen x (x.1.2.take m.grainCount)
  used : m.tokensUsed = cost textLen (x.1.2.take m.grainCount)
  sure : ∀ q, Sure textLen budget before x q → q.length ≤ m.grainCount

/-- `budget_prefix` keeps a part of at most one grain or within its budget, and
no longer one is either. -/
theorem budgetPrefix_longest {gs : List CalGrainResult} {budget k u : ℕ}
    (h : budgetPrefix textLen gs budget = some (k, u)) :
    k ≤ gs.length ∧ u = cost textLen (gs.take k) ∧ (k ≤ 1 ∨ u ≤ budget) ∧
      ∀ q, q <+: gs → (q.length ≤ 1 ∨ cost textLen q ≤ budget) → q.length ≤ k := by
  obtain ⟨m, hm, hk, hu, -, hpos, hnext⟩ := budgetPrefixFrom_eq_some gs h
  rw [Nat.zero_add] at hk hu
  subst hk hu
  refine ⟨hm, rfl, ?_, ?_⟩
  · by_cases hhead : HeadFits textLen budget gs
    · exact .inr ((budgetPrefix_le_iff h).2 hhead)
    · exact .inl (budgetPrefix_of_not_headFits h hhead).le
  · intro q hq hwithin
    by_contra hlt
    rw [Nat.not_le] at hlt
    have hlen : k < gs.length := hlt.trans_le hq.length_le
    have hk : 0 < k := hpos (List.ne_nil_of_length_pos (by omega))
    have hget : (gs.drop k).head? = some gs[k] := by simp [List.head?_drop, hlen]
    have hover := hnext _ hget
    have hpart : gs.take (k + 1) <+: q := by
      rw [List.prefix_iff_eq_take.1 hq]
      exact List.take_prefix_take_left hlt
    have hcost : cost textLen (gs.take (k + 1)) ≤ cost textLen q := cost_le_of_part hpart
    rw [cost, Fitting.weightOf_take_succ hget] at hcost
    rcases hwithin with hone | hcheap
    · omega
    · exact absurd (hover.trans_le (hcost.trans hcheap)) (lt_irrefl _)

/-- **The loop keeps at least what is sure**, whatever the sources before took
of what their shares allow. -/
theorem trim_serves {count budget : ℕ} (xs : List Shared) :
    ∀ {before : List Shared} {ps : List (List CalGrainResult)} {capped : SourceResults}
      {out : List (SourceMeta × List CalGrainResult)},
      List.Forall₂ (Allowed textLen) before ps →
      trim textLen count (budget - (ps.map (cost textLen)).sum) capped (loopInput xs) = some out →
      AllAt (Serves textLen budget) before xs (out.map Prod.fst) := by
  induction xs with
  | nil =>
    intro before ps capped out _ h
    obtain rfl : [] = out := by simpa [loopInput, trim] using h
    trivial
  | cons x xs ih =>
    obtain ⟨⟨label, grains⟩, share⟩ := x
    intro before ps capped out hbefore h
    obtain ⟨keep, used, out', hcut, hrest, rfl⟩ := trim_cons.1 h
    obtain ⟨hlen, rfl, hwithin, hlongest⟩ := budgetPrefix_longest hcut
    have hkept : Allowed textLen ((label, grains), share) (grains.take keep) := by
      refine ⟨List.take_prefix _ _, hwithin.imp (fun hone => ?_) fun hle => hle.trans ?_⟩
      · exact (List.length_take_le _ _).trans hone
      · exact Nat.min_le_left _ _
    have htake : (grains.take keep).length = keep := by simp [hlen]
    refine ⟨⟨by rwa [htake], by rw [htake], ?_⟩, ?_⟩
    · intro q hq
      rw [htake]
      refine hlongest q hq.part ?_
      rcases Nat.lt_or_ge 1 q.length with hlong | hone
      · have hshare : cost textLen q ≤ share := hq.within.resolve_left (by omega)
        have hleft := hq.beside hlong ps hbefore
        exact .inr (le_min hshare (by omega))
      · exact .inl hone
    · have hnow := List.rel_append hbefore (.cons hkept .nil)
      refine @ih _ (ps ++ [grains.take keep]) (Assoc.erase label capped) _ hnow ?_
      have hsum : ((ps ++ [grains.take keep]).map (cost textLen)).sum =
          (ps.map (cost textLen)).sum + cost textLen (grains.take keep) := by simp
      rw [hsum, Nat.sub_add_eq]
      exact hrest

/-- Sure parts cost no more than what is kept. -/
theorem cost_sure_le {budget : ℕ} (xs : List Shared) :
    ∀ {before : List Shared} {ms : List SourceMeta} {qs : List (List CalGrainResult)},
      AllAt (Serves textLen budget) before xs ms → AllAt (Sure textLen budget) before xs qs →
      (qs.map (cost textLen)).sum ≤ (ms.map (·.tokensUsed)).sum := by
  induction xs with
  | nil =>
    intro before ms qs _ hqs
    cases qs with
    | nil => exact Nat.zero_le _
    | cons q qs => exact hqs.elim
  | cons x xs ih =>
    intro before ms qs hms hqs
    cases ms with
    | nil => exact hms.elim
    | cons m ms =>
      cases qs with
      | nil => exact hqs.elim
      | cons q qs =>
        have hpart : q <+: x.1.2.take m.grainCount := by
          rw [List.prefix_iff_eq_take.1 hqs.1.part]
          exact List.take_prefix_take_left (hms.1.sure q hqs.1)
        have hcost : cost textLen q ≤ cost textLen (x.1.2.take m.grainCount) :=
          cost_le_of_part hpart
        rw [← hms.1.used] at hcost
        simpa using Nat.add_le_add hcost (ih hms.2 hqs.2)

/-- Where all that the shares allow fits the budget, what they allow is sure. -/
theorem allSure_of_allowed {budget : ℕ} (xs : List Shared) :
    ∀ {before : List Shared} {qs : List (List CalGrainResult)},
      (∀ ps, List.Forall₂ (Allowed textLen) (before ++ xs) ps →
        (ps.map (cost textLen)).sum ≤ budget) →
      List.Forall₂ (Allowed textLen) xs qs → AllAt (Sure textLen budget) before xs qs := by
  induction xs with
  | nil =>
    intro before qs _ hqs
    cases hqs
    trivial
  | cons x xs ih =>
    intro before qs hroom hqs
    obtain _ | @⟨_, q, _, qs, hq, hqs⟩ := hqs
    refine ⟨⟨hq, fun _ ps hps => ?_⟩, ih (by simpa using hroom) hqs⟩
    have hrest : List.Forall₂ (Allowed textLen) xs (xs.map fun _ => []) :=
      List.forall₂_map_right_iff.2 (List.forall₂_same.2 fun y _ => allowed_nil y)
    have hsum := hroom _ (List.rel_append hps (.cons hq hrest))
    simp only [List.map_append, List.map_cons, List.sum_append, List.sum_cons] at hsum
    omega

theorem AllAt.forall₂_kept {budget : ℕ} {xs : List Shared} :
    ∀ {before : List Shared} {ms : List SourceMeta}, AllAt (Serves textLen budget) before xs ms →
      ∃ qs, List.Forall₂ (Allowed textLen) xs qs ∧
        qs.map (cost textLen) = ms.map (·.tokensUsed) := by
  induction xs with
  | nil =>
    intro before ms h
    cases ms with
    | nil => exact ⟨[], .nil, rfl⟩
    | cons m ms => exact h.elim
  | cons x xs ih =>
    intro before ms h
    cases ms with
    | nil => exact h.elim
    | cons m ms =>
      obtain ⟨qs, hqs, hcost⟩ := ih h.2
      exact ⟨_ :: qs, .cons h.1.allowed hqs, by simp [h.1.used, hcost]⟩

/-! ### A whole run -/

theorem u32Sum_eq {l : List ℕ} {n : ℕ} (h : u32Sum l = some n) : l.sum = n := by
  have key : ∀ (l : List ℕ) (k : ℕ), l.foldlM u32Add k = some n → k + l.sum = n := by
    intro l
    induction l with
    | nil => intro k hk; simpa using hk
    | cons a l ih =>
      intro k hk
      rw [List.foldlM_cons] at hk
      obtain ⟨sum, hadd, hrest⟩ := Option.bind_eq_some_iff.1 hk
      obtain ⟨-, rfl⟩ := u32Add_eq_some.1 hadd
      have hsum := ih _ hrest
      rw [List.sum_cons]
      omega
  simpa using key l 0 h

theorem assembled_serves {stmt : AssembleStmt Q} {results : SourceResults} {a : Assembled}
    (h : assembleResults textLen stmt.assembleWith stmt.priority stmt.budgetTokens results =
      some a) :
    AllAt (Serves textLen stmt.budgetTokens) [] (sharedLists stmt results) a.sources ∧
      a.totalTokens = (a.sources.map (·.tokensUsed)).sum := by
  rw [assembleResults_eq] at h
  obtain ⟨out, htrim, hout⟩ := Option.bind_eq_some_iff.1 h
  obtain ⟨total, hsum, rfl⟩ := Option.map_eq_some_iff.1 hout
  refine ⟨trim_serves _ .nil htrim, ?_⟩
  rw [List.map_map]
  exact (u32Sum_eq hsum).symm

/-- Three grains of four tokens under a budget of eight: shares of 5 and 3. -/
def shortOfBudget : AssembleStmt (List CalGrainResult) where
  sources := some [⟨"facts", [grainAbout "aa" "ann"]⟩,
    ⟨"goals", [grainAbout "bb" "bob", grainAbout "cc" "cyd"]⟩]
  budget := some ⟨8, .tokens⟩
  priority := none
  assembleWith := []

theorem shortOfBudget_lists : ∃ m n,
    sharedLists shortOfBudget [("facts", [grainAbout "aa" "ann"]),
        ("goals", [grainAbout "bb" "bob", grainAbout "cc" "cyd"])] =
      [(("facts", [grainAbout "aa" "ann"]), m),
        (("goals", [grainAbout "bb" "bob", grainAbout "cc" "cyd"]), n)] :=
  ⟨_, _, rfl⟩

/-- Two sources under a budget of 20: shares of 13 and 7. -/
def smallFirst : AssembleStmt (List CalGrainResult) where
  sources := some [⟨"facts", [grainAbout "aa" "ann"]⟩,
    ⟨"goals", [grainAbout "bb" "bob", grainAbout "cc" "cyd"]⟩]
  budget := some ⟨20, .tokens⟩
  priority := none
  assembleWith := []

/-- The run of `smallFirst`, whose grains have texts of 17 bytes. -/
def smallFirstRun : Option (ℕ × List ℕ) :=
  match execute (fun _ => 17) (fun s => (.ok s.query : Except Empty _)) smallFirst with
  | .ok (.assembled a) => some (a.totalTokens, a.sources.map (·.grainCount))
  | _ => none

theorem eq_pair_of_map {α β : Type} {f : α → β} {l : List α} {b c : β} (h : l.map f = [b, c]) :
    ∃ x y, l = [x, y] ∧ f x = b ∧ f y = c := by
  obtain ⟨x, l', rfl, hx, hl'⟩ := List.map_eq_cons_iff.1 h
  obtain ⟨y, l'', rfl, hy, hl''⟩ := List.map_eq_cons_iff.1 hl'
  obtain rfl := List.map_eq_nil_iff.1 hl''
  exact ⟨x, y, rfl, hx, hy⟩

end Deja.Assemble
