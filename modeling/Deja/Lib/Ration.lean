import Mathlib.Tactic

/-!
# Rationing

Two greedy passes over elements of a weight and a class.

* `fill` walks a list and takes each element that still fits under a threshold.
* `trim` walks a list of candidates and drops them from a set until its weight is
  within a cap, never the last one of a class.

`fill_fair` and `trim_fair` say that neither pass favours what comes later,
`trim_weight_or_single` what the trim reaches, `trim_perm`, `trim_filter` and
`trim_untied` what its result does not depend on.
-/

namespace Ration

variable {α κ : Type} (w : α → ℕ)

/-- The weight of a list. -/
def weight (l : List α) : ℕ := (l.map w).sum

@[simp] theorem weight_nil : weight w [] = 0 := rfl

@[simp] theorem weight_cons (a : α) (l : List α) : weight w (a :: l) = w a + weight w l := by
  simp [weight]

@[simp] theorem weight_append (l m : List α) :
    weight w (l ++ m) = weight w l + weight w m := by
  simp [weight]

variable {w}

theorem weight_perm {l m : List α} (h : l.Perm m) : weight w l = weight w m :=
  (h.map w).sum_eq

theorem weight_sublist {l m : List α} (h : l.Sublist m) : weight w l ≤ weight w m :=
  (h.map w).sum_le_sum fun _ _ => Nat.zero_le _

/-! ## Filling -/

variable (w) in
/-- Take what still fits under the threshold. -/
def fill (threshold : ℕ) : ℕ → List α → List α
  | _, [] => []
  | used, a :: l =>
    if used + w a ≤ threshold then a :: fill threshold (used + w a) l
    else fill threshold used l

theorem fill_sublist (threshold : ℕ) (l : List α) :
    ∀ used, (fill w threshold used l).Sublist l := by
  induction l with
  | nil => intro used; simp [fill]
  | cons a l ih =>
    intro used
    rw [fill]
    split_ifs
    · exact (ih _).cons_cons a
    · exact (ih _).cons a

theorem weight_fill_le (threshold : ℕ) (l : List α) : ∀ used, used ≤ threshold →
    used + weight w (fill w threshold used l) ≤ threshold := by
  induction l with
  | nil => intro used h; simpa [fill] using h
  | cons a l ih =>
    intro used h
    rw [fill]
    split_ifs with ha
    · have hrest := ih (used + w a) ha
      rw [weight_cons]
      omega
    · exact ih used h

/-- What is taken fits beside what was used before it. -/
theorem fits_of_mem_fill {threshold : ℕ} {l : List α} {a : α} : ∀ {used},
    a ∈ fill w threshold used l → used + w a ≤ threshold := by
  induction l with
  | nil => intro used h; simp [fill] at h
  | cons b l ih =>
    intro used h
    rw [fill] at h
    split_ifs at h with hb
    · rcases List.mem_cons.1 h with rfl | hl
      · exact hb
      · have := ih hl
        omega
    · exact ih h

/-- Of two elements, the earlier is left out and the later taken only if the later
is lighter. -/
theorem fill_fair (lt : α → α → Prop) {threshold : ℕ} {l : List α} {a b : α}
    (hlt : lt b a) : ∀ {used}, l.Pairwise (fun x y => ¬ lt x y) → a ∈ l →
      a ∉ fill w threshold used l → b ∈ fill w threshold used l → w b < w a := by
  induction l with
  | nil => intro used _ ha; simp at ha
  | cons x l ih =>
    intro used hsorted ha hout hin
    rw [List.pairwise_cons] at hsorted
    rw [fill] at hout hin
    by_cases hx : used + w x ≤ threshold
    · rw [if_pos hx] at hout hin
      rw [List.mem_cons, not_or] at hout
      have hal : a ∈ l := (List.mem_cons.1 ha).resolve_left hout.1
      rcases List.mem_cons.1 hin with rfl | hbl
      · exact absurd hlt (hsorted.1 a hal)
      · exact ih hsorted.2 hal hout.2 hbl
    · rw [if_neg hx] at hout hin
      rcases List.mem_cons.1 ha with rfl | hal
      · have := fits_of_mem_fill hin
        omega
      · exact ih hsorted.2 hal hout hin

/-! ## Trimming -/

variable [DecidableEq α] [DecidableEq κ] (c : α → κ)

/-- How many elements of a list are of a class. -/
def countOf (k : κ) (l : List α) : ℕ := l.countP fun a => c a = k

variable (w) in
/-- Drop candidates while the weight is above the cap, but not the last of a class.
`current` and `counts` are kept along the way. -/
def trim (cap : ℕ) : List α → List α → ℕ → (κ → ℕ) → List α
  | [], kept, _, _ => kept
  | a :: rem, kept, current, counts =>
    if current ≤ cap then kept
    else if counts (c a) ≤ 1 then trim cap rem kept current counts
    else
      trim cap rem (kept.erase a) (current - w a)
        (Function.update counts (c a) (counts (c a) - 1))

variable {c}

theorem weight_erase {l : List α} {a : α} (h : a ∈ l) :
    weight w (l.erase a) = weight w l - w a := by
  have := weight_perm (w := w) (List.perm_cons_erase h)
  rw [weight_cons] at this
  omega

omit [DecidableEq α] in
theorem countOf_perm {l m : List α} (h : l.Perm m) (k : κ) : countOf c k l = countOf c k m :=
  h.countP_eq _

omit [DecidableEq α] in
theorem countOf_pos {l : List α} {a : α} (h : a ∈ l) : 0 < countOf c (c a) l :=
  List.countP_pos_iff.2 ⟨a, h, by simp⟩

theorem countOf_erase {l : List α} {a : α} (h : a ∈ l) (k : κ) :
    countOf c k (l.erase a) =
      Function.update (fun k => countOf c k l) (c a) (countOf c (c a) l - 1) k := by
  have hperm := countOf_perm (c := c) (List.perm_cons_erase h) k
  have hcons : countOf c k (a :: l.erase a) =
      countOf c k (l.erase a) + if c a = k then 1 else 0 := by
    simp [countOf, List.countP_cons]
  by_cases hk : c a = k
  · subst hk
    rw [Function.update_self]
    rw [hcons, if_pos rfl] at hperm
    omega
  · rw [Function.update_of_ne (Ne.symm hk)]
    rw [hcons, if_neg hk] at hperm
    omega

theorem trim_sublist (cap : ℕ) (rem : List α) : ∀ kept current (counts : κ → ℕ),
    (trim w c cap rem kept current counts).Sublist kept := by
  induction rem with
  | nil => intro kept _ _; exact List.Sublist.refl kept
  | cons a rem ih =>
    intro kept current counts
    rw [trim]
    split_ifs
    · exact List.Sublist.refl kept
    · exact ih _ _ _
    · exact (ih _ _ _).trans List.erase_sublist

/-- What the trim carries along is what it would count. -/
structure Tracks (w : α → ℕ) (c : α → κ) (kept : List α) (current : ℕ) (counts : κ → ℕ) :
    Prop where
  current_eq : current = weight w kept
  counts_eq : counts = fun k => countOf c k kept

theorem Tracks.erase {kept : List α} {current : ℕ} {counts : κ → ℕ} {a : α}
    (h : Tracks w c kept current counts) (ha : a ∈ kept) :
    Tracks w c (kept.erase a) (current - w a)
      (Function.update counts (c a) (counts (c a) - 1)) := by
  obtain ⟨rfl, rfl⟩ := h
  refine ⟨(weight_erase ha).symm, ?_⟩
  funext k
  rw [countOf_erase ha k]

/-- Every class keeps a member. -/
theorem trim_keeps (cap : ℕ) (rem : List α) : ∀ {kept current} {counts : κ → ℕ},
    Tracks w c kept current counts → rem.Nodup → rem ⊆ kept → ∀ a ∈ kept,
      ∃ b ∈ trim w c cap rem kept current counts, c b = c a := by
  induction rem with
  | nil => intro kept _ _ _ _ _ a ha; exact ⟨a, ha, rfl⟩
  | cons x rem ih =>
    intro kept current counts ht hnd hsub a ha
    rw [List.nodup_cons] at hnd
    have hx : x ∈ kept := hsub (List.mem_cons_self ..)
    have hrem : rem ⊆ kept := fun y hy => hsub (List.mem_cons_of_mem _ hy)
    rw [trim]
    split_ifs with hcap hcount
    · exact ⟨a, ha, rfl⟩
    · exact ih ht hnd.2 hrem a ha
    · have hrem' : rem ⊆ kept.erase x := by
        intro y hy
        have hyx : y ≠ x := by rintro rfl; exact hnd.1 hy
        exact (List.mem_erase_of_ne hyx).2 (hrem hy)
      by_cases hax : a = x
      · -- another element of the class of `x` is still there
        subst hax
        have htwo : 1 < countOf c (c a) kept := by
          rw [ht.counts_eq] at hcount
          exact Nat.lt_of_not_le hcount
        have hleft : 0 < countOf c (c a) (kept.erase a) := by
          rw [countOf_erase ha, Function.update_self]
          omega
        obtain ⟨b, hb, hcb⟩ := List.countP_pos_iff.1 hleft
        obtain ⟨b', hb', hcb'⟩ := ih (ht.erase hx) hnd.2 hrem' b hb
        exact ⟨b', hb', hcb'.trans (by simpa using hcb)⟩
      · exact ih (ht.erase hx) hnd.2 hrem' a ((List.mem_erase_of_ne hax).2 ha)

/-- Elements that are no candidates any more are the last of their class. -/
def Settled (c : α → κ) (rem kept : List α) : Prop :=
  ∀ a ∈ kept, a ∉ rem → countOf c (c a) kept ≤ 1

theorem Settled.skip {x : α} {rem kept : List α} (h : Settled c (x :: rem) kept)
    (hx : countOf c (c x) kept ≤ 1) : Settled c rem kept := by
  intro a ha hnot
  by_cases hax : a = x
  · rwa [hax]
  · exact h a ha (by simp [hax, hnot])

theorem Settled.erase {x : α} {rem kept : List α} (h : Settled c (x :: rem) kept)
    (hkept : kept.Nodup) : Settled c rem (kept.erase x) := by
  intro a ha hnot
  have hax : a ≠ x := by
    rintro rfl
    exact hkept.not_mem_erase ha
  have hle : countOf c (c a) (kept.erase x) ≤ countOf c (c a) kept :=
    List.erase_sublist.countP_le
  exact hle.trans (h a (List.mem_of_mem_erase ha) (by simp [hax, hnot]))

/-- The trim ends within the cap or with one element of each class. -/
theorem trim_weight_or_single (cap : ℕ) (rem : List α) : ∀ {kept current} {counts : κ → ℕ},
    Tracks w c kept current counts → rem ⊆ kept → kept.Nodup → rem.Nodup → Settled c rem kept →
      weight w (trim w c cap rem kept current counts) ≤ cap ∨
        ∀ a ∈ trim w c cap rem kept current counts,
          countOf c (c a) (trim w c cap rem kept current counts) ≤ 1 := by
  induction rem with
  | nil =>
    intro kept _ _ _ _ _ _ hone
    exact .inr fun a ha => hone a ha (by simp)
  | cons x rem ih =>
    intro kept current counts ht hsub hkept hnd hone
    rw [List.nodup_cons] at hnd
    have hx : x ∈ kept := hsub (List.mem_cons_self ..)
    have hrem : rem ⊆ kept := fun y hy => hsub (List.mem_cons_of_mem _ hy)
    rw [trim]
    split_ifs with hcap hcount
    · exact .inl (ht.current_eq ▸ hcap)
    · rw [ht.counts_eq] at hcount
      exact ih ht hrem hkept hnd.2 (hone.skip hcount)
    · refine ih (ht.erase hx) ?_ (hkept.erase x) hnd.2 (hone.erase hkept)
      intro y hy
      have hyx : y ≠ x := by rintro rfl; exact hnd.1 hy
      exact (List.mem_erase_of_ne hyx).2 (hrem hy)

/-- Nothing kept stands below something dropped of its class. -/
theorem trim_fair (lt : α → α → Prop) (cap : ℕ) (rem : List α) :
    ∀ {kept current} {counts : κ → ℕ}, Tracks w c kept current counts → rem ⊆ kept →
      kept.Nodup → rem.Nodup → Settled c rem kept → rem.Pairwise (fun x y => ¬ lt y x) →
      ∀ a ∈ kept, a ∉ trim w c cap rem kept current counts →
        ∀ b ∈ trim w c cap rem kept current counts, c b = c a → ¬ lt b a := by
  induction rem with
  | nil => intro kept _ _ _ _ _ _ _ _ a ha hout; exact absurd ha hout
  | cons x rem ih =>
    intro kept current counts ht hsub hkept hnd hone hsorted a ha hout b hb hcb
    rw [List.nodup_cons] at hnd
    rw [List.pairwise_cons] at hsorted
    have hx : x ∈ kept := hsub (List.mem_cons_self ..)
    have hrem : rem ⊆ kept := fun y hy => hsub (List.mem_cons_of_mem _ hy)
    rw [trim] at hout hb
    split_ifs at hout hb with hcap hcount
    · exact absurd ha hout
    · rw [ht.counts_eq] at hcount
      exact ih ht hrem hkept hnd.2 (hone.skip hcount) hsorted.2 a ha hout b hb hcb
    · have hrem' : rem ⊆ kept.erase x := by
        intro y hy
        have hyx : y ≠ x := by rintro rfl; exact hnd.1 hy
        exact (List.mem_erase_of_ne hyx).2 (hrem hy)
      by_cases hax : a = x
      · -- `x` goes, so its class has others, and those are candidates still
        subst hax
        have hbk : b ∈ kept.erase a := (trim_sublist cap rem _ _ _).subset hb
        have hbrem : b ∈ rem := by
          by_contra hbr
          have hba : b ≠ a := by
            rintro rfl
            exact hkept.not_mem_erase hbk
          have hle := hone b (List.mem_of_mem_erase hbk) (by simp [hba, hbr])
          rw [ht.counts_eq] at hcount
          rw [hcb] at hle
          exact hcount hle
        exact hsorted.1 b hbrem
      · exact ih (ht.erase hx) hrem' (hkept.erase x) hnd.2 (hone.erase hkept) hsorted.2 a
          ((List.mem_erase_of_ne hax).2 ha) hout b hb hcb

/-- The order in which the kept elements are listed does not matter. -/
theorem trim_perm (cap : ℕ) (rem : List α) : ∀ {kept kept' : List α} (current : ℕ)
    (counts : κ → ℕ), kept.Perm kept' →
      (trim w c cap rem kept current counts).Perm (trim w c cap rem kept' current counts) := by
  induction rem with
  | nil => intro _ _ _ _ h; exact h
  | cons x rem ih =>
    intro kept kept' current counts h
    rw [trim, trim]
    split_ifs
    · exact h
    · exact ih _ _ h
    · exact ih _ _ (h.erase x)

theorem trim_of_le {cap current : ℕ} (h : current ≤ cap) (rem kept : List α) (counts : κ → ℕ) :
    trim w c cap rem kept current counts = kept := by
  cases rem with
  | nil => rfl
  | cons x rem => rw [trim, if_pos h]

/-- A class with two elements counts more than one. -/
theorem one_lt_countOf {l : List α} {a b : α} (ha : a ∈ l) (hb : b ∈ l) (hne : b ≠ a)
    (hc : c b = c a) : 1 < countOf c (c a) l := by
  have hpos := countOf_pos (c := c) ((List.mem_erase_of_ne hne).2 hb)
  rw [hc] at hpos
  rw [countOf_perm (List.perm_cons_erase ha)]
  simpa [countOf, List.countP_cons] using hpos

/-- A class that counts more than one has a further element. -/
theorem exists_ne_of_one_lt_countOf {l : List α} {a : α} (ha : a ∈ l) (hnd : l.Nodup)
    (h : 1 < countOf c (c a) l) : ∃ b ∈ l, b ≠ a ∧ c b = c a := by
  have hleft : 0 < countOf c (c a) (l.erase a) := by
    rw [countOf_erase ha, Function.update_self]
    omega
  obtain ⟨b, hb, hcb⟩ := List.countP_pos_iff.1 hleft
  refine ⟨b, List.mem_of_mem_erase hb, ?_, by simpa using hcb⟩
  rintro rfl
  exact hnd.not_mem_erase hb

/-- Candidates that no later one shares a class with need not be listed. -/
theorem trim_filter (cap : ℕ) (p : α → Bool) (rem : List α) :
    ∀ {kept : List α} {current : ℕ} {counts : κ → ℕ}, Tracks w c kept current counts →
      rem ⊆ kept → kept.Nodup → rem.Nodup → Settled c rem kept →
      rem.Pairwise (fun x y => p x = false → c y ≠ c x) →
      trim w c cap (rem.filter p) kept current counts = trim w c cap rem kept current counts := by
  induction rem with
  | nil => intro _ _ _ _ _ _ _ _ _; rfl
  | cons x rem ih =>
    intro kept current counts ht hsub hkept hnd hone hlast
    rw [List.nodup_cons] at hnd
    rw [List.pairwise_cons] at hlast
    have hx : x ∈ kept := hsub (List.mem_cons_self ..)
    have hrem : rem ⊆ kept := fun y hy => hsub (List.mem_cons_of_mem _ hy)
    by_cases hcap : current ≤ cap
    · rw [trim_of_le hcap, trim_of_le hcap]
    by_cases hpx : p x = true
    · rw [List.filter_cons_of_pos hpx, trim, trim, if_neg hcap, if_neg hcap]
      split_ifs with hcount
      · rw [ht.counts_eq] at hcount
        exact ih ht hrem hkept hnd.2 (hone.skip hcount) hlast.2
      · refine ih (ht.erase hx) (fun y hy => ?_) (hkept.erase x) hnd.2 (hone.erase hkept) hlast.2
        have hyx : y ≠ x := by rintro rfl; exact hnd.1 hy
        exact (List.mem_erase_of_ne hyx).2 (hrem hy)
    · -- another element of the class would be settled, and so its only one
      have hcount : countOf c (c x) kept ≤ 1 := by
        by_contra hmany
        obtain ⟨y, hy, hyx, hc⟩ := exists_ne_of_one_lt_countOf hx hkept (not_le.1 hmany)
        have hyrem : y ∉ rem := fun hmem => hlast.1 y hmem (by simpa using hpx) hc
        have hle := hone y hy (by simp [hyx, hyrem])
        rw [hc] at hle
        exact hmany hle
      have hcounts : counts (c x) ≤ 1 := by
        rw [ht.counts_eq]
        exact hcount
      rw [List.filter_cons_of_neg hpx, trim, if_neg hcap, if_pos hcounts]
      exact ih ht hrem hkept hnd.2 (hone.skip hcount) hlast.2

/-- Which order the candidates come in does not matter, where each has a companion at
least as high and the trim ends below the first two of one height. -/
theorem trim_untied {β : Type} [LinearOrder β] (height : α → β) (cap : ℕ) (rem : List α) :
    ∀ {rem' kept : List α} {current : ℕ} {counts : κ → ℕ}, rem.Perm rem' →
      rem.Pairwise (fun a b => height a ≤ height b) →
      rem'.Pairwise (fun a b => height a ≤ height b) →
      Tracks w c kept current counts → rem.Nodup → rem ⊆ kept →
      (∀ a ∈ rem, ∃ b ∈ kept, b ≠ a ∧ c b = c a ∧ height a ≤ height b) →
      (∀ a ∈ rem, ∀ b ∈ rem, a ≠ b → height a = height b →
        current ≤ cap + weight w (rem.filter fun e => height e < height a)) →
      trim w c cap rem kept current counts = trim w c cap rem' kept current counts := by
  induction rem with
  | nil =>
    intro rem' _ _ _ hperm _ _ _ _ _ _ _
    rw [hperm.nil_eq]
  | cons x rem ih =>
    intro rem' kept current counts hperm hsorted hsorted' ht hnd hsub hcompanion huntied
    by_cases hcap : current ≤ cap
    · rw [trim_of_le hcap, trim_of_le hcap]
    rw [List.nodup_cons] at hnd
    have hx : x ∈ kept := hsub (List.mem_cons_self ..)
    have hlowest : ∀ e ∈ x :: rem, height x ≤ height e := by
      intro e he
      rcases List.mem_cons.1 he with rfl | he
      · exact le_rfl
      · exact (List.pairwise_cons.1 hsorted).1 e he
    -- the lowest candidate shares its height with no other
    have halone : ∀ e ∈ x :: rem, e ≠ x → height x < height e := by
      intro e he hne
      refine lt_of_le_of_ne (hlowest e he) fun heq => hcap ?_
      have hle := huntied x (List.mem_cons_self ..) e he (Ne.symm hne) heq
      have hnone : ((x :: rem).filter fun e => height e < height x) = [] :=
        List.filter_eq_nil_iff.2 fun e he => by simpa using hlowest e he
      rwa [hnone, weight_nil, Nat.add_zero] at hle
    cases rem' with
    | nil => exact absurd hperm.eq_nil (List.cons_ne_nil _ _)
    | cons y rem' =>
      have hyx : y = x := by
        by_contra hne
        have hlt := halone y (hperm.symm.subset (List.mem_cons_self ..)) hne
        rcases List.mem_cons.1 (hperm.subset (List.mem_cons_self ..)) with heq | hmem
        · exact hne heq.symm
        · exact absurd ((List.pairwise_cons.1 hsorted').1 x hmem) (not_le.2 hlt)
      subst hyx
      obtain ⟨b, hb, hbx, hc, -⟩ := hcompanion y (List.mem_cons_self ..)
      have hcount : ¬counts (c y) ≤ 1 := by
        rw [ht.counts_eq]
        exact not_le.2 (one_lt_countOf hx hb hbx hc)
      rw [trim, trim, if_neg hcap, if_neg hcap, if_neg hcount, if_neg hcount]
      have hapart : ∀ e ∈ rem, e ≠ y := by
        rintro e he rfl
        exact hnd.1 he
      refine ih ((List.perm_cons y).1 hperm) (List.pairwise_cons.1 hsorted).2
        (List.pairwise_cons.1 hsorted').2 (ht.erase hx) hnd.2 (fun e he => ?_) (fun e he => ?_)
        fun e he e' he' hne heq => ?_
      · exact (List.mem_erase_of_ne (hapart e he)).2 (hsub (List.mem_cons_of_mem _ he))
      · obtain ⟨b, hb, hbe, hc, hle⟩ := hcompanion e (List.mem_cons_of_mem _ he)
        refine ⟨b, (List.mem_erase_of_ne ?_).2 hb, hbe, hc, hle⟩
        rintro rfl
        exact absurd hle (not_le.2 (halone e (List.mem_cons_of_mem _ he) (hapart e he)))
      · have hle := huntied e (List.mem_cons_of_mem _ he) e' (List.mem_cons_of_mem _ he') hne heq
        have hlt := halone e (List.mem_cons_of_mem _ he) (hapart e he)
        rw [List.filter_cons_of_pos (by simpa using hlt), weight_cons] at hle
        omega

end Ration
